import Mopa.BlockConstruction

/-! Construction in text mode. It keeps the position and the limits as binary construction
does, and what binary construction accepts it accepts. -/
namespace Mopa.Io
open Outcome OcCtx

/-- The limit within a block that begins at the position, for lengths of `b` bits. -/
def innerLimit (limit bitpos b : Nat) : Nat :=
  u32 (bitpos + if u32 (bitpos + u32 (u32 (2^b - 1) * 8)) > limit then sub32 limit bitpos
    else u32 (u32 (2^b - 1) * 8))

theorem innerLimit_eq {limit bitpos b : Nat} (hl : limit < 2^32) (hp : bitpos < 2^32) :
    innerLimit limit bitpos b = min limit (u32 (bitpos + u32 (u32 (2^b - 1) * 8))) := by
  unfold innerLimit
  split
  · next h => rw [u32_add_sub32 hp hl, Nat.min_eq_left h.le]
  · next h => rw [Nat.min_eq_right (not_lt.mp h)]

section Operations
variable {c : OcCtx} {w : Nat} {info : Info}

theorem ocx_uint_apply (val : UInt32) :
    Ocx.uint w val info c =
      if u32 (c.bitpos + w) > c.bitlimit then .error (.exception info "left %d bits, needed %d") c
      else if w < 32 ∧ val.toNat > 2^w - 1 then .error (.exception info "value %d exceeds %d bits") c
      else .ok () { c with
        prod := c.prod ++ uintLine c.scopeStack.length w val.toNat info
        bitpos := u32 (c.bitpos + w) } := by
  unfold Ocx.uint
  rw [get_bind]
  split
  · rfl
  · split
    · next h => exact bind_error (show Ocx.writeUint w val.toNat info c = _ from if_pos h)
    · next h => exact (bind_ok (show Ocx.writeUint w val.toNat info c = _ from if_neg h)).trans rfl

theorem ocx_namedBlockBegin_apply (b : Nat) :
    Ocx.namedBlockBegin b info c =
      if u32 (c.bitpos + b) % 8 ≠ 0 then
        .error (.exception info "block begin is not byte-aligned") { c with bitpos := u32 (c.bitpos + b) }
      else .ok () { c with
        bitpos := u32 (c.bitpos + b)
        bitlimit := innerLimit c.bitlimit (u32 (c.bitpos + b)) b
        scopeStack := ⟨info, u32 (c.bitpos + b), c.bitlimit, u32 c.prod.length⟩ :: c.scopeStack
        prod := c.prod ++ (indent c.scopeStack.length ++ chars "\x7b\n") } := by
  by_cases h : u32 (c.bitpos + b) % 8 ≠ 0
  · have hbegin : Ocx.blockBegin (u32 (2^b - 1)) info { c with bitpos := u32 (c.bitpos + b) } =
        .error (.exception info "block begin is not byte-aligned") { c with bitpos := u32 (c.bitpos + b) } := by
      unfold Ocx.blockBegin
      rw [get_bind]
      dsimp only
      rw [if_pos h]
      rfl
    rw [if_pos h]
    show (Ocx.blockBegin (u32 (2^b - 1)) info >>= _) { c with bitpos := u32 (c.bitpos + b) } = _
    exact bind_error hbegin
  · have hbegin : Ocx.blockBegin (u32 (2^b - 1)) info { c with bitpos := u32 (c.bitpos + b) } = .ok () { c with
        bitpos := u32 (c.bitpos + b)
        bitlimit := innerLimit c.bitlimit (u32 (c.bitpos + b)) b
        scopeStack := ⟨info, u32 (c.bitpos + b), c.bitlimit, 0⟩ :: c.scopeStack
        prod := c.prod ++ (indent c.scopeStack.length ++ chars "\x7b\n") } := by
      unfold Ocx.blockBegin
      rw [get_bind]
      dsimp only
      rw [if_neg h]
      rfl
    rw [if_neg h]
    show (Ocx.blockBegin (u32 (2^b - 1)) info >>= _) { c with bitpos := u32 (c.bitpos + b) } = _
    exact (bind_ok hbegin).trans rfl

/-- The line of the length in front of the block that begins at the saved position. -/
def withLength (prod : List UInt8) (depth length : Nat) (s : OScope) : List UInt8 :=
  prod.take s.positionForWrite ++ uintLine depth 32 length s.info ++ prod.drop s.positionForWrite

theorem ocx_namedBlockEnd_apply {s : OScope} {outer : List OScope} (hs : c.scopeStack = s :: outer) :
    Ocx.namedBlockEnd info c =
      if sub32 c.bitpos s.bitposAtEnter % 8 ≠ 0 then
        .error (.exception info "block length not byte-aligned") c
      else .ok (sub32 c.bitpos s.bitposAtEnter / 8) { c with
        bitlimit := s.bitlimitAtEnter
        scopeStack := outer
        prod := withLength (c.prod ++ (indent outer.length ++ chars "\x7d\n")) outer.length
          (sub32 c.bitpos s.bitposAtEnter / 8) s } := by
  obtain ⟨pos, limit, stack, prod⟩ := c
  obtain rfl : stack = s :: outer := hs
  unfold Ocx.namedBlockEnd
  rw [get_bind]
  dsimp only
  by_cases h : sub32 pos s.bitposAtEnter % 8 ≠ 0
  · rw [if_pos h]
    have hend : Ocx.blockEnd info ⟨pos, limit, s :: outer, prod⟩ =
        .error (.exception info "block length not byte-aligned") ⟨pos, limit, s :: outer, prod⟩ := by
      unfold Ocx.blockEnd
      rw [get_bind]
      dsimp only
      rw [if_pos h]
      rfl
    exact bind_error hend
  · rw [if_neg h]
    have hend : Ocx.blockEnd info ⟨pos, limit, s :: outer, prod⟩ =
        .ok (sub32 pos s.bitposAtEnter / 8) ⟨pos, s.bitlimitAtEnter, outer,
          prod ++ (indent outer.length ++ chars "\x7d\n")⟩ := by
      unfold Ocx.blockEnd
      rw [get_bind]
      dsimp only
      rw [if_neg h]
      rfl
    rw [bind_ok hend, get_bind, modify_bind]
    have hwrite (length : Nat) (c : OcCtx) :
        Ocx.writeUint 32 length s.info c = .ok () (c.append (uintLine c.scopeStack.length 32 length s.info)) :=
      if_neg (by simp)
    rw [bind_ok (hwrite _ _)]
    rfl

theorem ocx_shortString_apply (str : List UInt8) :
    Iox.shortStringIo (m := .constructText) str info c =
      if u32 str.length > 255 then .error (.exception info "String '%s' length %d exceeds max 255 chars") c
      else if u32 (c.bitpos + u32 ((u32 str.length + 1) * 8)) > c.bitlimit then
        .error (.exception info "String '%s' requires %d bytes length, only %d bytes available") c
      else if c.bitpos % 8 ≠ 0 then .error (.exception info "String '%s' not byte-aligned") c
      else .ok str { c with
        prod := c.prod ++ stringLine c.scopeStack.length (str.take (u32 str.length)) info
        bitpos := u32 (c.bitpos + u32 ((u32 str.length + 1) * 8)) } := by
  show (if u32 str.length > 255 then _ else if u32 (c.bitpos + u32 ((u32 str.length + 1) * 8)) > c.bitlimit then _
    else (Ocx.produceString str info >>= _) c) = _
  split
  · rfl
  · next hlen =>
    congr 1
    split
    · next h => exact bind_error (show Ocx.produceString str info c = _ from if_pos h)
    · next h =>
      have hproduce : Ocx.produceString str info c = _ := (if_neg h).trans (if_neg (by omega))
      exact (bind_ok hproduce).trans rfl

theorem ocx_shortString_null (str : List UInt8) :
    Iox.shortStringIo (m := .constructText) str none c =
      if u32 str.length > 255 then .error (.exception emptyInfo "String '%s' length %d exceeds max 255 chars") c
      else if u32 (c.bitpos + u32 ((u32 str.length + 1) * 8)) > c.bitlimit then
        .error (.exception emptyInfo "String '%s' requires %d bytes length, only %d bytes available") c
      else if c.bitpos % 8 ≠ 0 then .error (.exception emptyInfo "String '%s' not byte-aligned") c
      else .error .undefined c := by
  show (if u32 str.length > 255 then _ else if u32 (c.bitpos + u32 ((u32 str.length + 1) * 8)) > c.bitlimit then _
    else (Ocx.produceString str none >>= _) c) = _
  split
  · rfl
  · next hlen =>
    congr 1
    split
    · next h => exact bind_error (show Ocx.produceString str none c = _ from if_pos h)
    · next h => exact bind_error (show Ocx.produceString str none c = _ from (if_neg h).trans (if_neg (by omega)))

theorem ocx_fixedString_apply (numChars : Nat) (str : List UInt8) :
    Iox.fixedStringIo numChars (m := .constructText) str info c =
      if u32 str.length ≠ numChars then .error (.exception info "String '%s' must be %d long") c
      else if u32 (c.bitpos + u32 (u32 str.length * 8)) > c.bitlimit then
        .error (.exception info "String '%s' requires %d bytes length, only %d bytes available") c
      else if c.bitpos % 8 ≠ 0 then .error (.exception info "String '%s' not byte-aligned") c
      else if u32 str.length ≥ 2^31 then .error .undefined c
      else .ok str { c with
        prod := c.prod ++ stringLine c.scopeStack.length (str.take (u32 str.length)) info
        bitpos := u32 (c.bitpos + u32 (str.length * 8)) } := by
  show (if u32 str.length ≠ numChars then _ else if u32 (c.bitpos + u32 (u32 str.length * 8)) > c.bitlimit then _
    else (Ocx.produceString str info >>= _) c) = _
  congr 1
  congr 1
  split
  · next h => exact bind_error (show Ocx.produceString str info c = _ from if_pos h)
  · next h =>
    split
    · next hint => exact bind_error (show Ocx.produceString str info c = _ from (if_neg h).trans (if_pos hint))
    · next hint =>
      have hproduce : Ocx.produceString str info c = _ := (if_neg h).trans (if_neg hint)
      exact (bind_ok hproduce).trans rfl

end Operations

/-- A scope of a run in text mode beside the scope of a run in binary mode. -/
structure OScope.Simulates (s t : OScope) : Prop where
  info : t.info = s.info
  bitpos : t.bitposAtEnter = s.bitposAtEnter
  limit : s.bitlimitAtEnter ≤ t.bitlimitAtEnter
  word : t.bitlimitAtEnter < 2^32

/-- Both contexts are at the same position of the same blocks, text mode with at least as
much room. -/
structure Simulates (o : ObCtx) (t : OcCtx) : Prop where
  bitpos : t.bitpos = o.bitpos
  limit : o.bitlimit ≤ t.bitlimit
  word : t.bitlimit < 2^32
  scopes : List.Forall₂ OScope.Simulates o.scopeStack t.scopeStack

theorem Simulates.create {data : Memory UInt8} {size : Nat} (hsize : size ≤ 1000000) :
    Simulates (ObCtx.create data size) OcCtx.create where
  bitpos := rfl
  limit := by
    show u32 (size * 8) ≤ 8 * 1000000
    rw [u32_of_lt (by omega)]
    omega
  word := by decide
  scopes := .nil

theorem Simulates.field {o o' : ObCtx} {t : OcCtx} (h : Simulates o t) (hstack : o'.scopeStack = o.scopeStack)
    (hlimit : o'.bitlimit = o.bitlimit) (prod : List UInt8) :
    Simulates o' { t with bitpos := o'.bitpos, prod := prod } :=
  ⟨rfl, hlimit ▸ h.limit, h.word, hstack ▸ h.scopes⟩

theorem uint_simulates {o o' : ObCtx} {t : OcCtx} (h : Simulates o t) {var : Variable} {w : Nat} {val a : var.Word}
    {info : Info} (hw : Variable.toNat val < 2^w)
    (ho : Iox.uint (m := .constructBinary) var w val info o = .ok a o') :
    ∃ t', Iox.uint (m := .constructText) var w val info t = .ok a t' ∧ Simulates o' t' := by
  obtain ⟨hstack, hlimit, hpos, hfit⟩ := obx_uint_frame ho
  have hroom : ¬ u32 (t.bitpos + w) > t.bitlimit := by
    rw [h.bitpos, ← hpos]
    exact not_lt.mpr (hfit.trans h.limit)
  have hwrite (x : UInt32) (hx : x.toNat = Variable.toNat val) : ∃ t', Ocx.uint w x info t = .ok () t' ∧
      Simulates o' t' := by
    refine ⟨_, ?_, h.field hstack hlimit (t.prod ++ uintLine t.scopeStack.length w x.toNat info)⟩
    rw [ocx_uint_apply, if_neg hroom, if_neg (by omega), hpos, ← h.bitpos]
  cases var with
  | uint8 =>
    obtain ⟨u, c1, h1, hr⟩ := bind_eq_ok.mp ho
    cases hr
    obtain ⟨t', ht', hsim⟩ := hwrite val.toUInt32 (UInt8.toNat_toUInt32 val)
    exact ⟨t', bind_ok ht', hsim⟩
  | uint16 =>
    obtain ⟨u, c1, h1, hr⟩ := bind_eq_ok.mp ho
    cases hr
    obtain ⟨t', ht', hsim⟩ := hwrite val.toUInt32 (UInt16.toNat_toUInt32 val)
    exact ⟨t', bind_ok ht', hsim⟩
  | uint32 =>
    obtain ⟨u, c1, h1, hr⟩ := bind_eq_ok.mp ho
    cases hr
    obtain ⟨t', ht', hsim⟩ := hwrite val rfl
    exact ⟨t', bind_ok ht', hsim⟩

theorem shortString_simulates {o o' : ObCtx} {t : OcCtx} (h : Simulates o t) {str a : List UInt8} {info : Info}
    (hlen : str.length < 2^28) (ho : Iox.shortStringIo (m := .constructBinary) str info o = .ok a o') :
    ∃ t', Iox.shortStringIo (m := .constructText) str info t = .ok str t' ∧ Simulates o' t' := by
  obtain ⟨hstack, hlimit, hpos, hfit, hal, hshort⟩ := obx_shortString_frame hlen ho
  have hroom : ¬ u32 (t.bitpos + u32 ((str.length + 1) * 8)) > t.bitlimit := by
    rw [h.bitpos, ← hpos]
    exact not_lt.mpr (hfit.trans h.limit)
  refine ⟨_, ?_, h.field hstack hlimit (t.prod ++ stringLine t.scopeStack.length str info)⟩
  rw [ocx_shortString_apply, u32_of_lt (n := str.length) (by omega), if_neg (by omega), if_neg hroom,
    if_neg (by rw [h.bitpos]; exact not_not.mpr hal), List.take_length, hpos, ← h.bitpos]

theorem fixedString_simulates {o o' : ObCtx} {t : OcCtx} (h : Simulates o t) {n : Nat} {str a : List UInt8}
    {info : Info} (hlen : str.length < 2^28)
    (ho : Iox.fixedStringIo n (m := .constructBinary) str info o = .ok a o') :
    ∃ t', Iox.fixedStringIo n (m := .constructText) str info t = .ok str t' ∧ Simulates o' t' := by
  obtain ⟨hstack, hlimit, hpos, hfit, hal, hn⟩ := obx_fixedString_frame hlen ho
  have hroom : ¬ u32 (t.bitpos + u32 (str.length * 8)) > t.bitlimit := by
    rw [h.bitpos, ← hpos]
    exact not_lt.mpr (hfit.trans h.limit)
  refine ⟨_, ?_, h.field hstack hlimit (t.prod ++ stringLine t.scopeStack.length str info)⟩
  rw [ocx_fixedString_apply, u32_of_lt (n := str.length) (by omega), if_neg (not_not.mpr hn), if_neg hroom,
    if_neg (by rw [h.bitpos]; exact not_not.mpr hal), if_neg (by omega), List.take_length, hpos, ← h.bitpos]

theorem innerLimit_mono {limit limit' bitpos b : Nat} (h : limit ≤ limit') (hl : limit' < 2^32)
    (hp : bitpos < 2^32) : innerLimit limit bitpos b ≤ innerLimit limit' bitpos b := by
  rw [innerLimit_eq (by omega) hp, innerLimit_eq hl hp]
  exact min_le_min_right _ h

theorem namedBlockBegin_simulates {o o' : ObCtx} {t : OcCtx} (h : Simulates o t) {b : Nat} {info : Info} {u : Unit}
    (ho : Obx.namedBlockBegin b info o = .ok u o') :
    ∃ t', Ocx.namedBlockBegin b info t = .ok () t' ∧ Simulates o' t' := by
  rw [obx_namedBlockBegin_apply] at ho
  split at ho
  · cases ho
  · next hal =>
    cases ho
    refine ⟨_, ocx_namedBlockBegin_apply b |>.trans (if_neg (by rwa [h.bitpos])), ?_⟩
    rw [h.bitpos]
    refine ⟨rfl, innerLimit_mono h.limit h.word (u32_lt _), u32_lt _, .cons ?_ h.scopes⟩
    exact ⟨rfl, rfl, h.limit, h.word⟩

theorem namedBlockEnd_simulates {o o' : ObCtx} {t : OcCtx} (h : Simulates o t) {info : Info} {n : Nat}
    (ho : Obx.namedBlockEnd info o = .ok n o') :
    ∃ t', Ocx.namedBlockEnd info t = .ok n t' ∧ Simulates o' t' := by
  cases hs : o.scopeStack with
  | nil =>
    rw [obx_namedBlockEnd_nil hs] at ho
    cases ho
  | cons s outer =>
    have hscopes := h.scopes
    rw [hs] at hscopes
    obtain ⟨s', outer', hss, houter, ht⟩ := List.forall₂_cons_left_iff.mp hscopes
    obtain ⟨hstack, hlimit, hpos⟩ := obx_namedBlockEnd_frame hs ho
    rw [obx_namedBlockEnd_apply info o s outer hs] at ho
    split at ho
    · cases ho
    · next hbytes =>
      obtain ⟨u, c1, h1, ho⟩ := bind_eq_ok.mp ho
      cases ho
      have hlen : sub32 t.bitpos s'.bitposAtEnter = sub32 o.bitpos s.bitposAtEnter := by rw [h.bitpos, hss.bitpos]
      rw [← hlen] at hbytes ⊢
      refine ⟨_, (ocx_namedBlockEnd_apply ht).trans (if_neg hbytes), ?_⟩
      exact ⟨h.bitpos.trans hpos.symm, hlimit ▸ hss.limit, hss.word, hstack ▸ houter⟩

namespace Operation

theorem perform_simulates {op : Operation} (hc : op.Constructs) {o o' : ObCtx} {t : OcCtx} (h : Simulates o t)
    {r : Option Nat} (ho : op.perform (m := .constructBinary) o = .ok r o') :
    ∃ t', op.perform (m := .constructText) t = .ok r t' ∧ Simulates o' t' := by
  cases op with
  | uint var w val info =>
    obtain ⟨a, o1, h1, hr⟩ := bind_eq_ok.mp ho
    cases hr
    obtain ⟨t', ht', hsim⟩ := uint_simulates h hc.2.2 h1
    exact ⟨t', bind_ok ht', hsim⟩
  | uintReq var w val info =>
    obtain ⟨_, o1, h1, hr⟩ := bind_eq_ok.mp ho
    cases hr
    obtain ⟨a, o2, h2, hr⟩ := bind_eq_ok.mp h1
    rw [if_neg fun h => by cases h.1] at hr
    cases hr
    obtain ⟨t', ht', hsim⟩ := uint_simulates h hc.2.2 h2
    have hreq : Iox.require (m := .constructText) (fun v => Iox.uint var w v info) val info t = .ok () t' := by
      refine (bind_ok ht').trans ?_
      rw [if_neg fun h => by cases h.1]
      rfl
    exact ⟨t', bind_ok hreq, hsim⟩
  | shortString str info =>
    obtain ⟨a, o1, h1, hr⟩ := bind_eq_ok.mp ho
    cases hr
    obtain ⟨t', ht', hsim⟩ := shortString_simulates h hc h1
    exact ⟨t', bind_ok ht', hsim⟩
  | fixedString n str info =>
    obtain ⟨a, o1, h1, hr⟩ := bind_eq_ok.mp ho
    cases hr
    obtain ⟨t', ht', hsim⟩ := fixedString_simulates h hc h1
    exact ⟨t', bind_ok ht', hsim⟩
  | namedBlockBegin b info =>
    obtain ⟨a, o1, h1, hr⟩ := bind_eq_ok.mp ho
    cases hr
    obtain ⟨t', ht', hsim⟩ := namedBlockBegin_simulates h h1
    exact ⟨t', bind_ok ht', hsim⟩
  | namedBlockEnd info =>
    obtain ⟨a, o1, h1, hr⟩ := bind_eq_ok.mp ho
    cases hr
    obtain ⟨t', ht', hsim⟩ := namedBlockEnd_simulates h h1
    exact ⟨t', bind_ok ht', hsim⟩

/-- What binary construction accepts text construction accepts, with the same results and
the same positions all along. -/
theorem trace_simulates {ops : List Operation} (hops : ∀ op ∈ ops, op.Constructs) {o : ObCtx} {t : OcCtx}
    (h : Simulates o t) {os : List (Option Nat × ObCtx)} (ho : trace (m := .constructBinary) ops o = some os) :
    ∃ ts, trace (m := .constructText) ops t = some ts ∧
      List.Forall₂ (fun o t => t.1 = o.1 ∧ Simulates o.2 t.2) os ts := by
  induction ops generalizing o t os with
  | nil =>
    cases ho
    exact ⟨[], rfl, .nil⟩
  | cons op ops ih =>
    obtain ⟨r, o', rest, h1, hrest, rfl⟩ := trace_eq_some.mp ho
    obtain ⟨t', ht', hsim⟩ := perform_simulates (hops op List.mem_cons_self) h h1
    obtain ⟨ts, hts, hall⟩ := ih (fun op hop => hops op (List.mem_cons_of_mem _ hop)) hsim hrest
    exact ⟨(r, t') :: ts, trace_eq_some.mpr ⟨r, t', ts, ht', hts, rfl⟩, .cons ⟨rfl, hsim⟩ hall⟩

end Operation

/-- Text construction simulates binary construction: operations that binary construction
takes without an exception, in a buffer of up to 1000000 bytes, text construction takes as
well. Behind each of them positions and blocks are the same, text mode has at least as much
room, and the ends of blocks return the same lengths. -/
theorem text_construction_simulates {data : Memory UInt8} {size : Nat} (hsize : size ≤ 1000000)
    {ops : List Operation} (hops : ∀ op ∈ ops, op.Constructs) {os : List (Option Nat × ObCtx)}
    (ho : Operation.trace (m := .constructBinary) ops (ObCtx.create data size) = some os) :
    ∃ ts, Operation.trace (m := .constructText) ops OcCtx.create = some ts ∧
      List.Forall₂ (fun o t => t.1 = o.1 ∧ t.2.bitpos = o.2.bitpos ∧ o.2.bitlimit ≤ t.2.bitlimit ∧
        List.Forall₂ (fun s s' => s'.info = s.info ∧ s'.bitposAtEnter = s.bitposAtEnter)
          o.2.scopeStack t.2.scopeStack) os ts := by
  obtain ⟨ts, hts, hall⟩ := Operation.trace_simulates hops (Simulates.create hsize) ho
  refine ⟨ts, hts, hall.imp fun o t h => ?_⟩
  obtain ⟨hr, hsim⟩ := h
  exact ⟨hr, hsim.bitpos, hsim.limit, hsim.scopes.imp fun s s' hs => ⟨hs.info, hs.bitpos⟩⟩

theorem text_construction_simulates_two_bytes : ∃ os ts,
    Operation.trace (m := .constructBinary) [.namedBlockBegin 8 ⟨chars "len", 0⟩,
      .uint .uint16 16 (0x1234 : UInt16) ⟨chars "a", 0⟩, .namedBlockEnd ⟨chars "end", 0⟩]
      (ObCtx.create (fun _ => 0) 4) = some os ∧
    Operation.trace (m := .constructText) [.namedBlockBegin 8 ⟨chars "len", 0⟩,
      .uint .uint16 16 (0x1234 : UInt16) ⟨chars "a", 0⟩, .namedBlockEnd ⟨chars "end", 0⟩]
      OcCtx.create = some ts ∧ os.map Prod.fst = [none, none, some 2] ∧ os.length = ts.length := by
  have hrun : (Operation.trace (m := .constructBinary) [.namedBlockBegin 8 ⟨chars "len", 0⟩,
      .uint .uint16 16 (0x1234 : UInt16) ⟨chars "a", 0⟩, .namedBlockEnd ⟨chars "end", 0⟩]
      (ObCtx.create (fun _ => 0) 4)).map (List.map Prod.fst) = some [none, none, some 2] := by decide +kernel
  obtain ⟨os, hos, hlengths⟩ := Option.map_eq_some_iff.mp hrun
  obtain ⟨ts, hts, hall⟩ := text_construction_simulates (by decide)
    (by simp [Operation.Constructs, Variable.width, Variable.toNat]) hos
  exact ⟨os, ts, hos, hts, hlengths, hall.length_eq⟩

end Mopa.Io
