import Mopa.BlockNesting

/-! Named blocks in text parsing. The position and the limits are those of binary parsing,
but a number moves the position without a look at the limit. -/
namespace Mopa.Io
open Outcome

def IcCtx.asBinary (c : IcCtx) : IbCtx := ⟨c.bitpos, c.bitlimit, fun _ => 0, c.scopeStack⟩

namespace Icx

/-- `read_uint` behind the colon. -/
def readNumeral (bitsize : Nat) (info : Info) : Icx Nat := do
  discard skiptotoken
  if (← charAt 0) = 48 then
    if (← charAt 1) = 120 then
      advance 2
      readHex bitsize info
    else if (← charAt 1) = 98 then
      advance 2
      readBin bitsize info
    else
      readDec bitsize info
  else
    readDec bitsize info

theorem readUint_eq (bitsize : Nat) (info : Info) :
    readUint bitsize info = (do
      if ← expect info.name then
        if ← expect (chars ":") then
          readNumeral bitsize info
        else
          throwX info "':' expected"
      else
        throwX info "'%s' expected") := rfl

end Icx

/-- The program leaves the position and the blocks, even if it throws. -/
def Stays {α : Type} (x : Icx α) : Prop := ∀ c : IcCtx, (reached (x c)).asBinary = c.asBinary

namespace Stays
variable {α β : Type} {info : Info}

protected theorem throwX (message : String) : Stays (throwX info message : Icx α) := fun _ => rfl

protected theorem bind {x : Icx α} {f : α → Icx β} (hx : Stays x) (hf : ∀ a, Stays (f a)) :
    Stays (x >>= f) := fun c =>
  reached_bind (P := fun c' => c'.asBinary = c.asBinary) (hx c) fun a c' _ h => (hf a c').trans h

theorem discard {x : Icx α} (hx : Stays x) : Stays (discard x) := by
  intro c
  rw [Functor.discard, Functor.mapConst]
  exact (congrArg IcCtx.asBinary (reached_map _ x c)).trans (hx c)

theorem skiptotoken : Stays Icx.skiptotoken := by
  intro c
  unfold Icx.skiptotoken
  split
  · rfl
  · rfl

theorem expect (req : List UInt8) : Stays (Icx.expect req) := by
  refine (discard skiptotoken).bind fun _ c => ?_
  cases IcCtx.follow c.parsePos req with
  | none => rfl
  | some r => rfl

theorem charAt (n : Nat) : Stays (Icx.charAt n) := by
  intro c
  unfold Icx.charAt
  split
  · rfl
  · rfl

theorem advance (n : Nat) : Stays (Icx.advance n) := fun _ => rfl

theorem readNumber (base : Nat) (digit : UInt8 → Option Nat) (message : String) (bitsize : Nat) :
    Stays (Icx.readNumber base digit message bitsize info) := by
  intro c
  unfold Icx.readNumber
  split
  · rfl
  · rfl
  · split
    · rfl
    · rfl

theorem readNumeral (bitsize : Nat) : Stays (Icx.readNumeral bitsize info) := by
  refine (discard skiptotoken).bind fun _ => (charAt 0).bind fun ch => ?_
  split
  · refine (charAt 1).bind fun ch1 => ?_
    split
    · exact (advance 2).bind fun _ => readNumber _ _ _ _
    · refine (charAt 1).bind fun ch1 => ?_
      split
      · exact (advance 2).bind fun _ => readNumber _ _ _ _
      · exact readNumber _ _ _ _
  · exact readNumber _ _ _ _

theorem readUint (bitsize : Nat) : Stays (Icx.readUint bitsize info) := by
  rw [Icx.readUint_eq]
  refine (expect _).bind fun named => ?_
  split
  · refine (expect _).bind fun colon => ?_
    split
    · exact readNumeral bitsize
    · exact .throwX _
  · exact .throwX _

theorem parseString {info : Option Info} : Stays (Icx.parseString info) := by
  intro c
  unfold Icx.parseString
  split
  · rfl
  · refine ((discard (expect _)).bind fun _ => (discard (expect _)).bind fun _ =>
      (discard (expect _)).bind fun _ c => ?_) c
    cases Icx.unquote [] c.parsePos with
    | closed str rest => rfl
    | refused message rest => rfl
    | overread => rfl

theorem enterScope : Stays Icx.enterScope := discard (expect _)

theorem leaveScope : Stays Icx.leaveScope := discard (expect _)

theorem ok {x : Icx α} (hx : Stays x) {c c' : IcCtx} {a : α} (h : x c = .ok a c') : c'.asBinary = c.asBinary := by
  have hs := hx c
  rwa [h] at hs

end Stays

/-- The bits that an operation reads when it returns, as binary parsing counts them. -/
def Operation.bits : Operation → Ctx .parseText → Nat
  | uint _ w _ _, _ => w
  | uintReq _ w _ _, _ => w
  | shortString _ info, c =>
    match Icx.parseString info c with
    | .ok str _ => 8 * (1 + str.length)
    | .error .. => 0
  | fixedString _ _ info, c =>
    match Icx.parseString info c with
    | .ok str _ => 8 * str.length
    | .error .. => 0
  | namedBlockBegin b _, _ => b
  | namedBlockEnd _, _ => 0

/-- What the operation reads is within the limit, and a string is short enough for its
length to be counted in 8 bits. -/
def Operation.WithinLimit : Operation → Ctx .parseText → Prop
  | uint _ w _ info, c => ∀ v c', Icx.readUint w info c = .ok v c' → c.bitpos + w ≤ c.bitlimit
  | uintReq _ w _ info, c => ∀ v c', Icx.readUint w info c = .ok v c' → c.bitpos + w ≤ c.bitlimit
  | shortString _ info, c => ∀ str c', Icx.parseString info c = .ok str c' → 1 + str.length ≤ 255
  | fixedString _ _ info, c => ∀ str c', Icx.parseString info c = .ok str c' → str.length ≤ 255
  | namedBlockBegin b info, c => ∀ length c', Icx.readUint b info c = .ok length c' →
    c.bitpos + b ≤ c.bitlimit ∧
      (u32 (c.bitpos + b + 8 * length) ≤ c.bitlimit → c.bitpos + b ≤ u32 (c.bitpos + b + 8 * length))
  | namedBlockEnd _, _ => True

section Operations
variable {c : IcCtx} {info : Info}

theorem asBinary_bitpos {c c' : IcCtx} (h : c'.asBinary = c.asBinary) : c'.bitpos = c.bitpos :=
  congrArg IbCtx.bitpos h

theorem asBinary_bitlimit {c c' : IcCtx} (h : c'.asBinary = c.asBinary) : c'.bitlimit = c.bitlimit :=
  congrArg IbCtx.bitlimit h

theorem asBinary_scopeStack {c c' : IcCtx} (h : c'.asBinary = c.asBinary) : c'.scopeStack = c.scopeStack :=
  congrArg IbCtx.scopeStack h

theorem asBinary_skip {c c1 : IcCtx} (h : c1.asBinary = c.asBinary) (n : Nat) (text : List UInt8) :
    IcCtx.asBinary { c1 with bitpos := c1.bitpos + n, parsePos := text } = c.asBinary.skip n := by
  rw [← h]
  rfl

theorem reached_bind_pure {σ α β : Type} (x : EStateM Halt σ α) (f : α → β) (s : σ) :
    reached ((x >>= fun a => pure (f a)) s) = reached (x s) := by
  cases h : x s with
  | ok a s' => rw [bind_ok h]; rfl
  | error e s' => rw [bind_error h]; rfl

theorem icx_uint_of_ok {w v : Nat} {c1 : IcCtx} (hr : Icx.readUint w info c = .ok v c1) :
    Icx.uint w info c = .ok (UInt32.ofNat v) { c1 with bitpos := u32 (c1.bitpos + w) } := by
  unfold Icx.uint
  rw [bind_ok hr, modify_bind]
  rfl

theorem icx_uint_of_error {w : Nat} {e : Halt} {c1 : IcCtx} (hr : Icx.readUint w info c = .error e c1) :
    Icx.uint w info c = .error e c1 := bind_error hr

theorem icx_uint_moved (hd : c.asBinary.Good) {w : Nat}
    (hw : ∀ v c', Icx.readUint w info c = .ok v c' → c.bitpos + w ≤ c.bitlimit) :
    c.asBinary.Moved (reached (Icx.uint w info c)).asBinary ∧
      ∀ v c', Icx.uint w info c = .ok v c' → c'.asBinary = c.asBinary.skip w := by
  cases hr : Icx.readUint w info c with
  | error e c1 =>
    have hs := @Stays.readUint info w c
    rw [hr] at hs
    rw [icx_uint_of_error hr]
    refine ⟨?_, fun v c' h => by cases h⟩
    show c.asBinary.Moved c1.asBinary
    rw [show c1.asBinary = c.asBinary from hs]
    exact .refl hd
  | ok v c1 =>
    have hs := (Stays.readUint w).ok hr
    have hroom := hw v c1 hr
    have hlimit : c.bitlimit ≤ 2^31 := hd.limit
    have hskip : IcCtx.asBinary { c1 with bitpos := u32 (c1.bitpos + w) } = c.asBinary.skip w := by
      rw [u32_of_lt (by rw [asBinary_bitpos hs]; omega)]
      exact asBinary_skip hs w _
    rw [icx_uint_of_ok hr]
    refine ⟨?_, fun v c' h => by cases h; exact hskip⟩
    show c.asBinary.Moved (IcCtx.asBinary { c1 with bitpos := u32 (c1.bitpos + w) })
    rw [hskip]
    exact .skip hroom

theorem iox_uint_moved (hd : c.asBinary.Good) {var : Variable} {w : Nat} {val : var.Word}
    (hw : ∀ v c', Icx.readUint w info c = .ok v c' → c.bitpos + w ≤ c.bitlimit) :
    c.asBinary.Moved (reached (Iox.uint (m := .parseText) var w val info c)).asBinary ∧
      ∀ v c', Iox.uint (m := .parseText) var w val info c = .ok v c' → c'.asBinary = c.asBinary.skip w := by
  obtain ⟨hmoved, hok⟩ := icx_uint_moved hd hw
  have hnarrow {α : Type} (f : UInt32 → α) :
      c.asBinary.Moved (reached ((Icx.uint w info >>= fun v => pure (f v)) c)).asBinary ∧
        ∀ v c', (Icx.uint w info >>= fun v => pure (f v)) c = .ok v c' → c'.asBinary = c.asBinary.skip w := by
    rw [reached_bind_pure]
    refine ⟨hmoved, fun v c' h => ?_⟩
    obtain ⟨v', c1, h1, hr⟩ := bind_eq_ok.mp h
    cases hr
    exact hok v' _ h1
  cases var with
  | uint8 => exact hnarrow _
  | uint16 => exact hnarrow _
  | uint32 => exact ⟨hmoved, hok⟩

theorem skipBytes_moved (hd : c.asBinary.Good) {len : Nat} (hlen : len < 2^28) :
    c.asBinary.Moved (reached (Icx.skipBytes len info c)).asBinary ∧
      ∀ u c', Icx.skipBytes len info c = .ok u c' → c'.asBinary = c.asBinary.skip (8 * len) := by
  have hpos : c.bitpos ≤ c.bitlimit := hd.pos
  have hlimit : c.bitlimit ≤ 2^31 := hd.limit
  unfold Icx.skipBytes
  rw [u32_of_lt (by omega)]
  split
  · exact ⟨.refl hd, fun u c' h => by cases h⟩
  · next hroom =>
    rw [Nat.mul_comm len 8]
    refine ⟨.skip (show c.bitpos + 8 * len ≤ c.bitlimit by omega), fun u c' h => ?_⟩
    cases h
    rfl

theorem string_moved (hd : c.asBinary.Good) (size : List UInt8 → Nat) (hsize : ∀ str, size str < 2^28) :
    c.asBinary.Moved (reached ((do
      let str ← Icx.parseString info
      Icx.skipBytes (size str) info
      return str) c)).asBinary ∧
    ∀ str c', (do
      let str ← Icx.parseString info
      Icx.skipBytes (size str) info
      return str) c = .ok str c' → ∃ c1, Icx.parseString info c = .ok str c1 ∧
        c'.asBinary = c.asBinary.skip (8 * size str) := by
  cases hr : Icx.parseString info c with
  | error e c1 =>
    have hs := @Stays.parseString info c
    rw [hr] at hs
    rw [bind_error hr]
    refine ⟨?_, fun v c' h => by cases h⟩
    show c.asBinary.Moved c1.asBinary
    rw [show c1.asBinary = c.asBinary from hs]
    exact .refl hd
  | ok str c1 =>
    have hs := Stays.parseString.ok hr
    obtain ⟨hmoved, hok⟩ := skipBytes_moved (c := c1) (by rw [hs]; exact hd) (hsize str)
    rw [hs] at hmoved hok
    rw [bind_ok hr, reached_bind_pure]
    refine ⟨hmoved, fun str' c' h => ?_⟩
    obtain ⟨u, c2, h2, hr'⟩ := bind_eq_ok.mp h
    cases hr'
    exact ⟨c1, rfl, hok u _ h2⟩

theorem icx_blockBegin_cases (length : Nat) :
    (reached (Icx.blockBegin length info c)).asBinary = c.asBinary ∧
        (∀ u c', Icx.blockBegin length info c ≠ .ok u c') ∨
      c.bitpos % 8 = 0 ∧ u32 (c.bitpos + 8 * length) ≤ c.bitlimit ∧
        ∃ text, Icx.blockBegin length info c = .ok () { c with
          bitlimit := u32 (c.bitpos + 8 * length)
          scopeStack := ⟨info, c.bitpos, c.bitlimit⟩ :: c.scopeStack
          parsePos := text } := by
  have hsum : u32 (c.bitpos + u32 (length * 8)) = u32 (c.bitpos + 8 * length) := by
    unfold u32
    omega
  unfold Icx.blockBegin
  rw [get_bind, hsum]
  split
  · exact .inl ⟨rfl, fun u c' h => by cases h⟩
  · next hal =>
    split
    · exact .inl ⟨rfl, fun u c' h => by cases h⟩
    · next hfit =>
      cases he : Icx.enterScope c with
      | error e c1 =>
        have hs := Stays.enterScope c
        rw [he] at hs
        rw [bind_error he]
        exact .inl ⟨hs, fun u c' h => by cases h⟩
      | ok u c1 =>
        have hs := Stays.enterScope.ok he
        refine .inr ⟨not_not.mp hal, not_lt.mp hfit, c1.parsePos, ?_⟩
        rw [bind_ok he]
        obtain ⟨pos, limit, stack, text⟩ := c1
        obtain ⟨rfl, rfl, rfl⟩ : pos = c.bitpos ∧ limit = c.bitlimit ∧ stack = c.scopeStack :=
          ⟨asBinary_bitpos hs, asBinary_bitlimit hs, asBinary_scopeStack hs⟩
        show EStateM.Result.ok _ _ = _
        dsimp only
        rw [hsum]

theorem icx_namedBlockBegin_step (hd : c.asBinary.Good) {b : Nat}
    (hb : ∀ length c', Icx.readUint b info c = .ok length c' → c.bitpos + b ≤ c.bitlimit ∧
      (u32 (c.bitpos + b + 8 * length) ≤ c.bitlimit → c.bitpos + b ≤ u32 (c.bitpos + b + 8 * length))) :
    c.asBinary.Step (reached (Icx.namedBlockBegin b info c)).asBinary ∧
      ∀ u c', Icx.namedBlockBegin b info c = .ok u c' → c'.bitpos = c.bitpos + b ∧
        c'.scopeStack = ⟨info, c.bitpos + b, c.bitlimit⟩ :: c.scopeStack ∧
        ∃ length c1, Icx.readUint b info c = .ok length c1 ∧ c'.bitlimit ≤ c.bitpos + b + 8 * length := by
  obtain ⟨hmoved, hok⟩ := icx_uint_moved hd fun v c' h => (hb v c' h).1
  unfold Icx.namedBlockBegin
  cases hr : Icx.readUint b info c with
  | error e c1 =>
    rw [icx_uint_of_error hr] at hmoved
    rw [bind_error (icx_uint_of_error hr)]
    exact ⟨.moved hmoved, fun u c' h => by cases h⟩
  | ok length c1 =>
    have hskip := hok _ _ (icx_uint_of_ok hr)
    obtain ⟨hroom, hinner⟩ := hb length c1 hr
    rw [bind_ok (icx_uint_of_ok hr)]
    generalize IcCtx.mk (u32 (c1.bitpos + b)) c1.bitlimit c1.scopeStack c1.parsePos = c2 at hskip ⊢
    have hpos2 : c2.bitpos = c.bitpos + b := congrArg IbCtx.bitpos hskip
    have hlimit2 : c2.bitlimit = c.bitlimit := congrArg IbCtx.bitlimit hskip
    have hstack2 : c2.scopeStack = c.scopeStack := congrArg IbCtx.scopeStack hskip
    have hlen : u32 (c2.bitpos + 8 * (UInt32.ofNat length).toNat) = u32 (c.bitpos + b + 8 * length) := by
      rw [hpos2, UInt32.toNat_ofNat']
      unfold u32
      omega
    rcases icx_blockBegin_cases (c := c2) (UInt32.ofNat length).toNat with
      ⟨hstays, hfails⟩ | ⟨hal, hfit, text, hrun⟩
    · rw [hskip] at hstays
      refine ⟨.moved ?_, fun u c' h => absurd h (hfails u c')⟩
      rw [hstays]
      exact .skip hroom
    · rw [hlen, hlimit2] at hfit
      have hpos := hinner hfit
      rw [hrun, hlen]
      have hentered : IcCtx.asBinary ⟨c2.bitpos, u32 (c.bitpos + b + 8 * length),
          ⟨info, c2.bitpos, c2.bitlimit⟩ :: c2.scopeStack, text⟩ =
          ⟨c.bitpos + b, u32 (c.bitpos + b + 8 * length), fun _ => 0,
            ⟨info, c.bitpos + b, c.bitlimit⟩ :: c.scopeStack⟩ := by
        rw [hpos2, hlimit2, hstack2]
        rfl
      refine ⟨.entered info ?_ ?_ ?_ ?_ ?_, fun u c' h => ?_⟩
      · show ⟨info, c2.bitpos, c2.bitlimit⟩ :: c2.scopeStack = ⟨info, c2.bitpos, c.bitlimit⟩ :: c.scopeStack
        rw [hlimit2, hstack2]
      · exact hal
      · exact hpos2.ge.trans' (Nat.le_add_right _ _)
      · exact hpos2.trans_le hpos
      · exact hfit
      · cases h
        refine ⟨hpos2, congrArg IbCtx.scopeStack hentered, length, c1, rfl, ?_⟩
        exact Nat.mod_le _ _

theorem icx_blockEnd_step (hd : c.asBinary.Good) :
    c.asBinary.Step (reached (Icx.blockEnd info c)).asBinary ∧
      ∀ n c', Icx.blockEnd info c = .ok n c' → c'.bitpos = c.bitpos ∧ ∃ s, c.scopeStack = s :: c'.scopeStack ∧
        8 * n = sub32 c.bitpos s.bitposAtEnter := by
  unfold Icx.blockEnd
  rw [get_bind]
  cases hs : c.scopeStack with
  | nil => exact ⟨.moved (.refl hd), fun n c' h => by cases h⟩
  | cons s outer =>
    dsimp only
    cases he : Icx.leaveScope c with
    | error e c1 =>
      have hstays := Stays.leaveScope c
      rw [he] at hstays
      rw [bind_error he]
      refine ⟨.moved ?_, fun n c' h => by cases h⟩
      show c.asBinary.Moved c1.asBinary
      rw [show c1.asBinary = c.asBinary from hstays]
      exact .refl hd
    | ok u c1 =>
      have hstays := Stays.leaveScope.ok he
      have hpos := asBinary_bitpos hstays
      rw [bind_ok he, get_bind]
      split
      · refine ⟨.moved ?_, fun n c' h => by cases h⟩
        show c.asBinary.Moved c1.asBinary
        rw [hstays]
        exact .refl hd
      · next hbytes =>
        refine ⟨.left s hs rfl hpos, fun n c' h => ?_⟩
        cases h
        rw [hpos] at hbytes ⊢
        exact ⟨rfl, s, rfl, by omega⟩

end Operations

namespace Operation

/-- Within the limit an operation does to the blocks what it does in binary parsing, and
the position moves by the bits that were read. -/
theorem step_text {op : Operation} {c : IcCtx} (hd : c.asBinary.Good) (hc : op.WithinLimit c) :
    c.asBinary.Step (IcCtx.asBinary (reached (op.exec (m := .parseText) c))) ∧
      ∀ u c', op.exec (m := .parseText) c = .ok u c' → c'.bitpos = c.bitpos + op.bits c := by
  cases op with
  | uint var w val info =>
    obtain ⟨hmoved, hok⟩ := iox_uint_moved hd hc
    refine ⟨.moved ?_, fun u c' h => ?_⟩
    · rw [← reached_bind_pure _ fun _ => ()] at hmoved
      exact hmoved
    · obtain ⟨v, c1, h1, hr⟩ := bind_eq_ok.mp h
      cases hr
      exact congrArg IbCtx.bitpos (hok v _ h1)
  | uintReq var w val info =>
    obtain ⟨hmoved, hok⟩ := iox_uint_moved hd hc
    refine ⟨.moved ?_, fun u c' h => ?_⟩
    · refine reached_bind (P := fun c' => c.asBinary.Moved (IcCtx.asBinary c')) hmoved fun v c' _ h => ?_
      split
      · exact h
      · exact h
    · obtain ⟨v, c1, h1, hr⟩ := bind_eq_ok.mp h
      split at hr
      · cases hr
      · cases hr
        exact congrArg IbCtx.bitpos (hok v _ h1)
  | shortString str info =>
    obtain ⟨hmoved, hok⟩ := string_moved hd (fun str => (1 + str.length) % 256) fun str => by omega
    refine ⟨.moved ?_, fun u c' h => ?_⟩
    · rw [← reached_bind_pure _ fun _ => ()] at hmoved
      exact hmoved
    · obtain ⟨str', c1, h1, hr⟩ := bind_eq_ok.mp h
      cases hr
      obtain ⟨c2, hparse, hskip⟩ := hok str' _ h1
      have hlen : 1 + str'.length ≤ 255 := hc str' c2 hparse
      show c'.bitpos = c.bitpos + match Icx.parseString info c with
        | .ok str _ => 8 * (1 + str.length)
        | .error .. => 0
      rw [hparse, show c'.bitpos = c.bitpos + 8 * ((1 + str'.length) % 256) from congrArg IbCtx.bitpos hskip,
        Nat.mod_eq_of_lt (by omega)]
  | fixedString n str info =>
    obtain ⟨hmoved, hok⟩ := string_moved hd (fun str => str.length % 256) fun str => by omega
    refine ⟨.moved ?_, fun u c' h => ?_⟩
    · rw [← reached_bind_pure _ fun _ => ()] at hmoved
      exact hmoved
    · obtain ⟨str', c1, h1, hr⟩ := bind_eq_ok.mp h
      cases hr
      obtain ⟨c2, hparse, hskip⟩ := hok str' _ h1
      have hlen : str'.length ≤ 255 := hc str' c2 hparse
      show c'.bitpos = c.bitpos + match Icx.parseString info c with
        | .ok str _ => 8 * str.length
        | .error .. => 0
      rw [hparse, show c'.bitpos = c.bitpos + 8 * (str'.length % 256) from congrArg IbCtx.bitpos hskip,
        Nat.mod_eq_of_lt (by omega)]
  | namedBlockBegin b info =>
    obtain ⟨hstep, hok⟩ := icx_namedBlockBegin_step hd hc
    exact ⟨hstep, fun u c' h => (hok u c' h).1⟩
  | namedBlockEnd info =>
    obtain ⟨hstep, hok⟩ := icx_blockEnd_step hd
    refine ⟨?_, fun u c' h => ?_⟩
    · rw [← reached_bind_pure _ fun _ => ()] at hstep
      exact hstep
    · obtain ⟨n, c1, h1, hr⟩ := bind_eq_ok.mp h
      cases hr
      exact (hok n _ h1).1

end Operation

end Mopa.Io
