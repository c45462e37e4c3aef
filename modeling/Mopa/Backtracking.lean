import Mopa.BlockConstruction
import Mopa.FieldAccess
import Mopa.IoxHandles

/-! Binary construction that starts over. A copy of an `iox` keeps position, limit and blocks,
but the buffer is the caller's, and what was written meanwhile stays there. It does no harm:
construction never looks at the buffer, it writes nothing in front of the copied position but
lengths of open blocks, and what it leaves behind is written over. -/
namespace Mopa.Io
open Bits Outcome

def ObCtx.on (c : ObCtx) (data : Memory UInt8) : ObCtx := { c with data := data }

inductive Effect where
  | writes (bits : List Bool)
  | opens (b limit : Nat) (info : Info)
  | closes (n : Nat)
  | fails (e : Halt) (d : ObCtx)     -- the buffer of `d` has no part in it

namespace Effect

def result (c : ObCtx) : Effect → EStateM.Result Halt ObCtx Unit
  | writes bits => .ok () (c.emit bits)
  | opens b limit info => .ok () { c with
      bitpos := c.bitpos + b
      bitlimit := limit
      scopeStack := ⟨info, c.bitpos + b, c.bitlimit, c.bitpos⟩ :: c.scopeStack }
  | closes n =>
    match c.scopeStack with
    | [] => .error .undefined c
    | s :: outer => .ok () { c with
        bitlimit := s.bitlimitAtEnter
        scopeStack := outer
        data := toMemory ((ofMemory c.data).write s.positionForWrite (ofNat (s.bitposAtEnter - s.positionForWrite) n)) }
  | fails e d => .error e (d.on c.data)

def Valid (c : ObCtx) : Effect → Prop
  | writes bits => c.bitpos + bits.length ≤ c.bitlimit
  | opens b limit _ => 1 ≤ b ∧ b ≤ 16 ∧ limit ≤ c.bitlimit ∧
      (c.bitpos + b ≤ c.bitlimit → c.bitpos + b ≤ limit ∧ limit ≤ c.bitpos + b + 8 * (2^b - 1))
  | closes _ => ∃ s outer, c.scopeStack = s :: outer ∧ s.bitposAtEnter ≤ s.bitlimitAtEnter
  | fails .. => True

end Effect

/-- From this place the program has one effect, whatever the buffer holds. -/
def Blind (x : Obx Unit) (c : ObCtx) : Prop := ∃ eff : Effect, eff.Valid c ∧ ∀ data, x (c.on data) = eff.result (c.on data)

/-- The open blocks from the inside out, around a body that has come to `pos` and may go to
`limit`. A block that was entered beyond the limit promises nothing: it cannot be closed. -/
def Opened : Nat → Nat → List OScope → Prop
  | pos, limit, [] => pos ≤ limit
  | pos, limit, s :: outer =>
    s.positionForWrite + 1 ≤ s.bitposAtEnter ∧ s.bitposAtEnter ≤ s.positionForWrite + 16 ∧ s.bitposAtEnter ≤ pos ∧
    limit ≤ s.bitlimitAtEnter ∧
    (s.bitposAtEnter ≤ s.bitlimitAtEnter →
      pos ≤ limit ∧ limit ≤ s.bitposAtEnter + 8 * (2^(s.bitposAtEnter - s.positionForWrite) - 1)) ∧
    Opened s.positionForWrite s.bitlimitAtEnter outer

def Reserved (scopes : List OScope) (i : Nat) : Prop := ∃ s ∈ scopes, s.positionForWrite ≤ i ∧ i < s.bitposAtEnter

namespace ObCtx

/-- The bit has been written for good: only lengths of open blocks are still to come. -/
def Written (c : ObCtx) (i : Nat) : Prop := i < c.bitpos ∧ ¬ Reserved c.scopeStack i

/-- Behind at most `k` operations: no position wraps, and the lengths of the open blocks fit. -/
structure Steady (k : Nat) (c : ObCtx) : Prop where
  pos : c.bitpos ≤ 2^30 + 16 * k
  limit : c.bitlimit ≤ 2^30
  outer : ∀ s ∈ c.scopeStack, s.bitlimitAtEnter ≤ 2^30
  opened : Opened c.bitpos c.bitlimit c.scopeStack

theorem Steady.create (data : Memory UInt8) {size : Nat} (hsize : size ≤ 2^27) : (ObCtx.create data size).Steady 0 where
  pos := Nat.zero_le _
  limit := by
    show u32 (size * 8) ≤ 2^30
    rw [u32_of_lt (by omega)]
    omega
  outer := nofun
  opened := Nat.zero_le _

theorem Steady.on {k : Nat} {c : ObCtx} (h : c.Steady k) (data : Memory UInt8) : (c.on data).Steady k :=
  ⟨h.pos, h.limit, h.outer, h.opened⟩

end ObCtx

section Operations
variable {c : ObCtx} {k : Nat} {info : Info}

theorem uint_blind (hc : c.Steady k) (hk : k ≤ 2^25) (var : Variable) {w : Nat} {val : var.Word} (hw : 1 ≤ w)
    (hw' : w ≤ var.width) (hv : Variable.toNat val < 2^w) :
    Blind (Iox.uint (m := .constructBinary) var w val info >>= fun _ => pure ()) c := by
  have hpos := hc.pos
  have hw32 : w ≤ 32 := hw'.trans (by cases var <;> decide)
  by_cases hlimit : c.bitlimit < u32 (c.bitpos + w)
  · refine ⟨.fails (.exception info "left %d bits, needed %d") c, trivial, fun data => bind_error ?_⟩
    cases var with
    | uint8 => exact bind_error (show Obx.uint8 w val info (c.on data) = _ from if_pos hlimit)
    | uint16 => exact bind_error (show Obx.uint16 w val info (c.on data) = _ from if_pos hlimit)
    | uint32 => exact bind_error (show Obx.uint32 w val info (c.on data) = _ from if_pos hlimit)
  · by_cases hspan : SpansFiveBytes var w c.bitpos
    · obtain ⟨rfl, hspan⟩ := hspan
      refine ⟨.fails (.exception info "value spans over 5 bytes") c, trivial, fun data => bind_error (bind_error ?_)⟩
      show Obx.uint32 w val info (c.on data) = _
      exact (if_neg hlimit).trans (if_neg (Nat.not_le.mpr hspan))
    · rw [u32_of_lt (by omega)] at hlimit
      have hrefused (data : Memory UInt8) : ¬ Refused var w (c.on data).bitpos (c.on data).bitlimit := fun h => by
        rcases h with h | h
        · have h : c.bitlimit < u32 (c.bitpos + w) := h
          rw [u32_of_lt (by omega)] at h
          exact hlimit h
        · exact hspan h
      refine ⟨.writes (ofNat w (Variable.toNat val)), ?_, fun data => ?_⟩
      · show c.bitpos + (ofNat w (Variable.toNat val)).length ≤ c.bitlimit
        rw [length_ofNat]
        omega
      · obtain ⟨c', hrun, hdata, hp⟩ : ∃ c', Iox.uint (m := .constructBinary) var w val info (c.on data) = .ok val c' ∧
            ofMemory c'.data = (ofMemory data).write c.bitpos (ofNat w (Variable.toNat val)) ∧
            c'.bitpos = u32 (c.bitpos + w) := iox_uint_fits var val hw hw' (hrefused data) hv
        obtain ⟨hstack, hl, -⟩ := obx_uint_frame hrun
        rw [u32_of_lt (show c.bitpos + w < 2^32 by omega)] at hp
        rw [ObCtx.eq_emit (by rw [length_ofNat]; exact hp) hl hstack hdata] at hrun
        exact bind_ok hrun

theorem shortString_blind (hc : c.Steady k) (hk : k ≤ 2^25) {str : List UInt8} (hlen : str.length < 2^28) :
    Blind (Iox.shortStringIo (m := .constructBinary) str info >>= fun _ => pure ()) c := by
  have hpos := hc.pos
  have happly (data : Memory UInt8) := obx_shortString_apply str info (c.on data)
  rw [u32_of_lt (n := str.length) (by omega)] at happly
  by_cases hal : c.bitpos % 8 ≠ 0
  · exact ⟨.fails _ c, trivial, fun data => bind_error ((happly data).trans (if_pos hal))⟩
  by_cases hshort : str.length > 255
  · exact ⟨.fails _ c, trivial, fun data => bind_error ((happly data).trans ((if_neg hal).trans (if_pos hshort)))⟩
  by_cases hroom : c.bitpos + (str.length + 1) * 8 > c.bitlimit
  · refine ⟨.fails (.exception info "String '%s' requires %d bytes length, only %d bytes available") c, trivial, fun data =>
      bind_error ((happly data).trans ((if_neg hal).trans ((if_neg hshort).trans (if_pos ?_))))⟩
    show u32 (c.bitpos + u32 ((str.length + 1) * 8)) > c.bitlimit
    rwa [u32_of_lt (n := (str.length + 1) * 8) (by omega), u32_of_lt (by omega)]
  have he : encodeShortString str c.bitpos = some (str, ofNat 8 str.length ++ ofBytes str) :=
    encodeShortString_eq_some.mpr ⟨rfl, ⟨by omega, by omega⟩, rfl⟩
  have hfit : c.bitpos + (ofNat 8 str.length ++ ofBytes str).length ≤ c.bitlimit := by
    rw [List.length_append, length_ofNat, length_ofBytes]
    omega
  exact ⟨.writes _, hfit, fun data => bind_ok
    ((writes_shortString str info hlen (by decide)).ok (c := c.on data) ⟨(Nat.le_add_right _ _).trans hfit, hc.limit⟩ he hfit)⟩

theorem fixedString_blind (hc : c.Steady k) (hk : k ≤ 2^25) (numChars : Nat) {str : List UInt8} (hlen : str.length < 2^28) :
    Blind (Iox.fixedStringIo (m := .constructBinary) numChars str info >>= fun _ => pure ()) c := by
  have hpos := hc.pos
  have happly (data : Memory UInt8) := obx_fixedString_apply numChars str info (c.on data)
  rw [u32_of_lt (n := str.length) (by omega)] at happly
  by_cases hal : c.bitpos % 8 ≠ 0
  · exact ⟨.fails _ c, trivial, fun data => bind_error ((happly data).trans (if_pos hal))⟩
  by_cases hnum : str.length ≠ numChars
  · exact ⟨.fails _ c, trivial, fun data => bind_error ((happly data).trans ((if_neg hal).trans (if_pos hnum)))⟩
  by_cases hroom : c.bitpos + str.length * 8 > c.bitlimit
  · refine ⟨.fails (.exception info "String '%s' requires %d bytes length, only %d bytes available") c, trivial, fun data =>
      bind_error ((happly data).trans ((if_neg hal).trans ((if_neg hnum).trans (if_pos ?_))))⟩
    show u32 (c.bitpos + u32 (str.length * 8)) > c.bitlimit
    rwa [u32_of_lt (n := str.length * 8) (by omega), u32_of_lt (by omega)]
  have he : encodeFixedString numChars str c.bitpos = some (str, ofBytes str) :=
    encodeFixedString_eq_some.mpr ⟨rfl, ⟨by omega, by omega⟩, rfl⟩
  have hfit : c.bitpos + (ofBytes str).length ≤ c.bitlimit := by
    rw [length_ofBytes]
    omega
  exact ⟨.writes _, hfit, fun data => bind_ok
    ((writes_fixedString numChars str info hlen fun _ => by omega).ok (c := c.on data) ⟨(Nat.le_add_right _ _).trans hfit, hc.limit⟩ he hfit)⟩

theorem namedBlockBegin_blind (hc : c.Steady k) (hk : k ≤ 2^25) {b : Nat} (hb : 1 ≤ b ∧ b ≤ 16) :
    Blind (Obx.namedBlockBegin b info) c := by
  have hpos := hc.pos
  have hword : u32 (c.bitpos + b) = c.bitpos + b := u32_of_lt (by omega)
  have happly (data : Memory UInt8) : Obx.namedBlockBegin b info (c.on data) = _ := obx_namedBlockBegin_apply b info (c.on data)
  unfold ObCtx.on at happly
  simp only [hword] at happly
  by_cases hal : (c.bitpos + b) % 8 ≠ 0
  · exact ⟨.fails (.exception info "starting bit not byte-aligned") { c with bitpos := c.bitpos + b }, trivial,
      fun data => (happly data).trans (if_pos hal)⟩
  · have hrun := (happly c.data).trans (if_neg hal)
    obtain ⟨-, limit, heq, hle, hin⟩ := obx_namedBlockBegin_ok hb.2 hc.limit hrun
    rw [hword] at hin
    refine ⟨.opens b limit info, ⟨hb.1, hb.2, hle, hin⟩, fun data => (happly data).trans ((if_neg hal).trans ?_)⟩
    obtain ⟨-, hlimit, -⟩ := ObCtx.mk.inj heq
    rw [hlimit]
    rfl

theorem namedBlockEnd_blind (hc : c.Steady k) (hk : k ≤ 2^25) :
    Blind (Obx.namedBlockEnd info >>= fun _ => pure ()) c := by
  have hpos := hc.pos
  cases hs : c.scopeStack with
  | nil => exact ⟨.fails .undefined c, trivial, fun data => bind_error (obx_namedBlockEnd_nil hs)⟩
  | cons s outer =>
    have hopened := hc.opened
    rw [hs] at hopened
    obtain ⟨hlo, hhi, henter, hl, hfits, -⟩ := hopened
    have hlimit := hc.outer s (hs ▸ List.mem_cons_self)
    have happly (data : Memory UInt8) : Obx.namedBlockEnd info (c.on data) = _ :=
      obx_namedBlockEnd_apply info (c.on data) s outer hs
    have hlength : sub32 c.bitpos s.bitposAtEnter = c.bitpos - s.bitposAtEnter := sub32_of_le henter (by omega)
    have hwidth : sub32 s.bitposAtEnter s.positionForWrite = s.bitposAtEnter - s.positionForWrite :=
      sub32_of_le (by omega) (by omega)
    unfold ObCtx.on at happly
    simp only [hlength, hwidth] at happly
    by_cases hal : (c.bitpos - s.bitposAtEnter) % 8 ≠ 0
    · exact ⟨.fails (.exception info "block length not byte-aligned") c, trivial,
        fun data => bind_error ((happly data).trans (if_pos hal))⟩
    by_cases hover : s.bitlimitAtEnter < s.bitposAtEnter
    · refine ⟨.fails (.exception info "left %d bits, needed %d")
        { c with bitpos := s.positionForWrite, bitlimit := s.bitlimitAtEnter, scopeStack := outer }, trivial,
        fun data => bind_error ((happly data).trans ((if_neg hal).trans (bind_error (if_pos ?_))))⟩
      show u32 (s.positionForWrite + (s.bitposAtEnter - s.positionForWrite)) > s.bitlimitAtEnter
      rwa [Nat.add_sub_cancel' (by omega), u32_of_lt (by omega)]
    · obtain ⟨hin, hmax⟩ := hfits (by omega)
      have hpow : 2^(s.bitposAtEnter - s.positionForWrite) ≤ 2^16 := Nat.pow_le_pow_right (by decide) (by omega)
      have hone := Nat.two_pow_pos (s.bitposAtEnter - s.positionForWrite)
      have hval : (UInt32.ofNat ((c.bitpos - s.bitposAtEnter) / 8)).toNat = (c.bitpos - s.bitposAtEnter) / 8 := by
        rw [UInt32.toNat_ofNat', Nat.mod_eq_of_lt (by omega)]
      refine ⟨.closes ((c.bitpos - s.bitposAtEnter) / 8), ⟨s, outer, hs, by omega⟩, fun data => ?_⟩
      have hfield : (UInt32.ofNat ((c.bitpos - s.bitposAtEnter) / 8)).toNat < 2^(s.bitposAtEnter - s.positionForWrite) := by
        rw [hval]
        omega
      have hwrite := obx_uint32_ok info (show 1 ≤ s.bitposAtEnter - s.positionForWrite by omega) hfield
        (c := ⟨s.positionForWrite, s.bitlimitAtEnter, data, outer⟩)
        (show s.positionForWrite + _ ≤ s.bitlimitAtEnter by omega) (show s.bitlimitAtEnter < 2^32 by omega)
        (show s.positionForWrite % 8 + _ ≤ 32 by omega)
      rw [hval] at hwrite
      refine (bind_ok ((happly data).trans ((if_neg hal).trans ((bind_ok hwrite).trans rfl)))).trans ?_
      show _ = Effect.result (c.on data) (.closes _)
      unfold Effect.result
      rw [show (c.on data).scopeStack = s :: outer from hs]
      rfl

theorem exec_blind {op : Operation} (hop : op.Constructs) (hc : c.Steady k) (hk : k ≤ 2^25) :
    Blind (op.exec (m := .constructBinary)) c := by
  cases op with
  | uint var w val info => exact uint_blind hc hk var hop.1 hop.2.1 hop.2.2
  | uintReq var w val info =>
    have hblind : Blind (Iox.uint (m := .constructBinary) var w val info >>= fun _ => pure ()) c :=
      uint_blind hc hk var hop.1 hop.2.1 hop.2.2
    obtain ⟨eff, hvalid, heff⟩ := hblind
    refine ⟨eff, hvalid, fun data => (Eq.trans ?_ (heff data))⟩
    show (Iox.uint (m := .constructBinary) var w val info >>= fun a => _) _ = _
    refine congrFun (congrArg _ (funext fun a => ?_)) _
    exact if_neg fun h => by cases h.1
  | shortString str info => exact shortString_blind hc hk hop
  | fixedString n str info => exact fixedString_blind hc hk n hop
  | namedBlockBegin b info => exact namedBlockBegin_blind hc hk hop
  | namedBlockEnd info => exact namedBlockEnd_blind hc hk

end Operations

section Effects
variable {c d : ObCtx} {k : Nat} {eff : Effect}

theorem Effect.steady (hc : c.Steady k) (hk : k ≤ 2^25) (hvalid : eff.Valid c) (h : eff.result c = .ok () d) :
    d.Steady (k+1) := by
  have hpos := hc.pos
  have hlimit := hc.limit
  cases eff with
  | writes bits =>
    cases h
    have hfit : c.bitpos + bits.length ≤ c.bitlimit := hvalid
    refine ⟨show c.bitpos + bits.length ≤ _ by omega, hlimit, hc.outer, ?_⟩
    have hopened := hc.opened
    show Opened (c.bitpos + bits.length) c.bitlimit c.scopeStack
    cases hs : c.scopeStack with
    | nil => exact hfit
    | cons s outer =>
      rw [hs] at hopened
      obtain ⟨hlo, hhi, henter, hl, hfits, houter⟩ := hopened
      exact ⟨hlo, hhi, by omega, hl, fun hin => ⟨hfit, (hfits hin).2⟩, houter⟩
  | opens b limit info =>
    cases h
    obtain ⟨h1, h16, hle, hin⟩ := hvalid
    refine ⟨show c.bitpos + b ≤ _ by omega, hle.trans hlimit, List.forall_mem_cons.mpr ⟨hlimit, hc.outer⟩, ?_⟩
    refine ⟨Nat.add_le_add_left h1 _, Nat.add_le_add_left h16 _, le_rfl, hle, fun h => ?_, hc.opened⟩
    obtain ⟨hl, hu⟩ := hin h
    refine ⟨hl, ?_⟩
    show limit ≤ c.bitpos + b + 8 * (2^(c.bitpos + b - c.bitpos) - 1)
    rwa [Nat.add_sub_cancel_left]
  | closes n =>
    obtain ⟨s, outer, hs, hin⟩ := hvalid
    have hopened := hc.opened
    have hlimits := hc.outer
    unfold Effect.result at h
    rw [hs] at h hopened hlimits
    cases h
    obtain ⟨hlo, hhi, henter, hl, hfits, houter⟩ := hopened
    obtain ⟨hs30, houter30⟩ := List.forall_mem_cons.mp hlimits
    have hpos' := (hfits hin).1
    refine ⟨show c.bitpos ≤ _ by omega, hs30, houter30, ?_⟩
    show Opened c.bitpos s.bitlimitAtEnter outer
    -- the position has gone on since the inner block was entered
    cases outer with
    | nil => exact hpos'.trans hl
    | cons t outer =>
      obtain ⟨hlo', hhi', henter', hl', hfits', houter'⟩ := houter
      exact ⟨hlo', hhi', by omega, hl', fun h => ⟨hpos'.trans hl, (hfits' h).2⟩, houter'⟩
  | fails e d => cases h

theorem Effect.frame (hc : c.Steady k) (hvalid : eff.Valid c) {i : Nat} (hi : c.Written i) :
    ofMemory (reached (eff.result c)).data i = ofMemory c.data i := by
  cases eff with
  | writes bits =>
    show ofMemory (c.emit bits).data i = _
    rw [ObCtx.emit_data, Memory.write_outside _ _ _ _ (.inl hi.1)]
  | opens b limit info => rfl
  | closes n =>
    obtain ⟨s, outer, hs, -⟩ := hvalid
    have hopened := hc.opened
    rw [hs] at hopened
    have houtside : i < s.positionForWrite ∨ s.bitposAtEnter ≤ i := by
      by_contra h
      exact hi.2 ⟨s, hs ▸ List.mem_cons_self, by omega, by omega⟩
    unfold Effect.result
    rw [hs]
    show ofMemory (toMemory _) i = _
    have hlo := hopened.1
    rw [ofMemory_toMemory, Memory.write_outside _ _ _ _ (by rw [length_ofNat]; omega)]
  | fails e d => rfl

theorem Effect.keeps_written (hvalid : eff.Valid c) (h : eff.result c = .ok () d) {i : Nat}
    (hi : c.Written i) : d.Written i := by
  cases eff with
  | writes bits =>
    cases h
    exact ⟨hi.1.trans_le (Nat.le_add_right _ _), hi.2⟩
  | opens b limit info =>
    cases h
    refine ⟨hi.1.trans_le (Nat.le_add_right _ _), fun hr => ?_⟩
    obtain ⟨s, hs, hin⟩ := hr
    rcases List.mem_cons.mp hs with rfl | hs
    · exact Nat.not_lt.mpr hin.1 hi.1
    · exact hi.2 ⟨s, hs, hin⟩
  | closes n =>
    obtain ⟨s, outer, hs, -⟩ := hvalid
    unfold Effect.result at h
    rw [hs] at h
    cases h
    refine ⟨hi.1, fun hr => ?_⟩
    obtain ⟨t, ht, hin⟩ := hr
    exact hi.2 ⟨t, hs ▸ List.mem_cons_of_mem _ ht, hin⟩
  | fails e d => cases h

theorem Effect.agree (hc : c.Steady k) (hvalid : eff.Valid c) {data data' : Memory UInt8}
    (hagree : ∀ i, c.Written i → ofMemory data' i = ofMemory data i) (h : eff.result (c.on data) = .ok () d) :
    ∃ data'', eff.result (c.on data') = .ok () (d.on data'') ∧
      ∀ i, d.Written i → ofMemory data'' i = ofMemory d.data i := by
  cases eff with
  | writes bits =>
    cases h
    refine ⟨_, rfl, fun i hi => ?_⟩
    rw [ObCtx.emit_data, ofMemory_toMemory]
    show (ofMemory data').write c.bitpos bits i = (ofMemory data).write c.bitpos bits i
    by_cases hin : i < c.bitpos
    · rw [Memory.write_outside _ _ _ _ (.inl hin), Memory.write_outside _ _ _ _ (.inl hin)]
      exact hagree i ⟨hin, hi.2⟩
    · exact Memory.write_inside _ _ _ _ _ (Nat.le_of_not_lt hin) hi.1
  | opens b limit info =>
    cases h
    refine ⟨data', rfl, fun i hi => hagree i ⟨?_, fun hr => hi.2 ?_⟩⟩
    · by_contra hge
      exact hi.2 ⟨_, List.mem_cons_self, Nat.le_of_not_lt hge, hi.1⟩
    · obtain ⟨s, hs, hin⟩ := hr
      exact ⟨s, List.mem_cons_of_mem _ hs, hin⟩
  | closes n =>
    obtain ⟨s, outer, hs, -⟩ := hvalid
    have hopened := hc.opened
    rw [hs] at hopened
    have hlo := hopened.1
    unfold Effect.result at h ⊢
    rw [show (c.on data).scopeStack = s :: outer from hs] at h
    rw [show (c.on data').scopeStack = s :: outer from hs]
    cases h
    refine ⟨_, rfl, fun i hi => ?_⟩
    rw [ofMemory_toMemory, ofMemory_toMemory]
    by_cases hin : s.positionForWrite ≤ i ∧ i < s.bitposAtEnter
    · exact Memory.write_inside _ _ _ _ _ hin.1 (by rw [length_ofNat]; omega)
    · have houtside : i < s.positionForWrite ∨ s.positionForWrite + (s.bitposAtEnter - s.positionForWrite) ≤ i := by omega
      rw [Memory.write_outside _ _ _ _ (by rwa [length_ofNat]), Memory.write_outside _ _ _ _ (by rwa [length_ofNat])]
      refine hagree i ⟨hi.1, fun hr => ?_⟩
      obtain ⟨t, ht, hint⟩ := hr
      rcases List.mem_cons.mp (hs ▸ ht) with rfl | ht
      · exact hin hint
      · exact hi.2 ⟨t, ht, hint⟩
  | fails e d => cases h

theorem Effect.agree_error (hvalid : eff.Valid c) {data : Memory UInt8} {e : Halt} (h : eff.result (c.on data) = .error e d)
    (data' : Memory UInt8) : eff.result (c.on data') = .error e (d.on data') := by
  cases eff with
  | writes bits => cases h
  | opens b limit info => cases h
  | closes n =>
    obtain ⟨s, outer, hs, -⟩ := hvalid
    unfold Effect.result at h
    rw [show (c.on data).scopeStack = s :: outer from hs] at h
    cases h
  | fails e d =>
    cases h
    rfl

end Effects

namespace Operation
variable {c : ObCtx} {k : Nat} {ops : List Operation}

theorem execAll_frame (hops : ∀ op ∈ ops, op.Constructs) (hc : c.Steady k) (hk : k + ops.length ≤ 2^25) {i : Nat}
    (hi : c.Written i) : ofMemory (reached (execAll (m := .constructBinary) ops c)).data i = ofMemory c.data i := by
  induction ops generalizing c k with
  | nil => rfl
  | cons op ops ih =>
    rw [List.length_cons] at hk
    obtain ⟨eff, hvalid, heff⟩ := exec_blind (hops op List.mem_cons_self) hc (by omega)
    have hframe := Effect.frame hc hvalid hi
    rw [show eff.result c = op.exec (m := .constructBinary) c from (heff c.data).symm] at hframe
    refine reached_bind (P := fun d : ObCtx => ofMemory d.data i = ofMemory c.data i) hframe fun _ d hd hdata => ?_
    have hok : eff.result c = .ok () d := (heff c.data).symm.trans hd
    rw [ih (fun op hop => hops op (List.mem_cons_of_mem _ hop)) (Effect.steady hc (by omega) hvalid hok) (by omega)
      (Effect.keeps_written hvalid hok hi), hdata]

/-- Two runs end alike: up to the buffer, in which all that is written is the same. -/
def Alike : EStateM.Result Halt ObCtx Unit → EStateM.Result Halt ObCtx Unit → Prop
  | .ok _ d, .ok _ d' => d' = d.on d'.data ∧ ∀ i, d.Written i → ofMemory d'.data i = ofMemory d.data i
  | .error e d, .error e' d' => e' = e ∧ d' = d.on d'.data
  | _, _ => False

theorem execAll_alike (hops : ∀ op ∈ ops, op.Constructs) (hc : c.Steady k) (hk : k + ops.length ≤ 2^25)
    {data data' : Memory UInt8} (hagree : ∀ i, c.Written i → ofMemory data' i = ofMemory data i) :
    Alike (execAll (m := .constructBinary) ops (c.on data)) (execAll (m := .constructBinary) ops (c.on data')) := by
  induction ops generalizing c k data data' with
  | nil => exact ⟨rfl, hagree⟩
  | cons op ops ih =>
    rw [List.length_cons] at hk
    obtain ⟨eff, hvalid, heff⟩ := exec_blind (hops op List.mem_cons_self) hc (by omega)
    cases hrun : eff.result (c.on data) with
    | ok u d =>
      obtain ⟨data'', hrun', hagree'⟩ := Effect.agree hc hvalid hagree hrun
      have hsteady := Effect.steady (hc.on data) (by omega) hvalid hrun
      have hrest := ih (fun op hop => hops op (List.mem_cons_of_mem _ hop)) hsteady (by omega) hagree'
      rw [execAll, bind_ok ((heff data).trans hrun), bind_ok ((heff data').trans hrun')]
      exact hrest
    | error e d =>
      rw [execAll, bind_error ((heff data).trans hrun), bind_error ((heff data').trans (Effect.agree_error hvalid hrun data'))]
      exact ⟨rfl, rfl⟩

theorem execAll_steady (hops : ∀ op ∈ ops, op.Constructs) (hc : c.Steady k) (hk : k + ops.length ≤ 2^25) {d : ObCtx}
    (h : execAll (m := .constructBinary) ops c = .ok () d) : d.Steady (k + ops.length) := by
  induction ops generalizing c k with
  | nil =>
    cases h
    exact hc
  | cons op ops ih =>
    rw [List.length_cons] at hk ⊢
    obtain ⟨eff, hvalid, heff⟩ := exec_blind (hops op List.mem_cons_self) hc (by omega)
    obtain ⟨_, d1, h1, h2⟩ := bind_eq_ok.mp h
    have hsteady := Effect.steady hc (by omega) hvalid ((heff c.data).symm.trans h1)
    have hrest := ih (fun op hop => hops op (List.mem_cons_of_mem _ hop)) hsteady (by omega) h2
    rwa [Nat.add_assoc, Nat.add_comm 1] at hrest

end Operation

/-- The buffer behind attempts that all start from the same copy. -/
def ObCtx.afterAttempts (c : ObCtx) (attempts : List (List Operation)) : Memory UInt8 :=
  attempts.foldl (fun data ops => (reached (Operation.execAll (m := .constructBinary) ops (c.on data))).data) c.data

theorem afterAttempts_frame {c : ObCtx} {k : Nat} (hc : c.Steady k) {attempts : List (List Operation)}
    (hattempts : ∀ ops ∈ attempts, (∀ op ∈ ops, op.Constructs) ∧ k + ops.length ≤ 2^25) {i : Nat} (hi : c.Written i) :
    ofMemory (c.afterAttempts attempts) i = ofMemory c.data i := by
  unfold ObCtx.afterAttempts
  suffices h : ∀ data, ofMemory (attempts.foldl (fun data ops =>
      (reached (Operation.execAll (m := .constructBinary) ops (c.on data))).data) data) i = ofMemory data i from h c.data
  induction attempts with
  | nil => exact fun data => rfl
  | cons ops attempts ih =>
    intro data
    obtain ⟨hops, hk⟩ := hattempts ops List.mem_cons_self
    rw [List.foldl_cons, ih fun ops hmem => hattempts ops (List.mem_cons_of_mem _ hmem)]
    exact Operation.execAll_frame hops (hc.on data) hk hi

theorem bytes_eq {d : ObCtx} {data : Memory UInt8} (hclosed : d.scopeStack = [])
    (hagree : ∀ i, d.Written i → ofMemory data i = ofMemory d.data i) :
    data.read 0 (d.bitpos / 8) = d.data.read 0 (d.bitpos / 8) := by
  refine ofBytes_inj ?_
  rw [← ofMemory_read, ← ofMemory_read]
  refine Memory.read_congr _ _ _ _ fun i _ hi => hagree i ⟨by omega, fun hr => ?_⟩
  obtain ⟨s, hs, -⟩ := hr
  rw [hclosed] at hs
  cases hs

/-- Whatever was tried from a copy before: what is done from it afterwards ends alike. -/
theorem attempts_alike {data : Memory UInt8} {size : Nat} (hsize : size ≤ 2^27) {pre ops : List Operation}
    {attempts : List (List Operation)} (hpre : ∀ op ∈ pre, op.Constructs)
    (hruns : ∀ run ∈ ops :: attempts, (∀ op ∈ run, op.Constructs) ∧ pre.length + run.length ≤ 2^25) {c : ObCtx}
    (hrun : Operation.execAll (m := .constructBinary) pre (ObCtx.create data size) = .ok () c) :
    Operation.Alike (Operation.execAll (m := .constructBinary) ops c)
      (Operation.execAll (m := .constructBinary) ops (c.on (c.afterAttempts attempts))) := by
  obtain ⟨⟨hops, hk⟩, hattempts⟩ := List.forall_mem_cons.mp hruns
  have hsteady := Operation.execAll_steady hpre (ObCtx.Steady.create data hsize) (by omega) hrun
  rw [Nat.zero_add] at hsteady
  have hagree : ∀ i, c.Written i → ofMemory (c.afterAttempts attempts) i = ofMemory c.data i :=
    fun i hi => afterAttempts_frame hsteady hattempts hi
  exact Operation.execAll_alike hops hsteady hk hagree

namespace IoxProgram

/-- Attempts that each start from the copy `s`. -/
def attemptsFrom (v s : Nat) (attempts : List (List Operation)) : List IoxStatement :=
  attempts.flatMap fun ops => [.use v fun _ => Operation.execAll ops, .assign v s]

section Values
variable {vs : IoxValues} {v s b : Nat} {c : ObCtx}

theorem eval_use_ok (hv : vs.values v = some ⟨.constructBinary, c, some b⟩) {io : (m : Mode) → Iox m Unit} {u : Unit}
    {d : ObCtx} (h : io .constructBinary (c.on (vs.buffers b)) = .ok u d) : (IoxStatement.use v io).eval vs =
      .ok ⟨Function.update vs.values v (some ⟨.constructBinary, d, some b⟩), Function.update vs.buffers b d.data⟩ := by
  show (vs.get v >>= fun x => vs.used v (x.use vs.buffers io)) = _
  rw [get_eq_ok.mpr hv]
  show vs.used v (Contents.use ⟨.constructBinary, c, some b⟩ vs.buffers io) = _
  unfold Contents.use
  rw [show io Mode.constructBinary (Contents.attached ⟨.constructBinary, c, some b⟩ vs.buffers) = _ from h]
  rfl

theorem eval_use (hv : vs.values v = some ⟨.constructBinary, c, some b⟩) (io : (m : Mode) → Iox m Unit) :
    (∃ d, d = reached (io .constructBinary (c.on (vs.buffers b))) ∧ (IoxStatement.use v io).eval vs =
      .ok ⟨Function.update vs.values v (some ⟨.constructBinary, d, some b⟩), Function.update vs.buffers b d.data⟩) ∨
    ∃ e, (IoxStatement.use v io).eval vs = .error (.halt e) := by
  cases hrun : io .constructBinary (c.on (vs.buffers b)) with
  | ok u d => exact .inl ⟨d, rfl, eval_use_ok hv hrun⟩
  | error e d =>
    show (∃ d', _ ∧ (vs.get v >>= fun x => vs.used v (x.use vs.buffers io)) = _) ∨
      ∃ e, (vs.get v >>= fun x => vs.used v (x.use vs.buffers io)) = _
    rw [get_eq_ok.mpr hv]
    show (∃ d', _ ∧ vs.used v (Contents.use ⟨.constructBinary, c, some b⟩ vs.buffers io) = _) ∨
      ∃ e, vs.used v (Contents.use ⟨.constructBinary, c, some b⟩ vs.buffers io) = _
    unfold Contents.use
    rw [show io Mode.constructBinary (Contents.attached ⟨.constructBinary, c, some b⟩ vs.buffers) = _ from hrun]
    cases e with
    | exception info message => exact .inl ⟨d, rfl, rfl⟩
    | undefined => exact .inr ⟨_, rfl⟩
    | fuel => exact .inr ⟨_, rfl⟩

theorem eval_attempts {attempts : List (List Operation)} (hne : s ≠ v)
    (hv : vs.values v = some ⟨.constructBinary, c, some b⟩) (hs : vs.values s = some ⟨.constructBinary, c, some b⟩) :
    (∃ vs', (attemptsFrom v s attempts).foldlM IoxStatement.eval vs = .ok vs' ∧
      vs'.values v = some ⟨.constructBinary, c, some b⟩ ∧ vs'.buffers b = (c.on (vs.buffers b)).afterAttempts attempts) ∨
    ∃ e, (attemptsFrom v s attempts).foldlM IoxStatement.eval vs = .error (.halt e) := by
  induction attempts generalizing vs with
  | nil => exact .inl ⟨vs, rfl, hv, rfl⟩
  | cons ops attempts ih =>
    rw [attemptsFrom, List.flatMap_cons, List.cons_append, List.singleton_append, List.foldlM_cons]
    rcases eval_use hv fun _ => Operation.execAll ops with ⟨d, hd, huse⟩ | ⟨e, huse⟩
    · rw [huse]
      have hs1 : Function.update vs.values v (some ⟨.constructBinary, d, some b⟩) s = some ⟨.constructBinary, c, some b⟩ :=
        (Function.update_of_ne hne _ _).trans hs
      have hassign : (IoxStatement.assign v s).eval
          ⟨Function.update vs.values v (some ⟨.constructBinary, d, some b⟩), Function.update vs.buffers b d.data⟩ =
          .ok ⟨Function.update vs.values v (some ⟨.constructBinary, c, some b⟩), Function.update vs.buffers b d.data⟩ := by
        show (IoxValues.get _ v >>= fun _ => IoxValues.get _ s >>= _) = _
        rw [get_eq_ok.mpr (Function.update_self v _ _), get_eq_ok.mpr hs1]
        exact congrArg (fun values => Except.ok (IoxValues.mk values _)) (Function.update_idem _ _ _)
      show (∃ vs', ((IoxStatement.assign v s).eval _ >>= fun vs2 => (attemptsFrom v s attempts).foldlM IoxStatement.eval vs2) =
        .ok vs' ∧ _) ∨ ∃ e, ((IoxStatement.assign v s).eval _ >>= fun vs2 =>
          (attemptsFrom v s attempts).foldlM IoxStatement.eval vs2) = .error (.halt e)
      rw [hassign]
      have hbuffer : (c.on (Function.update vs.buffers b d.data b)).afterAttempts attempts =
          (c.on (vs.buffers b)).afterAttempts (ops :: attempts) := by
        rw [Function.update_self, hd]
        rfl
      rw [← hbuffer]
      exact ih (Function.update_self v _ _) ((Function.update_of_ne hne _ _).trans hs)
    · rw [huse]
      exact .inr ⟨e, rfl⟩

/-- The statements leave this context and its buffer, unless they end the program. -/
def Leaves (vs : IoxValues) (ts : List IoxStatement) (v b : Nat) (d : ObCtx) : Prop :=
  (∃ vs', ts.foldlM IoxStatement.eval vs = .ok vs' ∧ vs'.values v = some ⟨.constructBinary, d, some b⟩ ∧
    vs'.buffers b = d.data) ∨ ∃ e, ts.foldlM IoxStatement.eval vs = .error (.halt e)

theorem use_leaves (hv : vs.values v = some ⟨.constructBinary, c, some b⟩) (io : (m : Mode) → Iox m Unit) :
    Leaves vs [.use v io] v b (reached (io .constructBinary (c.on (vs.buffers b)))) := by
  unfold Leaves
  rw [List.foldlM_cons]
  rcases eval_use hv io with ⟨d, rfl, huse⟩ | ⟨e, huse⟩
  · rw [huse]
    exact .inl ⟨_, rfl, Function.update_self v _ _, Function.update_self b _ _⟩
  · rw [huse]
    exact .inr ⟨e, rfl⟩

theorem attempts_leave (hv : vs.values v = some ⟨.constructBinary, c, some b⟩) (hs : vs.values s = none)
    (attempts : List (List Operation)) (io : (m : Mode) → Iox m Unit) :
    Leaves vs (.copy s v :: (attemptsFrom v s attempts ++ [.use v io])) v b
      (reached (io .constructBinary (c.on ((c.on (vs.buffers b)).afterAttempts attempts)))) := by
  have hne : s ≠ v := fun heq => by
    rw [heq, hv] at hs
    cases hs
  have hcopy : (IoxStatement.copy s v).eval vs =
      .ok { vs with values := Function.update vs.values s (some ⟨.constructBinary, c, some b⟩) } := by
    show (vs.get v >>= fun x => vs.declare s x) = _
    rw [get_eq_ok.mpr hv]
    show vs.declare s _ = _
    unfold IoxValues.declare
    rw [hs]
  have hrest : Leaves { vs with values := Function.update vs.values s (some ⟨.constructBinary, c, some b⟩) }
      (attemptsFrom v s attempts ++ [.use v io]) v b
      (reached (io .constructBinary (c.on ((c.on (vs.buffers b)).afterAttempts attempts)))) := by
    unfold Leaves
    rw [List.foldlM_append]
    rcases @eval_attempts { vs with values := Function.update vs.values s (some ⟨.constructBinary, c, some b⟩) } v s b c
      attempts hne ((Function.update_of_ne (Ne.symm hne) _ _).trans hv) (Function.update_self s _ _) with
      ⟨vs1, hattempts, hv1, hbuffer⟩ | ⟨e, hattempts⟩
    · rw [hattempts, show (c.on (vs.buffers b)).afterAttempts attempts = vs1.buffers b from hbuffer.symm]
      exact use_leaves hv1 io
    · rw [hattempts]
      exact .inr ⟨e, rfl⟩
  unfold Leaves at hrest ⊢
  rw [List.foldlM_cons, hcopy]
  exact hrest

end Values

theorem Leaves.run {bufs : Buffers} {prog ts : List IoxStatement} {vs : IoxValues} {st : IoxStore} {v b : Nat} {d : ObCtx}
    (hleaves : Leaves vs ts v b d) (hprog : eval bufs prog = .ok vs) (hrun : run bufs (prog ++ ts) = .ok st) :
    Has st v ⟨.constructBinary, d, some b⟩ ∧ st.buffers b = d.data := by
  have hprefix := run_follows bufs prog
  rw [hprog] at hprefix
  obtain ⟨st0, hrun0, h0⟩ := hprefix
  have hfollows := runs_follow h0 ts
  have hrest : ts.foldlM IoxStatement.exec st0 = .ok st := by
    rw [IoxProgram.run, List.foldlM_append, show prog.foldlM IoxStatement.exec (.empty bufs) = .ok st0 from hrun0] at hrun
    exact hrun
  rw [hrest] at hfollows
  rcases hleaves with ⟨vs', heval, hv', hbuffer⟩ | ⟨e, heval⟩
  · rw [heval] at hfollows
    obtain ⟨st', hst, h⟩ := hfollows
    obtain rfl := Except.ok.inj hst
    exact ⟨(has_iff h).mpr hv', (congrFun h.buffers b).trans hbuffer⟩
  · rw [heval] at hfollows
    cases hfollows

/-- Whatever is tried on an `iox` that constructs in binary mode, with or without exceptions and
whichever blocks it closes, assigning a copy from before undoes it: what is done afterwards ends
as if nothing had been tried. The buffer, which the copies share, has the same bits wherever
construction has come to, and the same bytes when all blocks are closed. -/
theorem starting_over {bufs : Buffers} {prog : List IoxStatement} {vs : IoxValues} (hprog : eval bufs prog = .ok vs)
    {v s b : Nat} {c : ObCtx} (hv : vs.values v = some ⟨.constructBinary, c, some b⟩) (hs : vs.values s = none)
    {data : Memory UInt8} {size : Nat} (hsize : size ≤ 2^27) {pre : List Operation} (hpre : ∀ op ∈ pre, op.Constructs)
    (hhistory : Operation.execAll (m := .constructBinary) pre (ObCtx.create data size) = .ok () (c.on (vs.buffers b)))
    {attempts : List (List Operation)} {ops : List Operation}
    (hruns : ∀ run ∈ ops :: attempts, (∀ op ∈ run, op.Constructs) ∧ pre.length + run.length ≤ 2^25) {st st' : IoxStore}
    (hrun : run bufs (prog ++ [.use v fun _ => Operation.execAll ops]) = .ok st)
    (hrun' : run bufs (prog ++ .copy s v :: (attemptsFrom v s attempts ++ [.use v fun _ => Operation.execAll ops])) = .ok st') :
    ∃ d d' : ObCtx, Has st v ⟨.constructBinary, d, some b⟩ ∧ Has st' v ⟨.constructBinary, d', some b⟩ ∧
      st.buffers b = d.data ∧ st'.buffers b = d'.data ∧ d' = d.on d'.data ∧
      (Operation.execAll (m := .constructBinary) ops (c.on (vs.buffers b)) = .ok () d →
        (∀ i, d.Written i → ofMemory d'.data i = ofMemory d.data i) ∧
        (d.scopeStack = [] → d'.data.read 0 (d.bitpos / 8) = d.data.read 0 (d.bitpos / 8))) := by
  obtain ⟨hhas, hbuffer⟩ := (use_leaves hv _).run hprog hrun
  obtain ⟨hhas', hbuffer'⟩ := (attempts_leave hv hs attempts _).run hprog hrun'
  have halike := attempts_alike hsize hpre hruns hhistory
  refine ⟨_, _, hhas, hhas', hbuffer, hbuffer', ?_⟩
  rw [show (c.on (vs.buffers b)).on ((c.on (vs.buffers b)).afterAttempts attempts) =
    c.on ((c.on (vs.buffers b)).afterAttempts attempts) from rfl] at halike
  generalize Operation.execAll (m := .constructBinary) ops (c.on (vs.buffers b)) = r at halike ⊢
  generalize Operation.execAll (m := .constructBinary) ops (c.on ((c.on (vs.buffers b)).afterAttempts attempts)) = r' at halike ⊢
  cases r with
  | ok u d =>
    cases r' with
    | ok u' d' => exact ⟨halike.1, fun _ => ⟨halike.2, fun hclosed => bytes_eq hclosed halike.2⟩⟩
    | error e' d' => exact halike.elim
  | error e d =>
    cases r' with
    | ok u' d' => exact halike.elim
    | error e' d' => exact ⟨halike.2, nofun⟩

/-- A block is open when the copy is made. One attempt closes it, and another one throws behind a
byte. -/
def sampleBegin : List Operation := [.namedBlockBegin 8 ⟨chars "len", 0⟩]

def sampleAttempts : List (List Operation) :=
  [[.uint .uint16 16 (0x1234 : UInt16) ⟨chars "b", 0⟩, .namedBlockEnd ⟨chars "end", 0⟩],
    [.uint .uint8 8 (7 : UInt8) ⟨chars "c", 0⟩, .shortString (chars "long") ⟨chars "s", 0⟩]]

def sampleEnd : List Operation := [.uint .uint8 8 (5 : UInt8) ⟨chars "a", 0⟩, .namedBlockEnd ⟨chars "end", 0⟩]

def sampleProgram : List IoxStatement := [.create 0 (.constructBinary 0 4), .use 0 fun _ => Operation.execAll sampleBegin]

theorem starting_over_closed_block : ∃ st st' d d',
    run (fun _ _ => 0) (sampleProgram ++ [.use 0 fun _ => Operation.execAll sampleEnd]) = .ok st ∧
    run (fun _ _ => 0) (sampleProgram ++ .copy 1 0 :: (attemptsFrom 0 1 sampleAttempts ++
      [.use 0 fun _ => Operation.execAll sampleEnd])) = .ok st' ∧
    Has st 0 ⟨.constructBinary, d, some 0⟩ ∧ Has st' 0 ⟨.constructBinary, d', some 0⟩ ∧ d' = d.on d'.data := by
  obtain ⟨st, hrun⟩ := exists_run (fun _ _ => 0) (sampleProgram ++ [.use 0 fun _ => Operation.execAll sampleEnd])
    (by decide +kernel)
  obtain ⟨st', hrun'⟩ := exists_run (fun _ _ => 0) (sampleProgram ++ .copy 1 0 :: (attemptsFrom 0 1 sampleAttempts ++
    [.use 0 fun _ => Operation.execAll sampleEnd])) (by decide +kernel)
  have hgives : gives (Operation.execAll (m := .constructBinary) sampleBegin (ObCtx.create (fun _ => 0) 4)) () = true := by
    decide +kernel
  obtain ⟨c, hc⟩ := exists_ok_of_gives hgives
  have huse := @eval_use_ok ⟨Function.update (fun _ => none) 0 (some (IoxSource.constructBinary 0 4).contents), fun _ _ => 0⟩
    0 0 (ObCtx.create (fun _ => 0) 4) rfl (fun _ => Operation.execAll sampleBegin) () c hc
  have hprog : eval (fun _ _ => 0) sampleProgram = .ok _ := (congrArg (· >>= pure) huse).trans rfl
  have hsizes : ∀ run ∈ sampleEnd :: sampleAttempts,
      (∀ op ∈ run, op.Constructs) ∧ sampleBegin.length + run.length ≤ 2^25 := by
    simp [sampleBegin, sampleEnd, sampleAttempts, Operation.Constructs, Variable.width, Variable.toNat, chars]
  obtain ⟨d, d', hhas, hhas', -, -, hsame, -⟩ := starting_over hprog (Function.update_self 0 _ _) rfl
    (show 4 ≤ 2^27 by decide) (by simp [sampleBegin, Operation.Constructs]) hc hsizes hrun hrun'
  exact ⟨st, st', d, d', hrun, hrun', hhas, hhas', hsame⟩

end IoxProgram

end Mopa.Io
