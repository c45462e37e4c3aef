import Mopa.FieldAccess
import Mopa.TextConstruction
import Mopa.TextProgress

/-! Ends of blocks that were never begun. Parsing refuses them in every run; construction
looks at the innermost block before it knows that there is one. -/
namespace Mopa.Io
open Outcome IcCtx

def openBlocks : {m : Mode} → Ctx m → Nat
  | .parseBinary, c => c.scopeStack.length
  | .parseText, c => c.scopeStack.length
  | .constructBinary, c => c.scopeStack.length
  | .constructText, c => c.scopeStack.length

inductive Fresh : (m : Mode) → Ctx m → Prop where
  | parseBinary (data : Memory UInt8) (size : Nat) : Fresh .parseBinary (IbCtx.create data size)
  | parseText (text : List UInt8) : Fresh .parseText (IcCtx.create text)
  | constructBinary (data : Memory UInt8) (size : Nat) : Fresh .constructBinary (ObCtx.create data size)
  | constructText : Fresh .constructText OcCtx.create

namespace Operation
variable {m : Mode}

def IsPlain : Operation → Prop
  | uint _ _ _ info => info.Named
  | namedBlockBegin _ info => info.Named
  | namedBlockEnd info => info.Named
  | _ => False

/-- An end without a block is refused with nothing changed, and nothing else goes wrong with
the blocks. -/
structure Guarded (op : Operation) (c : Ctx m) : Prop where
  unmatched : ∀ info, op = namedBlockEnd info → openBlocks c = 0 →
    ∃ message, op.exec c = .error (.exception info message) c
  defined : Avoids .undefined (op.exec (m := m)) c

def Matched (op : Operation) (c : Ctx m) : Prop := ∀ info, op = namedBlockEnd info → openBlocks c ≠ 0

end Operation

/-- The zero at the end of the text is still to come, whether the program returns or throws. -/
def KeepsText {α : Type} (x : Icx α) : Prop := ∀ c : IcCtx, Terminated c.parsePos → Terminated (reached (x c)).parsePos

namespace KeepsText
variable {α β : Type} {info : Info}

protected theorem pure (a : α) : KeepsText (pure a : Icx α) := fun _ hc => hc

protected theorem throwX (message : String) : KeepsText (throwX info message : Icx α) := fun _ hc => hc

protected theorem bind {x : Icx α} {f : α → Icx β} (hx : KeepsText x) (hf : ∀ a, KeepsText (f a)) :
    KeepsText (x >>= f) := fun c hc =>
  reached_bind (P := fun c' => Terminated c'.parsePos) (hx c hc) fun a c' _ h => hf a c' h

theorem discard {x : Icx α} (hx : KeepsText x) : KeepsText (discard x) := by
  intro c hc
  exact (reached_map _ x c).symm ▸ hx c hc

theorem skiptotoken : KeepsText Icx.skiptotoken := by
  intro c hc
  unfold Icx.skiptotoken
  have hskip := (skipBlanks_terminated hc).1
  split
  · exact hc
  · next htext => rwa [htext] at hskip

theorem expect {req : List UInt8} (hreq : 0 ∉ req) : KeepsText (Icx.expect req) := by
  refine (discard skiptotoken).bind fun _ c hc => ?_
  obtain ⟨rest, all, hfollow, hrest, -⟩ := follow_terminated hc hreq
  simp only [hfollow]
  exact hrest

theorem readNumber {base : Nat} {digit : UInt8 → Option Nat} (hzero : digit 0 = none) (message : String) (w : Nat) :
    KeepsText (Icx.readNumber base digit message w info) := by
  intro c hc
  obtain ⟨-, hvalue, hexceeds⟩ := readDigits_terminated (v := 0) hc hzero
  unfold Icx.readNumber
  split
  · exact hc
  · next rest hdigits => exact hexceeds rest hdigits
  · next v rest hdigits =>
    have hrest := (hvalue v rest hdigits).1
    split
    · exact hrest
    · exact hrest

theorem readNumeral (w : Nat) : KeepsText (Icx.readNumeral w info) := by
  intro c hc
  obtain ⟨base, digit, message, rest, hzero, hrest, -, heq⟩ := Icx.readNumeral_reads w info hc
  rw [heq]
  exact readNumber hzero message w _ hrest

theorem uint (w : Nat) (hn : info.Named) : KeepsText (Icx.uint w info) := by
  have hread : KeepsText (Icx.readUint w info) := by
    rw [Icx.readUint_eq]
    refine (expect hn).bind fun named => ?_
    split
    · refine (expect (by decide)).bind fun colon => ?_
      split
      · exact readNumeral w
      · exact .throwX _
    · exact .throwX _
  exact hread.bind fun v c1 hc1 => hc1

theorem iox_uint (var : Variable) (w : Nat) (val : var.Word) (hn : info.Named) :
    KeepsText (Iox.uint (m := .parseText) var w val info) := by
  cases var with
  | uint8 => exact (uint w hn).bind fun _ => .pure _
  | uint16 => exact (uint w hn).bind fun _ => .pure _
  | uint32 => exact uint w hn

theorem blockBegin (length : Nat) : KeepsText (Icx.blockBegin length info) := by
  intro c hc
  unfold Icx.blockBegin
  rw [get_bind]
  split
  · exact hc
  · split
    · exact hc
    · have henter : KeepsText Icx.enterScope := (expect (show 0 ∉ chars "\x7b" by decide)).discard
      refine henter.bind (fun _ c1 hc1 => ?_) c hc
      exact hc1

theorem namedBlockBegin (b : Nat) (hn : info.Named) : KeepsText (Icx.namedBlockBegin b info) :=
  (uint b hn).bind fun length => blockBegin length.toNat

theorem blockEnd : KeepsText (Icx.blockEnd info) := by
  intro c hc
  obtain ⟨pos, limit, stack, text⟩ := c
  cases stack with
  | nil => exact hc
  | cons s outer =>
    have hleave : KeepsText Icx.leaveScope := (expect (show 0 ∉ chars "\x7d" by decide)).discard
    refine hleave.bind (fun _ c1 hc1 => ?_) _ hc
    rw [get_bind]
    split
    · exact hc1
    · exact hc1

end KeepsText

section Construction
variable {info : Info}

theorem obx_uint_avoids (var : Variable) (w : Nat) (val : var.Word) (c : ObCtx) :
    Avoids .undefined (Iox.uint (m := .constructBinary) var w val info) c := by
  by_cases h : Refused var w c.bitpos c.bitlimit
  · obtain ⟨message, herror⟩ := iox_uint_refused var val h
    exact .of_error herror (by rintro ⟨⟩)
  · exact .of_ok (iox_uint_written var val h)

theorem obx_namedBlockBegin_avoids (b : Nat) (c : ObCtx) : Avoids .undefined (Obx.namedBlockBegin b info) c := by
  have hbegin (d : ObCtx) : Avoids .undefined (Obx.blockBegin (u32 (2^b - 1)) info) d ∧
      ∀ u d', Obx.blockBegin (u32 (2^b - 1)) info d = .ok u d' → d'.scopeStack ≠ [] := by
    unfold Obx.blockBegin
    by_cases hal : d.bitpos % 8 ≠ 0
    · refine ⟨.of_error (if_pos hal) (by rintro ⟨⟩), fun u d' h => ?_⟩
      cases (if_pos hal).symm.trans h
    · refine ⟨.of_ok (if_neg hal), fun u d' h => ?_⟩
      cases (if_neg hal).symm.trans h
      exact List.cons_ne_nil _ _
  show Avoids .undefined (Obx.blockBegin (u32 (2^b - 1)) info >>= fun _ => Obx.setPositionForWrite c.bitpos)
    { c with bitpos := u32 (c.bitpos + b) }
  refine (hbegin _).1.bind fun u d h => ?_
  have hopen := (hbegin _).2 u d h
  intro d' hset
  unfold Obx.setPositionForWrite at hset
  split at hset
  · next hempty => exact hopen hempty
  · cases hset

theorem obx_namedBlockEnd_avoids {c : ObCtx} (h : c.scopeStack ≠ []) : Avoids .undefined (Obx.namedBlockEnd info) c := by
  obtain ⟨s, outer, hs⟩ := List.exists_cons_of_ne_nil h
  intro c' hend
  rw [obx_namedBlockEnd_apply info c s outer hs] at hend
  split at hend
  · cases hend
  · refine Avoids.bind (fun d h => ?_) (fun u d h => ?_) c' hend
    · exact obx_uint_avoids .uint32 (sub32 s.bitposAtEnter s.positionForWrite)
        (UInt32.ofNat (sub32 c.bitpos s.bitposAtEnter / 8)) _ d (bind_error h)
    · exact .of_ok rfl

theorem ocx_uint_avoids (var : Variable) (w : Nat) (val : var.Word) (c : OcCtx) :
    Avoids .undefined (Iox.uint (m := .constructText) var w val info) c := by
  have hline (v : UInt32) : Avoids .undefined (Ocx.uint w v info) c := by
    intro c' h
    rw [ocx_uint_apply] at h
    split at h
    · cases h
    · split at h
      · cases h
      · cases h
  cases var with
  | uint8 => exact (hline _).bind fun _ _ _ => .of_ok rfl
  | uint16 => exact (hline _).bind fun _ _ _ => .of_ok rfl
  | uint32 => exact (hline _).bind fun _ _ _ => .of_ok rfl

theorem ocx_namedBlockBegin_avoids (b : Nat) (c : OcCtx) : Avoids .undefined (Ocx.namedBlockBegin b info) c := by
  intro c' h
  rw [ocx_namedBlockBegin_apply] at h
  split at h
  · cases h
  · cases h

theorem ocx_namedBlockEnd_avoids {c : OcCtx} (h : c.scopeStack ≠ []) : Avoids .undefined (Ocx.namedBlockEnd info) c := by
  obtain ⟨s, outer, hs⟩ := List.exists_cons_of_ne_nil h
  intro c' hend
  rw [ocx_namedBlockEnd_apply hs] at hend
  split at hend
  · cases hend
  · cases hend

end Construction

theorem namedBlockEnd_unmatched {m : Mode} (info : Info) {c : Ctx m} (h : openBlocks c = 0) :
    Iox.namedBlockEnd info c =
      .error (if m.isParsing = true then .exception info "unmatched named_block_end" else .undefined) c := by
  cases m with
  | parseBinary =>
    obtain ⟨pos, limit, data, stack⟩ := c
    obtain rfl : stack = [] := List.length_eq_zero_iff.mp h
    rfl
  | parseText =>
    obtain ⟨pos, limit, stack, text⟩ := c
    obtain rfl : stack = [] := List.length_eq_zero_iff.mp h
    rfl
  | constructBinary => exact obx_namedBlockEnd_nil (List.length_eq_zero_iff.mp h)
  | constructText =>
    obtain ⟨pos, limit, stack, prod⟩ := c
    obtain rfl : stack = [] := List.length_eq_zero_iff.mp h
    rfl

def Readable : {m : Mode} → Ctx m → Prop
  | .parseText, c => Terminated c.parsePos
  | _, _ => True

theorem Fresh.readable {m : Mode} {c : Ctx m} (h : Fresh m c) : Readable c := by
  cases h with
  | parseText text => exact terminated_append text
  | _ => trivial

namespace Operation
variable {m : Mode} {op : Operation}

theorem reached_readable (hop : op.IsPlain) {c : Ctx m} (hc : Readable c) : Readable (reached (op.exec c)) := by
  cases m with
  | parseText =>
    cases op with
    | uint var w val info => exact (KeepsText.iox_uint var w val hop).bind (fun _ => .pure _) c hc
    | namedBlockBegin b info => exact KeepsText.namedBlockBegin b hop c hc
    | namedBlockEnd info => exact KeepsText.blockEnd.bind (fun _ => .pure _) c hc
    | uintReq => exact hop.elim
    | shortString => exact hop.elim
    | fixedString => exact hop.elim
  | _ => trivial

theorem guarded_of_matched (hop : op.IsPlain) {c : Ctx m} (hc : Readable c) (hm : op.Matched c) : op.Guarded c := by
  refine ⟨fun info heq hempty => absurd hempty (hm info heq), ?_⟩
  cases op with
  | uint var w val info =>
    refine Avoids.bind ?_ fun _ _ _ => .of_ok rfl
    cases m with
    | parseBinary => exact ibx_uint_avoids var w val c
    | parseText => exact avoids_of_ends (Icx.iox_uint_ends hop) hc
    | constructBinary => exact obx_uint_avoids var w val c
    | constructText => exact ocx_uint_avoids var w val c
  | namedBlockBegin b info =>
    cases m with
    | parseBinary => exact ibx_namedBlockBegin_avoids b c
    | parseText => exact avoids_of_ends (Icx.namedBlockBegin_ends hop) hc
    | constructBinary => exact obx_namedBlockBegin_avoids b c
    | constructText => exact ocx_namedBlockBegin_avoids b c
  | namedBlockEnd info =>
    refine Avoids.bind ?_ fun _ _ _ => .of_ok rfl
    cases m with
    | parseBinary => exact ibx_blockEnd_avoids c
    | parseText => exact avoids_of_ends Icx.blockEnd_ends hc
    | constructBinary => exact obx_namedBlockEnd_avoids fun hnil => hm info rfl (List.length_eq_zero_iff.mpr hnil)
    | constructText => exact ocx_namedBlockEnd_avoids fun hnil => hm info rfl (List.length_eq_zero_iff.mpr hnil)
  | uintReq => exact hop.elim
  | shortString => exact hop.elim
  | fixedString => exact hop.elim

theorem guarded_iff (hop : op.IsPlain) {c : Ctx m} (hc : Readable c) :
    op.Guarded c ↔ m.isParsing = true ∨ op.Matched c := by
  by_cases hm : op.Matched c
  · exact iff_of_true (guarded_of_matched hop hc hm) (.inr hm)
  · obtain ⟨info, rfl, hempty⟩ : ∃ info, op = namedBlockEnd info ∧ openBlocks c = 0 := by
      by_contra hnone
      exact hm fun info heq hempty => hnone ⟨info, heq, hempty⟩
    have hrun := bind_error (f := fun _ => pure ()) (namedBlockEnd_unmatched info hempty)
    by_cases hparse : m.isParsing = true
    · rw [if_pos hparse] at hrun
      refine iff_of_true ⟨fun _ heq _ => ?_, .of_error hrun (by rintro ⟨⟩)⟩ (.inl hparse)
      cases heq
      exact ⟨_, hrun⟩
    · rw [if_neg hparse] at hrun
      exact iff_of_false (fun h => h.defined c hrun) (not_or.mpr ⟨hparse, hm⟩)

end Operation

/-- In a run that goes on after exceptions, parsing refuses every end without a block;
construction does what it should as long as there is no such end. -/
theorem unmatched_ends {m : Mode} {ops : List Operation} (hops : ∀ op ∈ ops, op.IsPlain) {c : Ctx m} (hc : Fresh m c) :
    Operation.Along Operation.Guarded ops c ↔ m.isParsing = true ∨ Operation.Along Operation.Matched ops c := by
  replace hc : Readable c := hc.readable
  induction ops generalizing c with
  | nil => exact iff_of_true trivial (.inr trivial)
  | cons op ops ih =>
    have hop := hops op List.mem_cons_self
    have hguard := Operation.guarded_iff hop hc
    -- behind an operation that is guarded there is one context
    have hrest (hg : op.Guarded c) (d : Ctx m) (hd : op.Leads c d) :=
      ih (fun op' hop' => hops op' (List.mem_cons_of_mem _ hop'))
        ((Operation.leads_iff hg.defined).mp hd ▸ Operation.reached_readable hop hc)
    constructor
    · rintro ⟨hg, hall⟩
      refine or_iff_not_imp_left.mpr fun hparse => ⟨(hguard.mp hg).resolve_left hparse, fun d hd => ?_⟩
      exact ((hrest hg d hd).mp (hall d hd)).resolve_left hparse
    · intro h
      have hg := hguard.mpr (h.imp_right And.left)
      exact ⟨hg, fun d hd => (hrest hg d hd).mpr (h.imp_right fun hmatched => hmatched.2 d hd)⟩

theorem unmatched_ends_wrong_name :
    Operation.Along (m := .parseText) Operation.Guarded
        [.uint .uint8 4 (0 : UInt8) ⟨chars "name", 0⟩, .namedBlockEnd ⟨chars "name", 0⟩] (IcCtx.create (chars "nothing")) ↔
      Mode.parseText.isParsing = true ∨ Operation.Along (m := .parseText) Operation.Matched
        [.uint .uint8 4 (0 : UInt8) ⟨chars "name", 0⟩, .namedBlockEnd ⟨chars "name", 0⟩] (IcCtx.create (chars "nothing")) := by
  refine unmatched_ends (fun op hop => ?_) (.parseText (chars "nothing"))
  rcases List.mem_cons.mp hop with rfl | hop
  · exact show Info.Named _ by decide
  · cases List.mem_singleton.mp hop
    exact show Info.Named _ by decide

/-- The end of a block on a fresh context takes the innermost block of none. -/
theorem unmatched_ends_construction :
    ¬ ∀ (m : Mode) (ops : List Operation), (∀ op ∈ ops, op.IsPlain) → ∀ c : Ctx m, Fresh m c →
      Operation.Along Operation.Guarded ops c := by
  intro h
  have hend := h .constructBinary [.namedBlockEnd ⟨chars "name", 0⟩] (fun op hop => by
    cases List.mem_singleton.mp hop
    exact show Info.Named _ by decide) _ (.constructBinary (fun _ => 0) 16)
  exact hend.1.defined _ rfl

end Mopa.Io
