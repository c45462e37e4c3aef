import Mopa.BlockNesting
import Mopa.BlockConstruction
import Mopa.BufferAccess

/-! The bounds checks of binary modes against what they mean over the integers: what is
available are the bits up to the end of the innermost block, or of the buffer. -/
namespace Mopa.Io
open Outcome

/-- A check whose sum does not wrap, or that refuses although it does. -/
def Unwrapped (bitpos bits bitlimit : Nat) : Prop := bitpos + bits < 2^32 ∨ bitlimit < u32 (bitpos + bits)

theorem u32_add_u32 (a b : Nat) : u32 (a + u32 b) = u32 (a + b) := by
  unfold u32
  omega

theorem check_exact {bitpos bits bitlimit : Nat} (h : bitlimit < 2^32) :
    (u32 (bitpos + bits) ≤ bitlimit ↔ bitpos + bits ≤ bitlimit) ↔ Unwrapped bitpos bits bitlimit := by
  unfold Unwrapped u32
  omega

namespace IbCtx

/-- The contexts of binary parsing, with the ends of the blocks that are open over the
integers, innermost first. -/
inductive Reached (size : Nat) : IbCtx → List Nat → Prop
  | create (data : Memory UInt8) : size < 2^29 → Reached size (IbCtx.create data size) [8 * size]
  -- integers, strings, checksums and `seek`, whether they return or throw
  | moved {c c' : IbCtx} {ends : List Nat} : Reached size c ends → c'.limits = c.limits → Reached size c' ends
  | entered {c c' : IbCtx} {ends : List Nat} {length : Nat} {info : Info} : Reached size c ends →
      Unwrapped c.bitpos (8 * length) c.bitlimit → Ibx.blockBegin length info c = .ok () c' →
      Reached size c' ((c.bitpos + 8 * length) :: ends)
  | left {c c' : IbCtx} {e n : Nat} {ends : List Nat} {info : Info} : Reached size c (e :: ends) →
      Ibx.blockEnd info c = .ok n c' → Reached size c' ends

end IbCtx

section Parsing
variable {c c' : IbCtx} {info : Info} {n : Nat}

theorem ibx_blockBegin_eq_ok (hal : c.bitpos % 8 = 0) : Ibx.blockBegin n info c = .ok () c' ↔
    u32 (c.bitpos + 8 * n) ≤ c.bitlimit ∧ c' = { c with
      scopeStack := ⟨info, c.bitpos, c.bitlimit⟩ :: c.scopeStack
      bitlimit := u32 (c.bitpos + 8 * n) } := by
  unfold Ibx.blockBegin
  rw [if_neg (by omega), u32_add_u32, Nat.mul_comm n 8]
  split
  · next h => exact ⟨fun hok => (by cases hok), fun hok => absurd hok.1 (Nat.not_le.mpr h)⟩
  · next h =>
    constructor
    · intro hok
      cases hok
      exact ⟨Nat.le_of_not_lt h, rfl⟩
    · rintro ⟨-, rfl⟩
      rfl

theorem ibx_blockBegin_aligned (h : Ibx.blockBegin n info c = .ok () c') : c.bitpos % 8 = 0 := by
  by_contra hal
  unfold Ibx.blockBegin at h
  rw [if_pos hal] at h
  cases h

theorem ibx_blockBegin_error {e : Halt} (h : Ibx.blockBegin n info c = .error e c') : c' = c := by
  unfold Ibx.blockBegin at h
  split at h
  · cases h
    rfl
  · split at h
    · cases h
      rfl
    · cases h

theorem ibx_blockEnd_error {e : Halt} (h : Ibx.blockEnd info c = .error e c') : c' = c := by
  cases hs : c.scopeStack with
  | nil =>
    unfold Ibx.blockEnd at h
    rw [hs] at h
    cases h
    rfl
  | cons s outer =>
    rw [ibx_blockEnd_apply s outer hs] at h
    split at h
    · cases h
      rfl
    · split at h
      · cases h
        rfl
      · cases h

theorem ibx_blockEnd_limits (h : Ibx.blockEnd info c = .ok n c') : c.limits = c.bitlimit :: c'.limits := by
  cases hs : c.scopeStack with
  | nil =>
    unfold Ibx.blockEnd at h
    rw [hs] at h
    cases h
  | cons s outer =>
    rw [ibx_blockEnd_apply s outer hs] at h
    split at h
    · cases h
    · split at h
      · cases h
      · cases h
        rw [IbCtx.limits, IbCtx.limits, hs]
        rfl

end Parsing

namespace IbCtx

theorem Reached.limits {size : Nat} {c : IbCtx} {ends : List Nat} (h : Reached size c ends) :
    c.limits = ends ∧ ∀ e ∈ ends, e < 2^32 := by
  induction h with
  | create data hsize =>
    have hlimit : u32 (size * 8) = 8 * size := by rw [u32_of_lt (by omega), Nat.mul_comm]
    refine ⟨congrArg (fun e => [e]) hlimit, fun e he => ?_⟩
    rw [List.mem_singleton.mp he]
    omega
  | moved _ hlimits ih => exact ⟨hlimits.trans ih.1, ih.2⟩
  | @entered c c' ends length info _ hcheck hbegin ih =>
    obtain ⟨hfit, rfl⟩ := (ibx_blockBegin_eq_ok (ibx_blockBegin_aligned hbegin)).mp hbegin
    have hlt : c.bitpos + 8 * length < 2^32 := hcheck.resolve_right (Nat.not_lt.mpr hfit)
    refine ⟨?_, List.forall_mem_cons.mpr ⟨hlt, ih.2⟩⟩
    rw [← ih.1]
    exact congrArg (fun e => e :: c.limits) (u32_of_lt hlt)
  | left _ hend ih =>
    have hlimits := ih.1
    rw [ibx_blockEnd_limits hend] at hlimits
    obtain ⟨-, hlimits⟩ := List.cons.inj hlimits
    exact ⟨hlimits, fun e he => ih.2 e (List.mem_cons_of_mem _ he)⟩

theorem Reached.bitlimit {size e : Nat} {c : IbCtx} {ends : List Nat} (h : Reached size c (e :: ends)) :
    c.bitlimit = e ∧ e < 2^32 :=
  ⟨(List.cons.inj h.limits.1).1, h.limits.2 e List.mem_cons_self⟩

end IbCtx

namespace ObCtx

/-- The contexts of binary construction, with the ends of the open blocks over the integers. A
block ends with the enclosing one, if its own limit is behind that. -/
inductive Reached (size : Nat) : ObCtx → List Nat → Prop
  | create (data : Memory UInt8) : size < 2^29 → Reached size (ObCtx.create data size) [8 * size]
  -- integers, strings, checksums and `seek`, whether they return or throw
  | moved {c c' : ObCtx} {ends : List Nat} : Reached size c ends → c'.limits = c.limits → Reached size c' ends
  | entered {c c' : ObCtx} {ends : List Nat} {e limit : Nat} {info : Info} : Reached size c (e :: ends) →
      c.bitpos < 2^32 → Unwrapped c.bitpos (8 * limit) c.bitlimit → Obx.blockBegin limit info c = .ok () c' →
      Reached size c' (min e (c.bitpos + 8 * limit) :: e :: ends)
  | left {c c' : ObCtx} {e n : Nat} {ends : List Nat} {info : Info} : Reached size c (e :: ends) →
      Obx.blockEnd info c = .ok n c' → Reached size c' ends

end ObCtx

section Construction
variable {c c' : ObCtx} {info : Info} {n : Nat}

theorem obx_uint_admits {var : Variable} {w : Nat} {val : var.Word} :
    Obx.uint var w val info c ≠ .error (.exception info "left %d bits, needed %d") c ↔
      u32 (c.bitpos + w) ≤ c.bitlimit := by
  rw [← Nat.not_lt, Ne, not_iff_not]
  constructor
  · intro h
    by_contra hfit
    cases var with
    | uint8 =>
      have hok : Obx.uint8 w val info c = .ok () (c.nocheckUint8 w val) := if_neg hfit
      cases hok.symm.trans h
    | uint16 =>
      have hok : Obx.uint16 w val info c = .ok () (c.nocheckUint16 w val) := if_neg hfit
      cases hok.symm.trans h
    | uint32 =>
      have h : Obx.uint32 w val info c = _ := h
      rw [obx_uint32_apply, if_neg hfit] at h
      split at h
      · cases h
      · injection h with he _
        injection he with _ hmessage
        exact absurd hmessage (by decide)
  · intro hover
    cases var with
    | uint8 => exact if_pos hover
    | uint16 => exact if_pos hover
    | uint32 => exact if_pos hover

theorem obx_blockBegin_limits (hpos : c.bitpos < 2^32) (hlimit : c.bitlimit < 2^32)
    (hcheck : Unwrapped c.bitpos (8 * n) c.bitlimit) (h : Obx.blockBegin n info c = .ok () c') :
    c'.limits = min c.bitlimit (c.bitpos + 8 * n) :: c.limits := by
  rw [obx_blockBegin_apply] at h
  split at h
  · cases h
  · cases h
    refine congrArg (fun e => e :: c.limits) ?_
    rw [u32_add_u32, Nat.mul_comm n 8]
    split
    · next hover =>
      rw [u32_add_sub32 hpos hlimit]
      refine (Nat.min_eq_left ?_).symm
      exact (Nat.le_of_lt hover).trans (Nat.mod_le _ _)
    · next hover =>
      have hlt : c.bitpos + 8 * n < 2^32 := hcheck.resolve_right hover
      rw [u32_of_lt hlt] at hover
      rw [u32_add_u32, u32_of_lt hlt]
      exact (Nat.min_eq_right (Nat.le_of_not_lt hover)).symm

theorem obx_blockBegin_error {e : Halt} (h : Obx.blockBegin n info c = .error e c') : c' = c := by
  rw [obx_blockBegin_apply] at h
  split at h
  · cases h
    rfl
  · cases h

theorem obx_blockEnd_error {e : Halt} (h : Obx.blockEnd info c = .error e c') : c' = c := by
  unfold Obx.blockEnd at h
  cases hs : c.scopeStack with
  | nil =>
    rw [hs] at h
    cases h
    rfl
  | cons s outer =>
    rw [hs] at h
    dsimp only at h
    split at h
    · cases h
      rfl
    · cases h

theorem obx_blockEnd_limits (h : Obx.blockEnd info c = .ok n c') : c.limits = c.bitlimit :: c'.limits := by
  unfold Obx.blockEnd at h
  cases hs : c.scopeStack with
  | nil =>
    rw [hs] at h
    cases h
  | cons s outer =>
    rw [hs] at h
    dsimp only at h
    split at h
    · cases h
    · cases h
      rw [ObCtx.limits, ObCtx.limits, hs]
      rfl

end Construction

namespace ObCtx

theorem Reached.limits {size : Nat} {c : ObCtx} {ends : List Nat} (h : Reached size c ends) :
    c.limits = ends ∧ ∀ e ∈ ends, e < 2^32 := by
  induction h with
  | create data hsize =>
    have hlimit : u32 (size * 8) = 8 * size := by rw [u32_of_lt (by omega), Nat.mul_comm]
    refine ⟨congrArg (fun e => [e]) hlimit, fun e he => ?_⟩
    rw [List.mem_singleton.mp he]
    omega
  | moved _ hlimits ih => exact ⟨hlimits.trans ih.1, ih.2⟩
  | entered _ hpos hcheck hbegin ih =>
    obtain ⟨hlimit, -⟩ := List.cons.inj ih.1
    have he := ih.2 _ List.mem_cons_self
    refine ⟨?_, List.forall_mem_cons.mpr ⟨(Nat.min_le_left _ _).trans_lt he, ih.2⟩⟩
    rw [obx_blockBegin_limits hpos (hlimit ▸ he) hcheck hbegin, ih.1, hlimit]
  | left _ hend ih =>
    have hlimits := ih.1
    rw [obx_blockEnd_limits hend] at hlimits
    obtain ⟨-, hlimits⟩ := List.cons.inj hlimits
    exact ⟨hlimits, fun e he => ih.2 e (List.mem_cons_of_mem _ he)⟩

theorem Reached.bitlimit {size e : Nat} {c : ObCtx} {ends : List Nat} (h : Reached size c (e :: ends)) :
    c.bitlimit = e ∧ e < 2^32 :=
  ⟨(List.cons.inj h.limits.1).1, h.limits.2 e List.mem_cons_self⟩

end ObCtx

namespace Operation

def LengthFits (c : IbCtx) : Operation → Prop
  | namedBlockBegin b info => ∀ (length : UInt32) c1, Ibx.uint32 b info c = .ok length c1 →
    Unwrapped c1.bitpos (8 * length.toNat) c1.bitlimit
  | _ => True

/-- The greatest length that the block can announce does not wrap. -/
def LimitFits (c : ObCtx) : Operation → Prop
  | namedBlockBegin b _ => Unwrapped (u32 (c.bitpos + b)) (8 * u32 (2^b - 1)) c.bitlimit
  | _ => True

theorem keeps_uint8 (w : Nat) (info : Info) : Keeps IbCtx.limits (Ibx.uint8 w info) := by
  intro c
  unfold Ibx.uint8
  split
  · rfl
  · rfl

theorem keeps_uint32 (w : Nat) (info : Info) : Keeps IbCtx.limits (Ibx.uint32 w info) := by
  intro c
  unfold Ibx.uint32 IbCtx.nocheckUint32
  split
  · rfl
  · dsimp only
    split
    · rfl
    · rfl

theorem keeps_uint (var : Variable) (w : Nat) (val : var.Word) (info : Info) :
    Keeps IbCtx.limits (Iox.uint (m := .parseBinary) var w val info) := by
  cases var with
  | uint8 => exact keeps_uint8 w info
  | uint16 => exact (keeps_uint32 w info).bind fun _ => .pure _
  | uint32 => exact keeps_uint32 w info

theorem keeps_field {op : Operation} (hop : op.IsField) : Keeps IbCtx.limits (op.exec (m := .parseBinary)) := by
  cases op with
  | uint var w val info => exact (keeps_uint var w val info).bind fun _ => .pure _
  | uintReq var w val info =>
    refine (keeps_uint var w val info).bind fun a => ?_
    split
    · exact fun _ => rfl
    · exact .pure _
  | shortString str info =>
    refine Keeps.bind (fun c => ?_) fun _ => .pure _
    rw [Reads.shortString_apply]
    split
    · rfl
    · refine Keeps.bind (keeps_uint8 8 info) (fun len c => ?_) c
      split
      · rfl
      · rfl
  | fixedString n str info =>
    refine Keeps.bind (fun c => ?_) fun _ => .pure _
    rw [Reads.fixedString_apply]
    split
    · rfl
    · split
      · rfl
      · rfl
  | namedBlockBegin b info => cases hop
  | namedBlockEnd info => cases hop

theorem parse_reached {size : Nat} {op : Operation} {c : IbCtx} {ends : List Nat} (h : c.Reached size ends)
    (hfit : op.LengthFits c) : ∃ ends', IbCtx.Reached size (reached (op.exec (m := .parseBinary) c)) ends' := by
  by_cases hop : op.IsField
  · exact ⟨ends, h.moved (keeps_field hop c)⟩
  · cases op with
    | namedBlockBegin b info =>
      show ∃ ends', IbCtx.Reached size (reached (Ibx.namedBlockBegin b info c)) ends'
      unfold Ibx.namedBlockBegin
      have hkeeps := keeps_uint32 b info c
      cases hlength : Ibx.uint32 b info c with
      | error e c1 =>
        rw [hlength] at hkeeps
        rw [bind_error hlength]
        exact ⟨ends, h.moved hkeeps⟩
      | ok length c1 =>
        rw [hlength] at hkeeps
        rw [bind_ok hlength]
        have h1 : c1.Reached size ends := h.moved hkeeps
        have hcheck := hfit length c1 hlength
        cases hbegin : Ibx.blockBegin length.toNat info c1 with
        | ok u c2 => exact ⟨_, h1.entered hcheck hbegin⟩
        | error e c2 => exact ⟨ends, ibx_blockBegin_error hbegin ▸ h1⟩
    | namedBlockEnd info =>
      show ∃ ends', IbCtx.Reached size (reached ((Ibx.blockEnd info >>= fun _ => pure ()) c)) ends'
      cases hend : Ibx.blockEnd info c with
      | error e c1 =>
        rw [bind_error hend]
        exact ⟨ends, ibx_blockEnd_error hend ▸ h⟩
      | ok n c1 =>
        rw [bind_ok hend]
        rw [← h.limits.1, ibx_blockEnd_limits hend] at h
        exact ⟨_, h.left hend⟩
    | uint => exact absurd trivial hop
    | uintReq => exact absurd trivial hop
    | shortString => exact absurd trivial hop
    | fixedString => exact absurd trivial hop

theorem keeps_write_uint8 (w : Nat) (val : UInt8) (info : Info) : Keeps ObCtx.limits (Obx.uint8 w val info) := by
  intro c
  unfold Obx.uint8
  split
  · rfl
  · rfl

theorem keeps_write_uint32 (w : Nat) (val : UInt32) (info : Info) : Keeps ObCtx.limits (Obx.uint32 w val info) := by
  intro c
  rw [obx_uint32_apply]
  split
  · rfl
  · split
    · next hspan =>
      unfold ObCtx.nocheckUint32
      dsimp only
      rw [if_pos hspan]
      rfl
    · rfl

theorem keeps_write_uint (var : Variable) (w : Nat) (val : var.Word) (info : Info) :
    Keeps ObCtx.limits (Iox.uint (m := .constructBinary) var w val info) := by
  cases var with
  | uint8 => exact (keeps_write_uint8 w val info).bind fun _ => .pure _
  | uint16 =>
    refine Keeps.bind (fun c => ?_) fun _ => .pure _
    unfold Obx.uint16
    split
    · rfl
    · rfl
  | uint32 => exact (keeps_write_uint32 w val info).bind fun _ => .pure _

theorem keeps_write_field {op : Operation} (hop : op.IsField) :
    Keeps ObCtx.limits (op.exec (m := .constructBinary)) := by
  cases op with
  | uint var w val info => exact (keeps_write_uint var w val info).bind fun _ => .pure _
  | uintReq var w val info =>
    refine (keeps_write_uint var w val info).bind fun a => ?_
    split
    · exact fun _ => rfl
    · exact .pure _
  | shortString str info =>
    refine Keeps.bind (fun c => ?_) fun _ => .pure _
    rw [obx_shortString_apply]
    split
    · rfl
    · split
      · rfl
      · split
        · rfl
        · exact (keeps_write_uint8 8 _ info).bind (fun _ => Keeps.bind (fun _ => rfl) fun _ => .pure _) c
  | fixedString n str info =>
    refine Keeps.bind (fun c => ?_) fun _ => .pure _
    rw [obx_fixedString_apply]
    split
    · rfl
    · split
      · rfl
      · split
        · rfl
        · rfl
  | namedBlockBegin b info => cases hop
  | namedBlockEnd info => cases hop

theorem construct_reached {size : Nat} {op : Operation} {c : ObCtx} {ends : List Nat} (h : c.Reached size ends)
    (hfit : op.LimitFits c) : ∃ ends', ObCtx.Reached size (reached (op.exec (m := .constructBinary) c)) ends' := by
  by_cases hop : op.IsField
  · exact ⟨ends, h.moved (keeps_write_field hop c)⟩
  · cases op with
    | namedBlockBegin b info =>
      show ∃ ends', ObCtx.Reached size (reached (Obx.namedBlockBegin b info c)) ends'
      have h1 : ObCtx.Reached size { c with bitpos := u32 (c.bitpos + b) } ends := h.moved rfl
      have hbind : Obx.namedBlockBegin b info c = (Obx.blockBegin (u32 (2^b - 1)) info >>= fun _ =>
        Obx.setPositionForWrite c.bitpos) { c with bitpos := u32 (c.bitpos + b) } := rfl
      rw [hbind]
      cases hbegin : Obx.blockBegin (u32 (2^b - 1)) info { c with bitpos := u32 (c.bitpos + b) } with
      | error e c2 =>
        rw [bind_error hbegin]
        exact ⟨ends, obx_blockBegin_error hbegin ▸ h1⟩
      | ok u c2 =>
        rw [bind_ok hbegin]
        rw [← h1.limits.1] at h1
        refine ⟨_, (h1.entered (u32_lt _) hfit hbegin).moved ?_⟩
        unfold Obx.setPositionForWrite
        cases hs : c2.scopeStack with
        | nil => rfl
        | cons s outer =>
          rw [ObCtx.limits, ObCtx.limits, hs]
          rfl
    | namedBlockEnd info =>
      show ∃ ends', ObCtx.Reached size (reached ((Obx.namedBlockEnd info >>= fun _ => pure ()) c)) ends'
      cases hs : c.scopeStack with
      | nil =>
        rw [bind_error (obx_namedBlockEnd_nil hs)]
        exact ⟨ends, h⟩
      | cons s outer =>
        unfold Obx.namedBlockEnd
        rw [bind_assoc, bind_ok (obx_back_cons hs), bind_assoc]
        cases hend : Obx.blockEnd info c with
        | error e c1 =>
          rw [bind_error hend]
          exact ⟨ends, obx_blockEnd_error hend ▸ h⟩
        | ok n c1 =>
          rw [bind_ok hend]
          rw [← h.limits.1, obx_blockEnd_limits hend] at h
          -- the length is written with the limits of the outer block
          refine ⟨_, (h.left hend).moved ?_⟩
          refine Keeps.bind (Keeps.bind (fun _ => rfl) fun _ => ?_) (fun _ => .pure _) c1
          refine Keeps.bind (fun _ => rfl) fun _ => ?_
          exact (keeps_write_uint32 _ _ info).bind fun _ => Keeps.bind (fun _ => rfl) fun _ => .pure _
    | uint => exact absurd trivial hop
    | uintReq => exact absurd trivial hop
    | shortString => exact absurd trivial hop
    | fixedString => exact absurd trivial hop

/-- Runs that go on after exceptions reach what `Reached` says, as long as no length wraps. -/
theorem reached_of_parse_run {size : Nat} {ops : List Operation} {c d : IbCtx} {ends : List Nat} (hc : c.Reached size ends)
    (h : Along (m := .parseBinary) (fun op c => op.LengthFits c) ops c) (hd : Reaches (m := .parseBinary) ops c d) :
    ∃ ends', d.Reached size ends' := by
  induction ops generalizing c ends with
  | nil =>
    cases hd
    exact ⟨ends, hc⟩
  | cons op ops ih =>
    obtain ⟨e, he, hd⟩ := hd
    obtain ⟨ends', hnext⟩ := parse_reached hc h.1
    rw [← (leads_iff (parseBinary_avoids op c)).mp he] at hnext
    exact ih hnext (h.2 e he) hd

theorem reached_of_construct_run {size : Nat} {ops : List Operation} {c d : ObCtx} {ends : List Nat} (hc : c.Reached size ends)
    (h : Along (m := .constructBinary) (fun op c => op.LimitFits c ∧ Avoids .undefined op.exec c) ops c)
    (hd : Reaches (m := .constructBinary) ops c d) : ∃ ends', d.Reached size ends' := by
  induction ops generalizing c ends with
  | nil =>
    cases hd
    exact ⟨ends, hc⟩
  | cons op ops ih =>
    obtain ⟨e, he, hd⟩ := hd
    obtain ⟨ends', hnext⟩ := construct_reached hc h.1.1
    rw [← (leads_iff h.1.2).mp he] at hnext
    exact ih hnext (h.2 e he) hd

end Operation

/-- In the contexts that are reached without a wrapped length, a check accepts what fits over
the integers just if it is unwrapped, and a block that is entered ends where it should. -/
theorem bounds_checks_exact (size e : Nat) (ends : List Nat) :
    (∀ c : IbCtx, c.Reached size (e :: ends) →
      (∀ var w info, ((∃ v c', Ibx.uint var w info c = .ok v c') ↔ c.bitpos + w ≤ e) ↔ Unwrapped c.bitpos w e) ∧
      (∀ length info, c.bitpos % 8 = 0 →
        (((∃ c', Ibx.blockBegin length info c = .ok () c') ↔ c.bitpos + 8 * length ≤ e) ↔
          Unwrapped c.bitpos (8 * length) e) ∧
        ∀ c', Ibx.blockBegin length info c = .ok () c' →
          (c'.bitlimit = c.bitpos + 8 * length ↔ Unwrapped c.bitpos (8 * length) e))) ∧
    (∀ c : ObCtx, c.Reached size (e :: ends) → ∀ var w val info,
      (Obx.uint var w val info c ≠ .error (.exception info "left %d bits, needed %d") c ↔ c.bitpos + w ≤ e) ↔
        Unwrapped c.bitpos w e) := by
  refine ⟨fun c h => ⟨fun var w info => ?_, fun length info hal => ⟨?_, fun c' hbegin => ?_⟩⟩, fun c h var w val info => ?_⟩
  · obtain ⟨rfl, hlt⟩ := h.bitlimit
    rw [← check_exact hlt]
    refine iff_congr ?_ Iff.rfl
    constructor
    · rintro ⟨v, c', hok⟩
      exact (ibx_uint_eq_ok.mp hok).1
    · intro hfit
      exact ⟨_, _, ibx_uint_eq_ok.mpr ⟨hfit, rfl⟩⟩
  · obtain ⟨rfl, hlt⟩ := h.bitlimit
    rw [← check_exact hlt]
    refine iff_congr ?_ Iff.rfl
    constructor
    · rintro ⟨c', hok⟩
      exact ((ibx_blockBegin_eq_ok hal).mp hok).1
    · intro hfit
      exact ⟨_, (ibx_blockBegin_eq_ok hal).mpr ⟨hfit, rfl⟩⟩
  · obtain ⟨rfl, hlt⟩ := h.bitlimit
    obtain ⟨hfit, rfl⟩ := (ibx_blockBegin_eq_ok hal).mp hbegin
    show u32 (c.bitpos + 8 * length) = _ ↔ _
    unfold Unwrapped
    unfold u32 at hfit ⊢
    omega
  · obtain ⟨rfl, hlt⟩ := h.bitlimit
    rw [← check_exact hlt, obx_uint_admits]

theorem bounds_checks_exact_block : (∃ c : IbCtx, c.Reached 4 [16, 32] ∧ c.bitpos = 8 ∧
    ((∃ v c', Ibx.uint .uint16 16 ⟨[], 0⟩ c = .ok v c') ↔ 8 + 16 ≤ 16)) ∧
    ∃ c : ObCtx, c.Reached 4 [32] ∧
      (Obx.uint .uint8 8 (1 : UInt8) ⟨[], 0⟩ c ≠ .error (.exception ⟨[], 0⟩ "left %d bits, needed %d") c ↔ 0 + 8 ≤ 32) := by
  have h : IbCtx.Reached 4 ⟨8, 16, fun _ => 0, [⟨⟨[], 0⟩, 8, 32⟩]⟩ [16, 32] := by
    have h0 : IbCtx.Reached 4 ⟨8, 32, fun _ => 0, []⟩ [32] := (IbCtx.Reached.create (fun _ => 0) (by decide)).moved rfl
    have hbegin : Ibx.blockBegin 1 ⟨[], 0⟩ ⟨8, 32, fun _ => 0, []⟩ = .ok () ⟨8, 16, fun _ => 0, [⟨⟨[], 0⟩, 8, 32⟩]⟩ := rfl
    exact h0.entered (Or.inl (by decide)) hbegin
  have h' : ObCtx.Reached 4 (ObCtx.create (fun _ => 0) 4) [32] := .create _ (by decide)
  refine ⟨⟨_, h, rfl, ?_⟩, _, h', ?_⟩
  · exact (((bounds_checks_exact 4 16 [32]).1 _ h).1 .uint16 16 ⟨[], 0⟩).mpr (Or.inl (by decide))
  · exact ((bounds_checks_exact 4 32 []).2 _ h' .uint8 8 (1 : UInt8) ⟨[], 0⟩).mpr (Or.inl (by decide))

/-- In a buffer of eight bytes a block of 2^29 bytes is entered. -/
theorem huge_block_entered : ∃ c c' : IbCtx, c.Reached 8 [64] ∧ c.bitpos = 32 ∧
    Iox.namedBlockBegin (m := .parseBinary) 32 ⟨[], 0⟩
      (IbCtx.create (fun i => if i = 0 then 0x20 else 0) 8) = .ok () c' ∧
    Ibx.blockBegin (2^29) ⟨[], 0⟩ c = .ok () c' ∧
    ¬ c.bitpos + 8 * 2^29 ≤ 64 ∧ c'.bitlimit = 32 := by
  have h : IbCtx.Reached 8 ⟨32, 64, fun i => if i = 0 then 0x20 else 0, []⟩ [64] :=
    (IbCtx.Reached.create (fun i => if i = 0 then 0x20 else 0) (by decide)).moved rfl
  have hlength : Ibx.uint32 32 ⟨[], 0⟩ (IbCtx.create (fun i => if i = 0 then 0x20 else 0) 8) =
    .ok 0x20000000 ⟨32, 64, fun i => if i = 0 then 0x20 else 0, []⟩ := rfl
  exact ⟨_, _, h, rfl, (bind_ok hlength).trans rfl, rfl, by decide, rfl⟩

end Mopa.Io
