import Mopa.Format

/-! One integer read or written in binary mode: which bits it touches, and when it is
refused. -/
namespace Mopa.Io
open Bits Outcome

def SpansFiveBytes (var : Variable) (w bitpos : Nat) : Prop := var = .uint32 ∧ 32 < bitpos % 8 + w

/-- Binary writing throws for want of room, or for a field over five bytes. -/
def Refused (var : Variable) (w bitpos bitlimit : Nat) : Prop :=
  bitlimit < u32 (bitpos + w) ∨ SpansFiveBytes var w bitpos

/-- A read throws and stays where it is, or gives the bits of the field and passes them.
It throws where writing is refused. -/
structure ReadsField (var : Variable) (w : Nat) (val : var.Word) (info : Info) (c : IbCtx) : Prop where
  reads : match Iox.uint (m := .parseBinary) var w val info c with
    | .ok v c' => Variable.toNat v = toNat ((ofMemory c.data).read c.bitpos w) ∧ c'.bitpos = c.bitpos + w
    | .error e c' => (∃ message, e = .exception info message) ∧ c'.bitpos = c.bitpos
  throws : Fails (Iox.uint (m := .parseBinary) var w val info) c ↔ Refused var w c.bitpos c.bitlimit

section Reading
variable {c : IbCtx} {w : Nat} {info : Info}

theorem iox_uint_past_limit (var : Variable) (val : var.Word) (h : c.bitlimit < u32 (c.bitpos + w)) :
    Iox.uint (m := .parseBinary) var w val info c = .error (.exception info "left %d bits, needed %d") c := by
  cases var with
  | uint8 => exact if_pos h
  | uint16 => exact bind_error (show Ibx.uint32 w info c = _ from if_pos h)
  | uint32 => exact if_pos h

theorem iox_uint_read (var : Variable) (val : var.Word) (hw : w ≤ var.width) (hp : c.bitpos + w < 2^32)
    (hroom : c.bitpos + w ≤ c.bitlimit) (hspan : ¬ SpansFiveBytes var w c.bitpos) :
    ∃ v, Iox.uint (m := .parseBinary) var w val info c = .ok v (c.skip w) ∧
      Variable.toNat v = toNat (c.next w) := by
  have hlt := c.next_lt w
  cases var with
  | uint8 =>
    refine ⟨_, (ibx_uint8_apply hp hw).trans (if_pos hroom), ?_⟩
    exact Nat.mod_eq_of_lt (hlt.trans_le (Nat.pow_le_pow_right (by decide) hw))
  | uint16 =>
    have hw : w ≤ 16 := hw
    have h16 : toNat (c.next w) < 2^16 := hlt.trans_le (Nat.pow_le_pow_right (by decide) hw)
    refine ⟨_, bind_ok ((ibx_uint32_apply hp (by omega)).trans (if_pos hroom)), ?_⟩
    show (UInt32.ofNat (toNat (c.next w))).toUInt16.toNat = _
    rw [UInt32.toNat_toUInt16, UInt32.toNat_ofNat']
    omega
  | uint32 =>
    have hspan : c.bitpos % 8 + w ≤ 32 := Nat.le_of_not_lt fun h => hspan ⟨rfl, h⟩
    refine ⟨_, (ibx_uint32_apply hp hspan).trans (if_pos hroom), ?_⟩
    exact Nat.mod_eq_of_lt (hlt.trans_le (Nat.pow_le_pow_right (by decide) hw))

theorem iox_uint32_stays (val : UInt32) (hroom : u32 (c.bitpos + w) ≤ c.bitlimit) (hspan : 32 < c.bitpos % 8 + w) :
    Iox.uint (m := .parseBinary) .uint32 w val info c = .ok (0 : UInt32) c := by
  show Ibx.uint32 w info c = _
  unfold Ibx.uint32 IbCtx.nocheckUint32
  rw [if_neg (by omega)]
  dsimp only
  rw [if_neg (by omega)]

end Reading

/-- Reading is right except for a 32-bit variable over five bytes within the limit. -/
theorem uint_reads_field (var : Variable) (w : Nat) (val : var.Word) (info : Info) (c : IbCtx) (size : Nat)
    (hsize : size < 2^28) (hpos : c.bitpos ≤ c.bitlimit) (hlimit : c.bitlimit ≤ 8 * size)
    (hw : 1 ≤ w) (hw' : w ≤ var.width) :
    ReadsField var w val info c ↔
      var ≠ .uint32 ∨ c.bitpos % 8 + w ≤ 32 ∨ c.bitlimit < c.bitpos + w := by
  have hw32 : w ≤ 32 := hw'.trans (by cases var <;> decide)
  have hu : u32 (c.bitpos + w) = c.bitpos + w := u32_of_lt (by omega)
  constructor
  · intro h
    by_contra hcond
    simp only [not_or, ne_eq, not_not, not_le, not_lt] at hcond
    obtain ⟨rfl, hspan, hroom⟩ := hcond
    have hreads := h.reads
    rw [iox_uint32_stays (show UInt32 from val) (by omega) hspan] at hreads
    have hstays : c.bitpos = c.bitpos + w := hreads.2
    omega
  · intro hcond
    by_cases hroom : c.bitpos + w ≤ c.bitlimit
    · have hspan : ¬ SpansFiveBytes var w c.bitpos := by
        rintro ⟨rfl, hspan⟩
        rcases hcond with h | h | h
        · exact h rfl
        · omega
        · omega
      obtain ⟨v, hv, hval⟩ := iox_uint_read var val hw' (by omega) hroom hspan
      refine ⟨by rw [hv]; exact ⟨hval, rfl⟩, fun hfails => absurd hfails (not_fails_of_ok hv), ?_⟩
      rintro (h | h)
      · omega
      · exact absurd h hspan
    · have herr : Iox.uint (m := .parseBinary) var w val info c = _ := iox_uint_past_limit var val (by omega)
      exact ⟨by rw [herr]; exact ⟨⟨_, rfl⟩, rfl⟩, fun _ => Or.inl (by omega), fun _ => ⟨_, _, herr⟩⟩

theorem uint_reads_field_four_bytes :
    ReadsField .uint32 32 (0 : UInt32) ⟨[], 0⟩ ⟨0, 32, fun _ => 0xff, []⟩ ↔
      Variable.uint32 ≠ .uint32 ∨ 0 % 8 + 32 ≤ 32 ∨ 32 < 0 + 32 :=
  uint_reads_field .uint32 32 (0 : UInt32) ⟨[], 0⟩ ⟨0, 32, fun _ => 0xff, []⟩ 4 (by decide) (by decide)
    (by decide) (by decide) (by decide)

/-- 32 bits from bit 1 on: the value is 0 and nothing is consumed. -/
theorem uint32_five_bytes_unread :
    Iox.uint (m := .parseBinary) .uint32 32 (0 : UInt32) ⟨[], 0⟩ ⟨1, 40, fun _ => 0xff, []⟩ =
        .ok (0 : UInt32) ⟨1, 40, fun _ => 0xff, []⟩ ∧
      ¬ ReadsField .uint32 32 (0 : UInt32) ⟨[], 0⟩ ⟨1, 40, fun _ => 0xff, []⟩ := by
  have hstays : Iox.uint (m := .parseBinary) .uint32 32 (0 : UInt32) ⟨[], 0⟩ ⟨1, 40, fun _ => 0xff, []⟩ = _ :=
    iox_uint32_stays 0 (by decide) (by decide)
  refine ⟨hstays, fun h => ?_⟩
  have hreads := h.reads
  rw [hstays] at hreads
  exact absurd hreads.2 (show (1 : Nat) ≠ 1 + 32 by decide)

/-- A write throws and changes nothing, or the value fits, stands in the field alone and
the field is passed. -/
def WritesField (var : Variable) (w : Nat) (val : var.Word) (info : Info) (c : ObCtx) : Prop :=
  match Iox.uint (m := .constructBinary) var w val info c with
  | .ok _ c' => Variable.toNat val < 2^w ∧
    (ofMemory c'.data).read c.bitpos w = ofNat w (Variable.toNat val) ∧
    (∀ i, i < c.bitpos ∨ c.bitpos + w ≤ i → ofMemory c'.data i = ofMemory c.data i) ∧
    c'.bitpos = c.bitpos + w
  | .error e c' => (∃ message, e = .exception info message) ∧ c'.data = c.data ∧ c'.bitpos = c.bitpos

section Writing
variable {c : ObCtx} {w : Nat} {info : Info}

theorem iox_uint_refused (var : Variable) (val : var.Word) (h : Refused var w c.bitpos c.bitlimit) :
    ∃ message, Iox.uint (m := .constructBinary) var w val info c = .error (.exception info message) c := by
  by_cases hlimit : c.bitlimit < u32 (c.bitpos + w)
  · refine ⟨"left %d bits, needed %d", ?_⟩
    cases var with
    | uint8 => exact bind_error (show Obx.uint8 w val info c = _ from if_pos hlimit)
    | uint16 => exact bind_error (show Obx.uint16 w val info c = _ from if_pos hlimit)
    | uint32 => exact bind_error (show Obx.uint32 w val info c = _ from if_pos hlimit)
  · obtain ⟨rfl, hspan⟩ := h.resolve_left hlimit
    refine ⟨"value spans over 5 bytes", bind_error (show Obx.uint32 w val info c = _ from ?_)⟩
    exact (if_neg hlimit).trans (if_neg (Nat.not_le.mpr hspan))

theorem iox_uint_written (var : Variable) (val : var.Word) (h : ¬ Refused var w c.bitpos c.bitlimit) :
    Iox.uint (m := .constructBinary) var w val info c = .ok val (match var, val with
      | .uint8, val => c.nocheckUint8 w val
      | .uint16, val => c.nocheckUint16 w val
      | .uint32, val => c.nocheckUint32 w val) := by
  have hroom : ¬ c.bitlimit < u32 (c.bitpos + w) := fun hlimit => h (Or.inl hlimit)
  cases var with
  | uint8 => exact bind_ok (show Obx.uint8 w val info c = _ from if_neg hroom)
  | uint16 => exact bind_ok (show Obx.uint16 w val info c = _ from if_neg hroom)
  | uint32 =>
    have hspan : c.bitpos % 8 + w ≤ 32 := Nat.le_of_not_lt fun hspan => h (Or.inr ⟨rfl, hspan⟩)
    exact bind_ok (show Obx.uint32 w val info c = _ from (if_neg hroom).trans (if_pos hspan))

theorem iox_uint_fits (var : Variable) (val : var.Word) (hw : 1 ≤ w) (hw' : w ≤ var.width)
    (h : ¬ Refused var w c.bitpos c.bitlimit) (hv : Variable.toNat val < 2^w) :
    ∃ c', Iox.uint (m := .constructBinary) var w val info c = .ok val c' ∧
      ofMemory c'.data = (ofMemory c.data).write c.bitpos (ofNat w (Variable.toNat val)) ∧
      c'.bitpos = u32 (c.bitpos + w) := by
  refine ⟨_, iox_uint_written var val h, ?_⟩
  cases var with
  | uint8 => exact ⟨nocheckUint8_write c w val hw' hv, rfl⟩
  | uint16 => exact ⟨nocheckUint16_write c w val hw' hv, rfl⟩
  | uint32 =>
    have hspan : c.bitpos % 8 + w ≤ 32 := Nat.le_of_not_lt fun hspan => h (Or.inr ⟨rfl, hspan⟩)
    exact nocheckUint32_write c w val hw hspan hv

theorem iox_uint_bitpos (var : Variable) (val : var.Word) (h : ¬ Refused var w c.bitpos c.bitlimit) :
    ∃ c', Iox.uint (m := .constructBinary) var w val info c = .ok val c' ∧ c'.bitpos = u32 (c.bitpos + w) := by
  refine ⟨_, iox_uint_written var val h, ?_⟩
  cases var with
  | uint8 => rfl
  | uint16 => rfl
  | uint32 =>
    have hspan : c.bitpos % 8 + w ≤ 32 := Nat.le_of_not_lt fun hspan => h (Or.inr ⟨rfl, hspan⟩)
    show (c.nocheckUint32 w val).bitpos = _
    unfold ObCtx.nocheckUint32
    rw [if_pos hspan]

end Writing

/-- Writing is right except for a value that does not fit its width, and a position that
wraps, where the write is not refused. -/
theorem uint_writes_field (var : Variable) (w : Nat) (val : var.Word) (info : Info) (c : ObCtx)
    (hw : 1 ≤ w) (hw' : w ≤ var.width) :
    WritesField var w val info c ↔
      Refused var w c.bitpos c.bitlimit ∨ (Variable.toNat val < 2^w ∧ c.bitpos + w < 2^32) := by
  unfold WritesField
  by_cases href : Refused var w c.bitpos c.bitlimit
  · obtain ⟨message, herr⟩ := iox_uint_refused var val href
    rw [herr]
    exact ⟨fun _ => Or.inl href, fun _ => ⟨⟨message, rfl⟩, rfl, rfl⟩⟩
  constructor
  · intro h
    obtain ⟨c', hc', hpos⟩ := iox_uint_bitpos var val href
    rw [hc'] at h
    obtain ⟨hv, -, -, hadv⟩ := h
    rw [hpos] at hadv
    exact Or.inr ⟨hv, by have := Nat.mod_lt (c.bitpos + w) (show 0 < 2^32 by decide); unfold u32 at hadv; omega⟩
  · intro h
    obtain ⟨hv, hwrap⟩ := h.resolve_left href
    obtain ⟨c', hc', hdata, hpos⟩ := iox_uint_fits var val hw hw' href hv
    rw [hc']
    refine ⟨hv, ?_, fun i hi => ?_, by rw [hpos, u32_of_lt hwrap]⟩
    · have hread := Memory.read_write_same (ofMemory c.data) c.bitpos (ofNat w (Variable.toNat val))
      rwa [length_ofNat, ← hdata] at hread
    · rw [hdata]
      exact Memory.write_outside _ _ _ i (by rwa [length_ofNat])

theorem uint_writes_field_two_bits :
    WritesField .uint8 2 (3 : UInt8) ⟨[], 0⟩ ⟨6, 8, fun _ => 0, []⟩ ↔
      Refused .uint8 2 6 8 ∨ (3 < 2^2 ∧ 6 + 2 < 2^32) :=
  uint_writes_field .uint8 2 (3 : UInt8) ⟨[], 0⟩ ⟨6, 8, fun _ => 0, []⟩ (by decide) (by decide)

/-- The value 7 in two bits sets a bit in front of them. -/
theorem uint8_spills :
    (Iox.uint (m := .constructBinary) .uint8 2 (7 : UInt8) ⟨[], 0⟩ ⟨6, 8, fun _ => 0, []⟩ =
        .ok (7 : UInt8) ((⟨6, 8, fun _ => 0, []⟩ : ObCtx).nocheckUint8 2 7) ∧
      ofMemory ((⟨6, 8, fun _ => 0, []⟩ : ObCtx).nocheckUint8 2 7).data 5 = true) ∧
      ¬ WritesField .uint8 2 (7 : UInt8) ⟨[], 0⟩ ⟨6, 8, fun _ => 0, []⟩ := by
  have hwritten : Iox.uint (m := .constructBinary) .uint8 2 (7 : UInt8) ⟨[], 0⟩ ⟨6, 8, fun _ => 0, []⟩ =
      .ok (7 : UInt8) ((⟨6, 8, fun _ => 0, []⟩ : ObCtx).nocheckUint8 2 7) := rfl
  refine ⟨⟨hwritten, by decide⟩, fun h => ?_⟩
  unfold WritesField at h
  rw [hwritten] at h
  exact absurd h.1 (by decide)

end Mopa.Io
