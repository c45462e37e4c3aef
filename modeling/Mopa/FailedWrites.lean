import Mopa.FieldAccess
import Mopa.TextConstruction

/-! Fields and strings that cannot be written: whatever the reason, the context stays as it was,
so that what was constructed before can be used. -/
namespace Mopa.Io
open Outcome

def Atomic {σ α : Type} (x : EStateM Halt σ α) (c : σ) : Prop := ∀ e c', x c = .error e c' → c' = c

theorem Atomic.error {σ α : Type} {x : EStateM Halt σ α} {c : σ} {e : Halt} (h : x c = .error e c) : Atomic x c := by
  intro e' c' h'
  rw [h] at h'
  cases h'
  rfl

theorem Atomic.ok {σ α : Type} {x : EStateM Halt σ α} {c c' : σ} {a : α} (h : x c = .ok a c') : Atomic x c := by
  intro e' c'' h'
  rw [h] at h'
  cases h'

/-- What the operations that write fields and strings do when they fail. -/
structure WritesAtomically {m : Mode} (c : Ctx m) : Prop where
  uint : ∀ (var : Variable) (w : Nat) (val : var.Word) (info : Info), 1 ≤ w → w ≤ var.width →
    Atomic (Iox.uint (m := m) var w val info) c
  shortString : ∀ (str : List UInt8) (info : Info), str.length < 2^28 → Atomic (Iox.shortStringIo (m := m) str info) c
  fixedString : ∀ (numChars : Nat) (str : List UInt8) (info : Info), str.length < 2^28 →
    Atomic (Iox.fixedStringIo numChars (m := m) str info) c

section Binary
variable {c : ObCtx} {info : Info}

theorem obx_uint_atomic (var : Variable) (w : Nat) (val : var.Word) :
    Atomic (Iox.uint (m := .constructBinary) var w val info) c := by
  by_cases h : Refused var w c.bitpos c.bitlimit
  · obtain ⟨message, herror⟩ := iox_uint_refused var val h
    exact .error herror
  · exact .ok (iox_uint_written var val h)

theorem obx_shortString_atomic {str : List UInt8} (hpos : c.bitpos < 2^30) (hlen : str.length < 2^28) :
    Atomic (Iox.shortStringIo (m := .constructBinary) str info) c := by
  have happly := obx_shortString_apply str info c
  rw [u32_of_lt (show str.length < 2^32 by omega)] at happly
  split at happly
  · exact .error happly
  · split at happly
    · exact .error happly
    · next hshort =>
      rw [u32_of_lt (show (str.length + 1) * 8 < 2^32 by omega)] at happly
      rw [u32_of_lt (show c.bitpos + (str.length + 1) * 8 < 2^32 by omega)] at happly
      split at happly
      · exact .error happly
      · next hroom =>
        have hlength : Obx.uint8 8 (UInt8.ofNat str.length) info c = .ok () (c.nocheckUint8 8 (UInt8.ofNat str.length)) :=
          if_neg (by rw [u32_of_lt (by omega)]; omega)
        rw [bind_ok hlength] at happly
        exact .ok happly

theorem obx_fixedString_atomic (numChars : Nat) (str : List UInt8) :
    Atomic (Iox.fixedStringIo numChars (m := .constructBinary) str info) c := by
  have happly := obx_fixedString_apply numChars str info c
  split at happly
  · exact .error happly
  · split at happly
    · exact .error happly
    · split at happly
      · exact .error happly
      · exact .ok happly

end Binary

section Text
variable {c : OcCtx} {info : Info}

theorem ocx_uint_atomic (var : Variable) (w : Nat) (val : var.Word) :
    Atomic (Iox.uint (m := .constructText) var w val info) c := by
  have hline (v : UInt32) {α : Type} (a : α) : Atomic (Ocx.uint w v info >>= fun _ => pure a) c := by
    have happly : Ocx.uint w v info c = _ := ocx_uint_apply v
    split at happly
    · exact .error (bind_error happly)
    · split at happly
      · exact .error (bind_error happly)
      · exact .ok (bind_ok happly)
  cases var with
  | uint8 => exact hline _ _
  | uint16 => exact hline _ _
  | uint32 => exact hline _ _

theorem ocx_shortString_atomic (str : List UInt8) : Atomic (Iox.shortStringIo (m := .constructText) str info) c := by
  have happly : Iox.shortStringIo (m := .constructText) str info c = _ := ocx_shortString_apply str
  split at happly
  · exact .error happly
  · split at happly
    · exact .error happly
    · split at happly
      · exact .error happly
      · exact .ok happly

theorem ocx_fixedString_atomic (numChars : Nat) (str : List UInt8) :
    Atomic (Iox.fixedStringIo numChars (m := .constructText) str info) c := by
  have happly : Iox.fixedStringIo numChars (m := .constructText) str info c = _ := ocx_fixedString_apply numChars str
  split at happly
  · exact .error happly
  · split at happly
    · exact .error happly
    · split at happly
      · exact .error happly
      · split at happly
        · exact .error happly
        · exact .ok happly

end Text

/-- In both modes of construction a field or a string that cannot be written changes nothing. -/
theorem failed_writes_change_nothing :
    (∀ c : ObCtx, c.bitpos < 2^30 → WritesAtomically (m := .constructBinary) c) ∧
    ∀ c : OcCtx, c.bitpos < 2^30 → WritesAtomically (m := .constructText) c := by
  refine ⟨fun c hpos => ⟨?_, ?_, ?_⟩, fun c hpos => ⟨?_, ?_, ?_⟩⟩
  · exact fun var w val info _ _ => obx_uint_atomic var w val
  · exact fun str info hlen => obx_shortString_atomic hpos hlen
  · exact fun numChars str info _ => obx_fixedString_atomic numChars str
  · exact fun var w val info _ _ => ocx_uint_atomic var w val
  · exact fun str info _ => ocx_shortString_atomic str
  · exact fun numChars str info _ => ocx_fixedString_atomic numChars str

theorem failed_writes_change_nothing_two_bytes :
    ∃ e c', Iox.shortStringIo (m := .constructBinary) [104, 105] (some ⟨chars "name", 0⟩) (ObCtx.create (fun _ => 0) 2) =
      .error e c' ∧ c' = ObCtx.create (fun _ => 0) 2 :=
  ⟨_, _, rfl, (failed_writes_change_nothing.1 (ObCtx.create (fun _ => 0) 2) (by decide)).shortString
    [104, 105] ⟨chars "name", 0⟩ (by decide) _ _ rfl⟩

end Mopa.Io
