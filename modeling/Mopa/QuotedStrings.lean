import Mopa.TextProgress

/-! Quoted strings: which texts `parse_string` takes between its quotes, and that what
`produce_string` prints is one of them. -/
namespace Mopa.Io
open Outcome Icx OcCtx

/-- The text between quotes, item by item, with the characters that it stands for. -/
inductive Syntax.Denotes : List UInt8 → List UInt8 → Prop
  | nil : Denotes [] []
  | plain {ch : UInt8} {body str : List UInt8} : 32 ≤ ch → ch ≤ 126 → ch ≠ 39 → ch ≠ 92 → Denotes body str →
      Denotes (ch :: body) (ch :: str)
  | escaped {ch : UInt8} {body str : List UInt8} : ch = 39 ∨ ch = 92 ∨ ch = 13 ∨ ch = 10 → Denotes body str →
      Denotes (92 :: ch :: body) (ch :: str)
  | octal {a b c : Nat} {body str : List UInt8} : a < 8 → b < 8 → c < 8 → 64 * a + 8 * b + c ≤ 255 → Denotes body str →
      Denotes (92 :: Numeral.char a :: Numeral.char b :: Numeral.char c :: body)
        (UInt8.ofNat (64 * a + 8 * b + c) :: str)

namespace Icx
open Syntax

theorem isEscaped_iff (ch : UInt8) : isEscaped ch = true ↔ ch = 39 ∨ ch = 92 ∨ ch = 13 ∨ ch = 10 := by
  simp only [isEscaped, Bool.or_eq_true, beq_iff_eq, or_assoc]

theorem le_126_iff (ch : UInt8) : ch ≤ 126 ↔ ch < 127 := by
  rw [UInt8.le_iff_toNat_le, UInt8.lt_iff_toNat_lt]
  exact Nat.lt_succ_iff.symm

theorem isOctal_char {a : Nat} (h : a < 8) : isOctal (Numeral.char a) = true := by
  rw [isOctal, Bool.and_eq_true, decide_eq_true_iff, decide_eq_true_iff, UInt8.le_iff_toNat_le, UInt8.le_iff_toNat_le,
    Numeral.char_toNat (by omega)]
  exact ⟨Nat.le_add_right 48 a, show 48 + a ≤ 55 by omega⟩

theorem not_escaped_of_octal {ch : UInt8} (h : isOctal ch = true) : ¬ isEscaped ch = true := by
  intro hescaped
  rcases (isEscaped_iff ch).mp hescaped with rfl | rfl | rfl | rfl <;> cases h

theorem unquote_octal {a b c : Nat} (ha : a < 8) (hb : b < 8) (hc : c < 8) (h : 64 * a + 8 * b + c ≤ 255)
    (s text : List UInt8) : unquote s (92 :: Numeral.char a :: Numeral.char b :: Numeral.char c :: text) =
      unquote (s ++ [UInt8.ofNat (64 * a + 8 * b + c)]) text := by
  have hval : ((Numeral.char a).toNat - 48) * 8 + ((Numeral.char b).toNat - 48) = a * 8 + b := by
    rw [Numeral.char_toNat (by omega), Numeral.char_toNat (by omega)]
    omega
  have hsum : (a * 8 + b) * 8 + ((Numeral.char c).toNat - 48) = 64 * a + 8 * b + c := by
    rw [Numeral.char_toNat (by omega)]
    omega
  rw [unquote.eq_def]
  dsimp only
  rw [if_neg (by decide), if_pos rfl]
  simp only [not_escaped_of_octal (isOctal_char ha), isOctal_char ha, isOctal_char hb, isOctal_char hc, hval, hsum,
    Bool.not_true, Bool.false_eq_true, if_false]
  exact if_neg (not_lt.mpr h)

theorem unquote_denotes {body str : List UInt8} (h : Denotes body str) (s text : List UInt8) :
    unquote s (body ++ 39 :: text) = .closed (s ++ str) text := by
  induction h generalizing s with
  | nil =>
    rw [List.nil_append, unquote.eq_def, List.append_nil]
    exact if_pos rfl
  | plain hlow hhigh hquote hslash _ ih =>
    rw [List.cons_append, unquote.eq_def]
    dsimp only
    rw [if_neg hquote, if_neg hslash, if_pos ⟨hlow, (le_126_iff _).mp hhigh⟩, ih, List.append_assoc, List.singleton_append]
  | escaped hch _ ih =>
    rw [List.cons_append, List.cons_append, unquote.eq_def]
    dsimp only
    rw [if_neg (by decide), if_pos rfl, if_pos ((isEscaped_iff _).mpr hch), ih, List.append_assoc, List.singleton_append]
  | octal ha hb hc hsum _ ih =>
    exact (unquote_octal ha hb hc hsum s _).trans ((ih _).trans (by rw [List.append_assoc, List.singleton_append]))

end Icx

namespace OcCtx
open Syntax

theorem octal_digit (k : UInt8) : (48 : UInt8) + (k &&& 7) = Numeral.char (k.toNat % 8) := by
  have h7 : (k &&& 7).toNat = k.toNat % 8 := (UInt8.toNat_and k 7).trans (Nat.and_two_pow_sub_one_eq_mod k.toNat 3)
  refine UInt8.toNat_inj.mp ?_
  rw [Numeral.char_toNat (by omega), UInt8.toNat_add, h7]
  show (48 + k.toNat % 8) % 256 = _
  omega

theorem denotes_quoteChar (ch : UInt8) {body str : List UInt8} (h : Denotes body str) :
    Denotes (quoteChar ch ++ body) (ch :: str) := by
  unfold quoteChar
  split
  · next hescaped => exact .escaped ((isEscaped_iff ch).mp hescaped) h
  · next hescaped =>
    rw [isEscaped_iff] at hescaped
    split
    · next hrange =>
      exact .plain hrange.1 ((le_126_iff ch).mpr hrange.2) (fun h => hescaped (Or.inl h))
        (fun h => hescaped (Or.inr (Or.inl h))) h
    · have hch := ch.toNat_lt
      have h6 : (ch >>> 6).toNat = ch.toNat / 2^6 := (UInt8.toNat_shiftRight ch 6).trans (Nat.shiftRight_eq_div_pow _ 6)
      have h3 : (ch >>> 3).toNat = ch.toNat / 2^3 := (UInt8.toNat_shiftRight ch 3).trans (Nat.shiftRight_eq_div_pow _ 3)
      have hsum : 64 * ((ch >>> 6).toNat % 8) + 8 * ((ch >>> 3).toNat % 8) + ch.toNat % 8 = ch.toNat := by
        rw [h6, h3]
        omega
      have hdenotes := Denotes.octal (Nat.mod_lt (ch >>> 6).toNat (by decide)) (Nat.mod_lt (ch >>> 3).toNat (by decide))
        (Nat.mod_lt ch.toNat (by decide)) (by omega) h
      rw [hsum, UInt8.ofNat_toNat] at hdenotes
      rw [octal_digit, octal_digit, octal_digit]
      exact hdenotes

theorem denotes_quoted (str : List UInt8) : Denotes (str.flatMap quoteChar) str := by
  induction str with
  | nil => exact .nil
  | cons ch str ih =>
    rw [List.flatMap_cons]
    exact denotes_quoteChar ch ih

end OcCtx

namespace Icx
open Syntax

/-- What `parse_string` passes over in front of the quoted text. -/
def openQuote (info : Option Info) : Icx Unit := do
  discard (expect (info.elim [] Info.name))
  discard (expect (chars ":"))
  discard (expect (chars "'"))

theorem parseString_open {info : Option Info} {c c1 : IcCtx} (hal : c.bitpos % 8 = 0) (h : openQuote info c = .ok () c1) :
    parseString info c = match unquote [] c1.parsePos with
      | .closed s rest => .ok s { c1 with parsePos := rest }
      | .refused message rest => .error (.exception (info.getD emptyInfo) message) { c1 with parsePos := rest }
      | .overread => .error .undefined c1 := by
  obtain ⟨_, c2, h1, h⟩ := bind_eq_ok.mp h
  obtain ⟨_, c3, h2, h3⟩ := bind_eq_ok.mp h
  have hloop : parseString info c = _ := if_neg (not_not.mpr hal)
  rw [hloop]
  exact (bind_ok h1).trans ((bind_ok h2).trans (bind_ok h3))

end Icx

end Mopa.Io
