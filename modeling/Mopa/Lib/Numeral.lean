import Mathlib.Data.List.Basic
import Mathlib.Data.UInt

/-! Numerals: the digits of a number, most significant first, and their characters. -/
namespace Numeral

/-- Digits of `n`, at most `len` of them. -/
def digits (base : Nat) : Nat → Nat → List Nat
  | 0, _ => []
  | len+1, n => if n < base then [n] else digits base len (n / base) ++ [n % base]

def char (d : Nat) : UInt8 := if d < 10 then UInt8.ofNat (48 + d) else UInt8.ofNat (87 + d)

def text (base len n : Nat) : List UInt8 := (digits base len n).map char

theorem length_digits_le (base len n : Nat) : (digits base len n).length ≤ len := by
  induction len generalizing n with
  | zero => exact le_rfl
  | succ len ih =>
    unfold digits
    split
    · exact Nat.succ_le_succ (Nat.zero_le len)
    · rw [List.length_append]
      exact Nat.succ_le_succ (ih _)

theorem length_text_le (base len n : Nat) : (text base len n).length ≤ len :=
  List.length_map char |>.trans_le (length_digits_le base len n)

/-- The number with the digits behind those of `v`. -/
def value (base : Nat) : Nat → List Nat → Nat
  | v, [] => v
  | v, d :: ds => value base (v * base + d) ds

theorem value_append (base v d : Nat) (ds : List Nat) : value base v (ds ++ [d]) = value base v ds * base + d := by
  induction ds generalizing v with
  | nil => rfl
  | cons d' ds ih => exact ih (v * base + d')

theorem le_value {base : Nat} (hb : 1 ≤ base) (v : Nat) (ds : List Nat) : v ≤ value base v ds := by
  induction ds generalizing v with
  | nil => exact le_rfl
  | cons d ds ih => exact (Nat.le_mul_of_pos_right v hb).trans ((Nat.le_add_right _ d).trans (ih _))

theorem value_le {α : Type} {base v v' : Nat} {f g : α → Nat} {s : List α} (hv : v ≤ v') (h : ∀ a ∈ s, f a ≤ g a) :
    value base v (s.map f) ≤ value base v' (s.map g) := by
  induction s generalizing v v' with
  | nil => exact hv
  | cons a s ih =>
    refine ih ?_ fun b hb => h b (List.mem_cons_of_mem a hb)
    exact Nat.add_le_add (Nat.mul_le_mul_right base hv) (h a List.mem_cons_self)

theorem value_lt_of_start {α : Type} {base v v' : Nat} (hb : 1 ≤ base) {f g : α → Nat} {s : List α} (hv : v < v')
    (h : ∀ a ∈ s, f a ≤ g a) : value base v (s.map f) < value base v' (s.map g) := by
  induction s generalizing v v' with
  | nil => exact hv
  | cons a s ih =>
    refine ih ?_ fun b hb => h b (List.mem_cons_of_mem a hb)
    exact Nat.add_lt_add_of_lt_of_le (Nat.mul_lt_mul_of_pos_right hv hb) (h a List.mem_cons_self)

theorem value_lt {α : Type} {base v : Nat} (hb : 1 ≤ base) {f g : α → Nat} {s : List α} (h : ∀ a ∈ s, f a ≤ g a)
    (hlt : ∃ a ∈ s, f a < g a) : value base v (s.map f) < value base v (s.map g) := by
  obtain ⟨a, ha, hlt⟩ := hlt
  induction s generalizing v with
  | nil => cases ha
  | cons b s ih =>
    have hs : ∀ a ∈ s, f a ≤ g a := fun a ha => h a (List.mem_cons_of_mem b ha)
    rw [List.map_cons, List.map_cons, value, value]
    rcases List.mem_cons.mp ha with rfl | ha
    · exact value_lt_of_start hb (Nat.add_lt_add_left hlt _) hs
    · refine (ih hs ha).trans_le ?_
      exact value_le (Nat.add_le_add_left (h b List.mem_cons_self) _) fun a _ => le_rfl

theorem digits_value {base len n : Nat} (h : n < base^len) : value base 0 (digits base len n) = n := by
  induction len generalizing n with
  | zero =>
    obtain rfl : n = 0 := Nat.lt_one_iff.mp h
    rfl
  | succ len ih =>
    rw [digits]
    split
    · show 0 * base + n = n
      rw [Nat.zero_mul, Nat.zero_add]
    · rw [value_append, ih (Nat.div_lt_of_lt_mul (by rwa [pow_succ, Nat.mul_comm] at h)), Nat.div_add_mod']

theorem digits_ne_nil {base len : Nat} (n : Nat) (hlen : 1 ≤ len) : digits base len n ≠ [] := by
  obtain ⟨len, rfl⟩ := Nat.exists_eq_succ_of_ne_zero (by omega : len ≠ 0)
  rw [digits]
  split
  · exact List.cons_ne_nil _ _
  · simp

theorem digits_place {base len n d : Nat} (h : d ∈ digits base len n) : ∃ k, d = n / base^k % base := by
  induction len generalizing n with
  | zero => cases h
  | succ len ih =>
    rw [digits] at h
    split at h
    · next hn =>
      obtain rfl := List.mem_singleton.mp h
      exact ⟨0, by rw [pow_zero, Nat.div_one, Nat.mod_eq_of_lt hn]⟩
    · rcases List.mem_append.mp h with h | h
      · obtain ⟨k, hk⟩ := ih h
        exact ⟨k+1, by rw [hk, Nat.div_div_eq_div_mul, pow_succ, Nat.mul_comm base]⟩
      · exact ⟨0, by rw [pow_zero, Nat.div_one, List.mem_singleton.mp h]⟩

theorem digits_lt {base len n d : Nat} (hb : 0 < base) (h : d ∈ digits base len n) : d < base := by
  obtain ⟨k, rfl⟩ := digits_place h
  exact Nat.mod_lt _ hb

theorem char_toNat {d : Nat} (h : d < 10) : (char d).toNat = 48 + d := by
  rw [char, if_pos h, UInt8.toNat_ofNat', Nat.mod_eq_of_lt (by omega)]

end Numeral
