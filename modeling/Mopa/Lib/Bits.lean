import Mopa.Lib.Memory
import Mathlib.Data.Nat.Bitwise
import Mathlib.Data.UInt
import Mathlib.Tactic.Ring

/-! Bit strings, most significant bit first: of numbers, of bytes and of a byte
memory, whose bits are numbered from the most significant bit of byte 0 on. -/
namespace Bits

/-- The `w` low bits of `v`. -/
def ofNat : Nat → Nat → List Bool
  | 0, _ => []
  | w+1, v => v.testBit w :: ofNat w v

def toNat : List Bool → Nat
  | [] => 0
  | b :: bs => b.toNat * 2^bs.length + toNat bs

def ofBytes (bytes : List UInt8) : List Bool := bytes.flatMap fun b => ofNat 8 b.toNat

def ofMemory (m : Memory UInt8) : Memory Bool := fun p => (m (p/8)).toNat.testBit (7 - p%8)

def toMemory (b : Memory Bool) : Memory UInt8 := fun i => UInt8.ofNat (toNat (b.read (8*i) 8))

@[simp] theorem ofNat_zero (v : Nat) : ofNat 0 v = [] := rfl

@[simp] theorem length_ofNat (w v : Nat) : (ofNat w v).length = w := by
  induction w with
  | zero => rfl
  | succ w ih => rw [ofNat, List.length_cons, ih]

theorem ofNat_getElem? (w v i : Nat) (h : i < w) : (ofNat w v)[i]? = some (v.testBit (w-1-i)) := by
  induction w generalizing i with
  | zero => omega
  | succ w ih =>
    cases i with
    | zero => simp [ofNat]
    | succ i => rw [ofNat, List.getElem?_cons_succ, ih i (by omega), show w-1-i = w+1-1-(i+1) by omega]

theorem ofNat_getElem (w v i : Nat) (h : i < (ofNat w v).length) :
    (ofNat w v)[i] = v.testBit (w-1-i) := by
  have he := ofNat_getElem? w v i (by simpa using h)
  rw [List.getElem?_eq_getElem h] at he
  exact Option.some.inj he

theorem ofNat_congr (w : Nat) {v v' : Nat} (h : ∀ i, i < w → v.testBit i = v'.testBit i) :
    ofNat w v = ofNat w v' := by
  induction w with
  | zero => rfl
  | succ w ih => rw [ofNat, ofNat, h w (by omega), ih fun i hi => h i (by omega)]

theorem ofNat_clear (w : Nat) : ofNat w 0 = List.replicate w false := by
  induction w with
  | zero => rfl
  | succ w ih => rw [ofNat, Nat.zero_testBit, ih, List.replicate_succ]

theorem ofNat_xor (w v v' : Nat) : ofNat w (v ^^^ v') = List.zipWith xor (ofNat w v) (ofNat w v') := by
  induction w with
  | zero => rfl
  | succ w ih => rw [ofNat, Nat.testBit_xor, ih, ofNat, ofNat, List.zipWith_cons_cons]

theorem ofNat_mod (w v : Nat) : ofNat w (v % 2^w) = ofNat w v :=
  ofNat_congr w fun i hi => by simp [Nat.testBit_mod_two_pow, hi]

theorem ofNat_append (a b v : Nat) : ofNat (a+b) v = ofNat a (v >>> b) ++ ofNat b v := by
  induction a with
  | zero => simp
  | succ a ih =>
    rw [Nat.succ_add, ofNat, ih, ofNat, Nat.testBit_shiftRight, Nat.add_comm b a]
    rfl

theorem toNat_lt (bs : List Bool) : toNat bs < 2^bs.length := by
  induction bs with
  | nil => simp [toNat]
  | cons b bs ih =>
    have hb : b.toNat ≤ 1 := Bool.toNat_le b
    rw [toNat, List.length_cons, pow_succ]
    nlinarith

theorem toNat_append (as bs : List Bool) : toNat (as ++ bs) = toNat as * 2^bs.length + toNat bs := by
  induction as with
  | nil => simp [toNat]
  | cons a as ih =>
    rw [List.cons_append, toNat, ih, toNat, List.length_append, pow_add]
    ring

theorem toNat_ofNat (w v : Nat) : toNat (ofNat w v) = v % 2^w := by
  induction w with
  | zero => simp [toNat, Nat.mod_one]
  | succ w ih =>
    rw [ofNat, toNat, length_ofNat, ih, Nat.toNat_testBit, pow_succ, Nat.mod_mul]
    ring

theorem toNat_ofNat_of_lt {w v : Nat} (h : v < 2^w) : toNat (ofNat w v) = v := by
  rw [toNat_ofNat, Nat.mod_eq_of_lt h]

theorem testBit_toNat (bs : List Bool) (i : Nat) (h : i < bs.length) :
    (toNat bs).testBit i = bs.get ⟨bs.length-1-i, by omega⟩ := by
  induction bs with
  | nil => simp at h
  | cons b bs ih =>
    rw [List.length_cons] at h
    rw [toNat, Nat.mul_comm, Nat.testBit_two_pow_mul_add _ (toNat_lt bs)]
    by_cases hi : i < bs.length
    · rw [if_pos hi, ih hi, List.get_eq_getElem, List.get_eq_getElem]
      have hne : ¬ (b :: bs).length - 1 - i = 0 := by
        rw [List.length_cons]
        omega
      rw [List.getElem_cons, dif_neg hne]
      congr 1
      show bs.length - 1 - i = bs.length + 1 - 1 - i - 1
      omega
    · obtain rfl : i = bs.length := by omega
      rw [if_neg hi]
      cases b <;> simp

theorem ofNat_toNat (bs : List Bool) : ofNat bs.length (toNat bs) = bs := by
  refine List.ext_getElem (length_ofNat _ _) fun i hi hi' => ?_
  rw [ofNat_getElem, testBit_toNat _ _ (by omega), List.get_eq_getElem]
  congr 1
  show bs.length - 1 - (bs.length - 1 - i) = i
  omega

theorem ofNat_inj {w v v' : Nat} (hv : v < 2^w) (hv' : v' < 2^w) (h : ofNat w v = ofNat w v') :
    v = v' := by
  rw [← toNat_ofNat_of_lt hv, h, toNat_ofNat_of_lt hv']

theorem toNat_slice {n s w : Nat} (v : Nat) (h : s + w ≤ n) :
    toNat (((ofNat n v).drop s).take w) = ((v <<< s) % 2^n) >>> (n-w) := by
  apply Nat.eq_of_testBit_eq
  intro i
  have hlen : (((ofNat n v).drop s).take w).length = w := by
    rw [List.length_take, List.length_drop, length_ofNat]
    omega
  by_cases hi : i < w
  · rw [testBit_toNat _ _ (by rw [hlen]; exact hi)]
    simp only [List.get_eq_getElem, hlen, List.getElem_take, List.getElem_drop, ofNat_getElem, Nat.testBit_shiftRight,
      Nat.testBit_mod_two_pow, Nat.testBit_shiftLeft]
    rw [decide_eq_true (show n - w + i < n by omega), decide_eq_true (show n - w + i ≥ s by omega),
      Bool.true_and, Bool.true_and]
    congr 1
    omega
  · have hlt := toNat_lt (((ofNat n v).drop s).take w)
    rw [hlen] at hlt
    rw [Nat.testBit_lt_two_pow (hlt.trans_le (Nat.pow_le_pow_right (by omega) (by omega))),
      Nat.testBit_shiftRight, Nat.testBit_mod_two_pow, decide_eq_false (by omega), Bool.false_and]

@[simp] theorem ofBytes_nil : ofBytes [] = [] := rfl

theorem ofBytes_cons (b : UInt8) (bytes : List UInt8) :
    ofBytes (b :: bytes) = ofNat 8 b.toNat ++ ofBytes bytes := by
  simp [ofBytes]

theorem ofBytes_append (as bs : List UInt8) : ofBytes (as ++ bs) = ofBytes as ++ ofBytes bs := by
  simp [ofBytes]

theorem ofBytes_xor (as bs : List UInt8) :
    ofBytes (List.zipWith (· ^^^ ·) as bs) = List.zipWith xor (ofBytes as) (ofBytes bs) := by
  induction as generalizing bs with
  | nil => rfl
  | cons a as ih =>
    cases bs with
    | nil => rw [List.zipWith_nil_right, ofBytes_nil, List.zipWith_nil_right]
    | cons b bs =>
      rw [List.zipWith_cons_cons, ofBytes_cons, ofBytes_cons, ofBytes_cons, ih, UInt8.toNat_xor, ofNat_xor,
        List.zipWith_append (by rw [length_ofNat, length_ofNat])]

@[simp] theorem length_ofBytes (bytes : List UInt8) : (ofBytes bytes).length = 8 * bytes.length := by
  induction bytes with
  | nil => rfl
  | cons b bytes ih =>
    rw [ofBytes_cons, List.length_append, ih, length_ofNat, List.length_cons]
    ring

theorem ofBytes_inj {as bs : List UInt8} (h : ofBytes as = ofBytes bs) : as = bs := by
  induction as generalizing bs with
  | nil =>
    have hl := congrArg List.length h
    rw [length_ofBytes, length_ofBytes] at hl
    exact (List.length_eq_zero_iff.mp (by simpa using hl.symm)).symm
  | cons a as ih =>
    match bs with
    | [] =>
      have hl := congrArg List.length h
      rw [length_ofBytes, length_ofBytes] at hl
      simp at hl
    | b :: bs =>
      rw [ofBytes_cons, ofBytes_cons] at h
      obtain ⟨hab, hrest⟩ := List.append_inj h (by simp)
      rw [ih hrest, UInt8.toNat_inj.mp (ofNat_inj a.toNat_lt b.toNat_lt hab)]

theorem ofBytes_word2 (a b : UInt8) : ofBytes [a, b] = ofNat 16 (a.toNat * 2^8 + b.toNat) := by
  have hb := b.toNat_lt
  rw [show 16 = 8 + 8 from rfl, ofNat_append, ← ofNat_mod 8 (a.toNat * 2^8 + b.toNat),
    Nat.shiftRight_eq_div_pow, show (a.toNat * 2^8 + b.toNat) / 2^8 = a.toNat by omega,
    show (a.toNat * 2^8 + b.toNat) % 2^8 = b.toNat by omega]
  simp [ofBytes]

theorem ofMemory_byte (m : Memory UInt8) (i : Nat) :
    (ofMemory m).read (8*i) 8 = ofNat 8 (m i).toNat := by
  refine List.ext_getElem (by simp) fun j hj _ => ?_
  have hj : j < 8 := by simpa using hj
  rw [Memory.read_getElem, ofNat_getElem, ofMemory, show (8*i+j)/8 = i by omega,
    show (8*i+j)%8 = j by omega]

theorem ofMemory_read (m : Memory UInt8) (i n : Nat) :
    (ofMemory m).read (8*i) (8*n) = ofBytes (m.read i n) := by
  induction n generalizing i with
  | zero => rfl
  | succ n ih =>
    rw [show 8*(n+1) = 8 + 8*n by ring, Memory.read_add, ofMemory_byte, Memory.read_succ, ofBytes_cons,
      show 8*i+8 = 8*(i+1) by ring, ih]

theorem toMemory_ofMemory (m : Memory UInt8) : toMemory (ofMemory m) = m := by
  funext i
  rw [toMemory, ofMemory_byte, toNat_ofNat_of_lt (m i).toNat_lt, UInt8.ofNat_toNat]

theorem ofMemory_toMemory (b : Memory Bool) : ofMemory (toMemory b) = b := by
  funext p
  have hlt := toNat_lt (b.read (8*(p/8)) 8)
  rw [Memory.read_length] at hlt
  rw [ofMemory, toMemory, UInt8.toNat_ofNat', Nat.mod_eq_of_lt hlt,
    testBit_toNat _ _ (by rw [Memory.read_length]; omega), List.get_eq_getElem, Memory.read_getElem]
  simp only [Memory.read_length]
  congr 1
  omega

theorem ofMemory_write (m : Memory UInt8) (i : Nat) (bytes : List UInt8) :
    ofMemory (m.write i bytes) = (ofMemory m).write (8*i) (ofBytes bytes) := by
  induction bytes generalizing m i with
  | nil => simp
  | cons b bytes ih =>
    have hone : ofMemory (m.write i [b]) = (ofMemory m).write (8*i) (ofNat 8 b.toNat) := by
      funext p
      rw [Memory.write_apply, length_ofNat, ofMemory, Memory.write_apply, List.length_singleton]
      by_cases hp : 8*i ≤ p ∧ p < 8*i+8
      · rw [if_pos hp, if_pos (by omega), ofNat_getElem? _ _ _ (by omega), show p/8 - i = 0 by omega]
        simp only [List.getElem?_cons_zero, Option.getD_some]
        congr 1
        omega
      · rw [if_neg hp, if_neg (by omega), ofMemory]
    rw [show b :: bytes = [b] ++ bytes from rfl, Memory.write_append, ih, hone, ofBytes_append,
      Memory.write_append]
    congr 1

end Bits
