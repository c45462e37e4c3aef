import Mopa.Lib.Bits

/-! Shift registers that divide by a generator, one bit at each step. A register is linear in
content and bits. With the low bit of the generator set no step loses anything, so that no
change within as many bits as the register has goes unnoticed. -/
namespace Register
open Bits
variable {w : Nat} {g : BitVec w}

/-- The generator is taken in just if the bit that leaves at the top and the next one differ. -/
def step (g c : BitVec w) (b : Bool) : BitVec w := c <<< 1 ^^^ if c.msb ^^ b then g else 0#w

def run (g c : BitVec w) (bits : List Bool) : BitVec w := bits.foldl (step g) c

@[simp] theorem run_nil (c : BitVec w) : run g c [] = c := rfl

theorem run_cons (c : BitVec w) (b : Bool) (bits : List Bool) : run g c (b :: bits) = run g (step g c b) bits := rfl

theorem run_append (c : BitVec w) (as bs : List Bool) : run g c (as ++ bs) = run g (run g c as) bs :=
  List.foldl_append

theorem step_xor (c c' : BitVec w) (b b' : Bool) : step g (c ^^^ c') (b ^^ b') = step g c b ^^^ step g c' b' := by
  have hpick (x y : Bool) : (if x ^^ y then g else 0#w) = (if x then g else 0#w) ^^^ if y then g else 0#w := by
    cases x <;> cases y <;> simp
  have hbit : ((c ^^^ c').msb ^^ (b ^^ b')) = ((c.msb ^^ b) ^^ (c'.msb ^^ b')) := by
    rw [BitVec.msb_xor, Bool.xor_assoc, Bool.xor_assoc, Bool.xor_left_comm b]
  rw [step, step, step, hbit, hpick, BitVec.shiftLeft_xor_distrib]
  ac_rfl

theorem run_xor {bits bits' : List Bool} (h : bits.length = bits'.length) (c c' : BitVec w) :
    run g (c ^^^ c') (List.zipWith xor bits bits') = run g c bits ^^^ run g c' bits' := by
  induction bits generalizing bits' c c' with
  | nil =>
    rw [List.eq_nil_of_length_eq_zero h.symm]
    rfl
  | cons b bits ih =>
    cases bits' with
    | nil => cases h
    | cons b' bits' =>
      rw [List.zipWith_cons_cons, run_cons, step_xor]
      exact ih (Nat.succ.inj h) _ _

theorem length_zeros (bits : List Bool) : (List.replicate bits.length false).length = bits.length := List.length_replicate

theorem zipWith_zeros (bits : List Bool) : List.zipWith xor bits (List.replicate bits.length false) = bits := by
  induction bits with
  | nil => rfl
  | cons b bits ih => rw [List.length_cons, List.replicate_succ, List.zipWith_cons_cons, ih, Bool.xor_false]

theorem step_eq_zero (hg : g.getLsbD 0 = true) {c : BitVec w} : step g c false = 0#w ↔ c = 0#w := by
  constructor
  · intro h
    have hpos : 0 < w := BitVec.lt_of_getLsbD hg
    have hmsb : c.msb = false := by
      have hlow := congrArg (BitVec.getLsbD · 0) h
      cases hc : c.msb with
      | false => rfl
      | true => simp [step, hc, hg] at hlow
    have hshift : c <<< 1 = 0#w := by simpa [step, hmsb] using h
    refine BitVec.eq_of_getLsbD_eq fun i hi => ?_
    rw [BitVec.getLsbD_zero]
    by_cases htop : i + 1 < w
    · have hbit := congrArg (BitVec.getLsbD · (i+1)) hshift
      simpa only [BitVec.getLsbD_shiftLeft, htop, decide_true, Bool.true_and, Nat.add_sub_cancel, BitVec.getLsbD_zero,
        show ¬ i+1 < 1 by omega, decide_false, Bool.not_false] using hbit
    · rwa [BitVec.msb_eq_getLsbD_last, show w - 1 = i by omega] at hmsb
  · rintro rfl
    simp [step]

theorem run_zeros (hg : g.getLsbD 0 = true) (n : Nat) {c : BitVec w} :
    run g c (List.replicate n false) = 0#w ↔ c = 0#w := by
  induction n generalizing c with
  | zero => rfl
  | succ n ih => rw [List.replicate_succ, run_cons, ih, step_eq_zero hg]

theorem run_top {n : Nat} (h : n ≤ w) (c : BitVec w) : run g c (ofNat n (c.toNat >>> (w-n))) = c <<< n := by
  induction n generalizing c with
  | zero => exact (BitVec.shiftLeft_zero c).symm
  | succ n ih =>
    have hbit : (c.toNat >>> (w-(n+1))).testBit n = c.msb := by
      rw [Nat.testBit_shiftRight, show w-(n+1)+n = w-1 by omega, BitVec.msb_eq_getLsbD_last]
      rfl
    have hstep : step g c c.msb = c <<< 1 := by simp [step]
    have hrest : ofNat n (c.toNat >>> (w-(n+1))) = ofNat n ((c <<< 1).toNat >>> (w-n)) := by
      refine ofNat_congr n fun i hi => ?_
      rw [Nat.testBit_shiftRight, Nat.testBit_shiftRight]
      show c.getLsbD _ = (c <<< 1).getLsbD _
      rw [BitVec.getLsbD_shiftLeft, decide_eq_true (show w-n+i < w by omega), decide_eq_false (show ¬ w-n+i < 1 by omega),
        show w-n+i-1 = w-(n+1)+i by omega, Bool.not_false, Bool.true_and, Bool.true_and]
    rw [ofNat, hbit, run_cons, hstep, hrest, ih (by omega), ← BitVec.shiftLeft_add, Nat.add_comm]

theorem run_content (hg : g.getLsbD 0 = true) {c x : BitVec w} : run g c (ofNat w x.toNat) = 0#w ↔ c = x := by
  have hself : run g x (ofNat w x.toNat) = 0#w := by
    have htop := run_top (g := g) le_rfl x
    rwa [Nat.sub_self, Nat.shiftRight_zero, BitVec.shiftLeft_eq_zero le_rfl] at htop
  have hsplit := run_xor (g := g) (length_zeros (ofNat w x.toNat)).symm x (c ^^^ x)
  rw [zipWith_zeros, hself, BitVec.zero_xor, BitVec.xor_comm x, BitVec.xor_assoc, BitVec.xor_self, BitVec.xor_zero] at hsplit
  rw [hsplit, run_zeros hg, BitVec.xor_eq_zero_iff]

/-- Some bits are set, all of them among `w` consecutive ones. -/
def Burst (w : Nat) (bits : List Bool) : Prop :=
  true ∈ bits ∧ ∃ k, ∀ i, bits[i]? = some true → k ≤ i ∧ i < k+w

/-- With the bits outside a window of the register's size clear, the register is cleared just
if those inside are clear too. -/
theorem run_window (hg : g.getLsbD 0 = true) {window : List Bool} (hw : window.length = w) (m n : Nat) :
    run g 0#w (List.replicate m false ++ (window ++ List.replicate n false)) = 0#w ↔ window = List.replicate w false := by
  have hbits : window = ofNat w (BitVec.ofNat w (toNat window)).toNat := by
    rw [BitVec.toNat_ofNat, ofNat_mod, ← hw, ofNat_toNat]
  rw [run_append, (run_zeros hg m).mpr rfl, run_append, run_zeros hg]
  constructor
  · intro h
    rw [hbits, run_content hg] at h
    rw [hbits, ← h, BitVec.toNat_zero, ofNat_clear]
  · rintro rfl
    exact (run_zeros hg w).mpr rfl

theorem exists_window {bits : List Bool} {k : Nat} (hk : k ≤ bits.length)
    (h : ∀ i, bits[i]? = some true → k ≤ i ∧ i < k+w) : ∃ window : List Bool, window.length = w ∧
      bits ++ List.replicate w false = List.replicate k false ++ (window ++ List.replicate (bits.length-k) false) := by
  generalize hpadded : bits ++ List.replicate w false = padded
  have hlength : padded.length = bits.length + w := by rw [← hpadded, List.length_append, List.length_replicate]
  have hclear (i : Nat) (b : Bool) (hb : padded[i]? = some b) (hi : i < k ∨ k+w ≤ i) : b = false := by
    cases b with
    | false => rfl
    | true =>
      rw [← hpadded, List.getElem?_append] at hb
      split at hb
      · have := h i hb
        omega
      · cases (List.mem_replicate.mp (List.mem_of_getElem? hb)).2
  have hhead : padded.take k = List.replicate k false := by
    refine List.eq_replicate_iff.mpr ⟨List.length_take_of_le (by omega), fun b hb => ?_⟩
    obtain ⟨i, hi⟩ := List.mem_iff_getElem?.mp hb
    rw [List.getElem?_take] at hi
    split at hi
    · next hlt => exact hclear i b hi (Or.inl hlt)
    · cases hi
  have htail : (padded.drop k).drop w = List.replicate (bits.length-k) false := by
    rw [List.drop_drop]
    refine List.eq_replicate_iff.mpr ⟨by rw [List.length_drop]; omega, fun b hb => ?_⟩
    obtain ⟨i, hi⟩ := List.mem_iff_getElem?.mp hb
    rw [List.getElem?_drop] at hi
    exact hclear _ b hi (Or.inr (by omega))
  refine ⟨(padded.drop k).take w, List.length_take_of_le (by rw [List.length_drop]; omega), ?_⟩
  rw [← htail, List.take_append_drop, ← hhead, List.take_append_drop]

theorem run_burst (hg : g.getLsbD 0 = true) {bits : List Bool} (h : Burst w bits) : run g 0#w bits ≠ 0#w := by
  obtain ⟨hset, k, hburst⟩ := h
  obtain ⟨i, hi⟩ := List.mem_iff_getElem?.mp hset
  have hlt := (List.getElem?_eq_some_iff.mp hi).1
  obtain ⟨window, hw, hwindow⟩ := exists_window ((hburst i hi).1.trans hlt.le) hburst
  intro hzero
  have hpadded : run g 0#w (bits ++ List.replicate w false) = 0#w := by
    rw [run_append, hzero]
    exact (run_zeros hg w).mpr rfl
  rw [hwindow, run_window hg hw] at hpadded
  rw [hpadded] at hwindow
  have hmem : true ∈ bits ++ List.replicate w false := List.mem_append_left _ hset
  rw [hwindow] at hmem
  simp at hmem

end Register
