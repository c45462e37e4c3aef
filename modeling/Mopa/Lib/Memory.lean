import Mathlib.Data.List.Basic
import Mathlib.Tactic.Linarith

/-! Flat memory: a total map from offsets to cells, with ranges read as lists
and lists written over ranges. Bounds are kept by whoever owns the memory. -/

abbrev Memory (α : Type*) := Nat → α

namespace Memory
variable {α : Type*}

/-- The `n` cells from offset `o` on. -/
def read (m : Memory α) (o : Nat) : Nat → List α
  | 0 => []
  | n+1 => m o :: read m (o+1) n

/-- Store a list from offset `o` on. -/
def write (m : Memory α) (o : Nat) (bs : List α) : Memory α :=
  fun i => if o ≤ i then (bs[i-o]?).getD (m i) else m i

@[simp] theorem read_zero (m : Memory α) (o : Nat) : m.read o 0 = [] := rfl

@[simp] theorem read_length (m : Memory α) (o n : Nat) : (m.read o n).length = n := by
  induction n generalizing o with
  | zero => rfl
  | succ n ih => simp [read, ih]

theorem read_getElem? (m : Memory α) (o n i : Nat) :
    (m.read o n)[i]? = if i < n then some (m (o+i)) else none := by
  induction n generalizing o i with
  | zero => simp
  | succ n ih =>
    cases i with
    | zero => simp [read]
    | succ i => simp [read, ih, Nat.add_assoc, Nat.add_comm 1 i]

@[simp] theorem read_getElem (m : Memory α) (o n i : Nat) (h : i < (m.read o n).length) :
    (m.read o n)[i] = m (o+i) := by
  have hi : i < n := by simpa using h
  have he := read_getElem? m o n i
  rw [List.getElem?_eq_getElem h, if_pos hi] at he
  exact Option.some.inj he

theorem read_add (m : Memory α) (o a b : Nat) :
    m.read o (a+b) = m.read o a ++ m.read (o+a) b := by
  induction a generalizing o with
  | zero => simp
  | succ a ih => simp [Nat.succ_add, read, ih, Nat.add_assoc]

theorem read_take (m : Memory α) (o n k : Nat) (h : k ≤ n) :
    (m.read o n).take k = m.read o k := by
  obtain ⟨d, rfl⟩ := Nat.exists_eq_add_of_le h
  rw [read_add, List.take_left' (read_length m o k)]

theorem read_drop (m : Memory α) (o n k : Nat) (h : k ≤ n) :
    (m.read o n).drop k = m.read (o+k) (n-k) := by
  obtain ⟨d, rfl⟩ := Nat.exists_eq_add_of_le h
  rw [read_add, List.drop_left' (read_length m o k), Nat.add_sub_cancel_left]

theorem read_congr (m m' : Memory α) (o n : Nat)
    (h : ∀ i, o ≤ i → i < o+n → m i = m' i) : m.read o n = m'.read o n := by
  induction n generalizing o with
  | zero => rfl
  | succ n ih =>
    rw [read, read, h o (by omega) (by omega), ih (o+1) fun i hl hu => h i (by omega) (by omega)]

theorem eq_of_read_eq (m m' : Memory α) (o n : Nat) (h : m.read o n = m'.read o n)
    (i : Nat) (hl : o ≤ i) (hu : i < o+n) : m i = m' i := by
  have hi := congrArg (fun l => l[i-o]?) h
  simp only [read_getElem?, show i-o < n by omega, if_true, Nat.add_sub_cancel' hl] at hi
  exact Option.some.inj hi

theorem read_succ (m : Memory α) (o n : Nat) : m.read o (n+1) = m o :: m.read (o+1) n := rfl

theorem write_apply (m : Memory α) (o : Nat) (bs : List α) (i : Nat) :
    m.write o bs i = if o ≤ i ∧ i < o + bs.length then (bs[i-o]?).getD (m i) else m i := by
  unfold write
  by_cases hl : o ≤ i
  · by_cases hu : i < o + bs.length
    · simp [hl, hu]
    · simp [hl, hu, List.getElem?_eq_none (show bs.length ≤ i-o by omega)]
  · simp [hl]

theorem write_outside (m : Memory α) (o : Nat) (bs : List α) (i : Nat)
    (h : i < o ∨ o + bs.length ≤ i) : m.write o bs i = m i := by
  rw [write_apply, if_neg (by omega)]

theorem write_inside (m m' : Memory α) (o : Nat) (bs : List α) (i : Nat) (hl : o ≤ i) (hu : i < o + bs.length) :
    m.write o bs i = m'.write o bs i := by
  have hget : bs[i-o]? = some bs[i-o] := List.getElem?_eq_getElem (by omega)
  rw [write_apply, write_apply, if_pos ⟨hl, hu⟩, if_pos ⟨hl, hu⟩, hget]
  rfl

@[simp] theorem write_nil (m : Memory α) (o : Nat) : m.write o [] = m := by
  funext i
  exact write_outside m o [] i (by simp; omega)

theorem write_append (m : Memory α) (o : Nat) (as bs : List α) :
    m.write o (as ++ bs) = (m.write o as).write (o + as.length) bs := by
  funext i
  simp only [write, List.getElem?_append]
  by_cases hl : o ≤ i
  · by_cases hm : i - o < as.length
    · rw [if_pos hl, if_pos hm, if_neg (by omega), if_pos hl]
    · rw [if_pos hl, if_neg hm, if_pos (show o + as.length ≤ i by omega), if_pos hl,
        List.getElem?_eq_none (show as.length ≤ i - o by omega), Nat.sub_sub]
      rfl
  · rw [if_neg hl, if_neg (by omega), if_neg hl]

theorem write_cons (m : Memory α) (o : Nat) (b : α) (bs : List α) :
    m.write o (b :: bs) = (m.write o [b]).write (o+1) bs := write_append m o [b] bs

theorem read_write_same (m : Memory α) (o : Nat) (bs : List α) :
    (m.write o bs).read o bs.length = bs := by
  apply List.ext_getElem?
  intro i
  rw [read_getElem?]
  split
  · next h => simp [write, h]
  · next h => exact (List.getElem?_eq_none (by omega)).symm

theorem read_write_disjoint (m : Memory α) (o : Nat) (bs : List α) (a n : Nat)
    (h : a + n ≤ o ∨ o + bs.length ≤ a) : (m.write o bs).read a n = m.read a n :=
  read_congr _ _ a n fun i hl hu => write_outside m o bs i (by omega)

theorem read_write_extend (m : Memory α) (o n : Nat) (bs : List α) :
    (m.write (o+n) bs).read o (n + bs.length) = m.read o n ++ bs := by
  rw [read_add, read_write_disjoint m (o+n) bs o n (Or.inl le_rfl), read_write_same]

theorem write_write (m : Memory α) (o : Nat) (bs cs : List α) (h : bs.length = cs.length) :
    (m.write o bs).write o cs = m.write o cs := by
  funext i
  rw [write_apply, write_apply _ o cs, write_apply _ o bs, h]
  split
  · next hi => rw [List.getElem?_eq_getElem (by omega : i - o < cs.length), Option.getD_some, Option.getD_some]
  · rfl

theorem write_comm (m : Memory α) (o a : Nat) (bs cs : List α)
    (h : o + bs.length ≤ a ∨ a + cs.length ≤ o) :
    (m.write o bs).write a cs = (m.write a cs).write o bs := by
  funext i
  by_cases hb : o ≤ i ∧ i < o + bs.length
  · rw [write_outside _ a cs i (by omega)]
    simp only [write_apply, hb, and_self, if_true]
    rw [if_neg (by omega)]
  · simp only [write_apply, hb, if_false]

theorem write_splice (m : Memory α) (o n s : Nat) (bs : List α) (h : s + bs.length ≤ n) :
    m.write o ((m.read o n).take s ++ bs ++ (m.read o n).drop (s + bs.length)) = m.write (o+s) bs := by
  rw [read_take _ _ _ _ (by omega), read_drop _ _ _ _ (by omega)]
  funext i
  rw [write_apply, write_apply]
  simp only [List.length_append, read_length]
  by_cases hi : o + s ≤ i ∧ i < o + s + bs.length
  · rw [if_pos hi, if_pos (by omega), List.append_assoc, List.getElem?_append_right (by simp; omega),
      List.getElem?_append_left (by simp; omega), read_length, Nat.sub_sub]
  · rw [if_neg hi]
    split
    · next hr =>
      by_cases hlo : i < o + s
      · rw [List.append_assoc, List.getElem?_append_left (by simp; omega), read_getElem?, if_pos (by omega),
          Nat.add_sub_cancel' hr.1, Option.getD_some]
      · rw [List.getElem?_append_right (by simp; omega), read_getElem?, if_pos (by simp; omega),
          Option.getD_some]
        congr 1
        simp
        omega
    · rfl

end Memory
