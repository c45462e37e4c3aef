import Mopa.Lib.Memory

/-! Programs that access a buffer of a certain length. An access outside the buffer has no
result, so that a program has one just if all its accesses are inside. Inside, the buffer is
a memory. -/

def Buffer (α β : Type) : Type := StateT (List α) Option β

instance {α : Type} : Monad (Buffer α) := inferInstanceAs (Monad (StateT (List α) Option))

namespace Buffer
variable {α β : Type}

def load (i : Nat) : Buffer α α := fun data => (data[i]?).map (·, data)

def store (i : Nat) (a : α) : Buffer α Unit := fun data =>
  if i < data.length then some ((), data.set i a) else none

def Safe (x : Buffer α β) (data : List α) : Prop := (x data).isSome

def memory (a : α) (data : List α) : Memory α := fun i => (data[i]?).getD a

section Rules
variable {i : Nat} {a b : α} {data : List α} {f : α → Buffer α β} {g : Unit → Buffer α β}

theorem load_bind (a : α) (h : i < data.length) : (load i >>= f) data = f (memory a data i) data := by
  show (load i data).bind _ = _
  unfold load memory
  rw [List.getElem?_eq_getElem h]
  rfl

theorem load_bind_outside (h : data.length ≤ i) : (load i >>= f) data = none := by
  show (load i data).bind _ = _
  unfold load
  rw [List.getElem?_eq_none h]
  rfl

theorem store_bind (h : i < data.length) : (store i b >>= g) data = g () (data.set i b) := by
  show (store i b data).bind _ = _
  unfold store
  rw [if_pos h]
  rfl

theorem store_bind_outside (h : data.length ≤ i) : (store i b >>= g) data = none := by
  show (store i b data).bind _ = _
  unfold store
  rw [if_neg (not_lt.mpr h)]
  rfl

theorem store_run (h : i < data.length) : store i b data = some ((), data.set i b) := if_pos h

theorem memory_set (a : α) (h : i < data.length) : memory a (data.set i b) = (memory a data).write i [b] := by
  funext j
  rw [Memory.write_apply]
  unfold memory
  by_cases hj : i = j
  · subst hj
    rw [if_pos ⟨le_rfl, by simp⟩, List.getElem?_set_self h, Nat.sub_self]
    rfl
  · rw [if_neg (by simp; omega), List.getElem?_set_ne hj]

theorem safe_return (b : β) : Safe (pure b : Buffer α β) data ↔ True := iff_of_true rfl trivial

theorem safe_load_bind (a : α) : Safe (load i >>= f) data ↔ i < data.length ∧ Safe (f (memory a data i)) data := by
  unfold Safe
  by_cases h : i < data.length
  · rw [load_bind a h]
    exact ⟨fun hf => ⟨h, hf⟩, And.right⟩
  · rw [load_bind_outside (not_lt.mp h)]
    exact ⟨fun hf => (by cases hf), fun hf => absurd hf.1 h⟩

theorem safe_store_bind : Safe (store i b >>= g) data ↔ i < data.length ∧ Safe (g ()) (data.set i b) := by
  unfold Safe
  by_cases h : i < data.length
  · rw [store_bind h]
    exact ⟨fun hf => ⟨h, hf⟩, And.right⟩
  · rw [store_bind_outside (not_lt.mp h)]
    exact ⟨fun hf => (by cases hf), fun hf => absurd hf.1 h⟩

theorem safe_store : Safe (store i b) data ↔ i < data.length := by
  unfold Safe store
  by_cases h : i < data.length
  · rw [if_pos h]
    exact ⟨fun _ => h, fun _ => rfl⟩
  · rw [if_neg h]
    exact ⟨fun hf => (by cases hf), fun hf => absurd hf h⟩

end Rules

end Buffer
