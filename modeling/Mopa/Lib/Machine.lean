import Mathlib.Data.List.Basic
import Mathlib.Tactic.Linarith

/-! Runs of a deterministic machine that answers every input with a new state and
a list of outputs. An invariant of one step is an invariant of every run; a
relation kept by one step of two machines is kept by their runs. -/
namespace Machine
variable {σ τ ι κ ο : Type*}

def run (step : σ → ι → σ × List ο) (s : σ) : List ι → σ × List ο
  | [] => (s, [])
  | i :: is =>
    let r := run step (step s i).1 is
    (r.1, (step s i).2 ++ r.2)

variable (step : σ → ι → σ × List ο)

@[simp] theorem run_nil (s : σ) : run step s [] = (s, []) := rfl

theorem run_cons (s : σ) (i : ι) (is : List ι) :
    run step s (i :: is) =
      ((run step (step s i).1 is).1, (step s i).2 ++ (run step (step s i).1 is).2) := rfl

theorem run_append (s : σ) (as bs : List ι) :
    run step s (as ++ bs) =
      ((run step (run step s as).1 bs).1, (run step s as).2 ++ (run step (run step s as).1 bs).2) := by
  induction as generalizing s with
  | nil => simp
  | cons a as ih => simp [run_cons, ih]

/-- `Inv s os` relates a state to the outputs up to it. If every step keeps it, so
does every run. -/
theorem run_invariant (Inv : σ → List ο → Prop) (ok : ι → Prop)
    (hstep : ∀ s os i, ok i → Inv s os → Inv (step s i).1 (os ++ (step s i).2))
    (is : List ι) (hok : ∀ i ∈ is, ok i) (s : σ) (os : List ο) (h : Inv s os) :
    Inv (run step s is).1 (os ++ (run step s is).2) := by
  induction is generalizing s os with
  | nil => simpa using h
  | cons i is ih =>
    have h' := ih (fun j hj => hok j (List.mem_cons_of_mem i hj)) _ _
      (hstep s os i (hok i List.mem_cons_self) h)
    simpa [run_cons, List.append_assoc] using h'

/-- Two machines in step: related states stay related and what is seen of the
outputs stays equal. -/
theorem run_simulates {π : Type*} (step' : τ → κ → τ × List π) (R : σ → τ → Prop)
    (I : ι → κ → Prop) {θ : Type*} (see : List ο → List θ) (see' : List π → List θ)
    (hsee : ∀ as bs, see (as ++ bs) = see as ++ see bs)
    (hsee' : ∀ as bs, see' (as ++ bs) = see' as ++ see' bs)
    (hnil : see [] = see' [])
    (hstep : ∀ s t i k, I i k → R s t →
      R (step s i).1 (step' t k).1 ∧ see (step s i).2 = see' (step' t k).2)
    {is : List ι} {ks : List κ} (hin : List.Forall₂ I is ks) (s : σ) (t : τ) (h : R s t) :
    R (run step s is).1 (run step' t ks).1 ∧
      see (run step s is).2 = see' (run step' t ks).2 := by
  induction hin generalizing s t with
  | nil => exact ⟨h, hnil⟩
  | cons hik _ ih =>
    obtain ⟨hr, ho⟩ := hstep s t _ _ hik h
    obtain ⟨hr', ho'⟩ := ih _ _ hr
    exact ⟨hr', by rw [run_cons, run_cons, hsee, hsee', ho, ho']⟩

end Machine
