import Mopa.Lib.Outcome

/-! Programs over a state in which something is used up: a success leaves less of it, a
failure is one of the permitted ones. -/
namespace Progress

/-- What holds of a state, by a parameter such as its alignment, what a program keeps, and
how much is left to use up. -/
structure Rank (ι σ : Type) where
  Valid : ι → σ → Prop
  Kept : σ → σ → Prop
  left : σ → Nat
  refl : ∀ s, Kept s s
  trans : ∀ {s t u}, Kept s t → Kept t u → Kept s u

variable {ι ε σ α β : Type}

/-- From `s` the program comes to an end: it succeeds and has used up at least `k`, or it
fails as it may. -/
def EndsFrom (P : Rank ι σ) (may : ε → Prop) (q : ι) (k : α → Nat) (x : EStateM ε σ α) (s : σ) : Prop :=
  match x s with
  | .ok a s' => P.Valid q s' ∧ P.Kept s s' ∧ P.left s' + k a ≤ P.left s
  | .error e _ => may e

/-- It does so from every valid state in which not more than `bound` is left. -/
def Ends (P : Rank ι σ) (may : ε → Prop) (bound : Nat) (p q : ι) (k : α → Nat) (x : EStateM ε σ α) : Prop :=
  ∀ s, P.Valid p s → P.left s ≤ bound → EndsFrom P may q k x s

variable {P : Rank ι σ} {may : ε → Prop} {bound : Nat} {p q r : ι} {k l : α → Nat} {x : EStateM ε σ α} {s t : σ}

theorem EndsFrom.ok {a : α} (h : EndsFrom P may q k x s) (hx : x s = .ok a t) :
    P.Valid q t ∧ P.Kept s t ∧ P.left t + k a ≤ P.left s := by
  unfold EndsFrom at h
  rwa [hx] at h

theorem EndsFrom.error {e : ε} (h : EndsFrom P may q k x s) (hx : x s = .error e t) : may e := by
  unfold EndsFrom at h
  rwa [hx] at h

theorem endsFrom_ok {a : α} (hx : x s = .ok a t) (h : P.Valid q t ∧ P.Kept s t ∧ P.left t + k a ≤ P.left s) :
    EndsFrom P may q k x s := by
  unfold EndsFrom
  rwa [hx]

theorem endsFrom_error {e : ε} (hx : x s = .error e t) (h : may e) : EndsFrom P may q k x s := by
  unfold EndsFrom
  rwa [hx]

theorem EndsFrom.of_eq {y : EStateM ε σ α} (h : EndsFrom P may q k x s) (hy : y s = x s) : EndsFrom P may q k y s := by
  unfold EndsFrom
  rwa [hy]

theorem EndsFrom.bind {f : α → EStateM ε σ β} {l : β → Nat} (hx : EndsFrom P may r k x s)
    (hf : ∀ a s', x s = .ok a s' → EndsFrom P may q (fun b => l b - k a) (f a) s') :
    EndsFrom P may q l (x >>= f) s := by
  cases h : x s with
  | error e s' => exact endsFrom_error (Outcome.bind_error h) (hx.error h)
  | ok a s' =>
    obtain ⟨-, hkept, hleft⟩ := hx.ok h
    have hrest := hf a s' h
    cases h' : f a s' with
    | error e s'' => exact endsFrom_error ((Outcome.bind_ok h).trans h') (hrest.error h')
    | ok b s'' =>
      obtain ⟨hvalid', hkept', hleft'⟩ := hrest.ok h'
      exact endsFrom_ok ((Outcome.bind_ok h).trans h') ⟨hvalid', P.trans hkept hkept', by omega⟩

namespace Ends

theorem mono (h : Ends P may bound p q k x) (hl : ∀ a, l a ≤ k a) : Ends P may bound p q l x := by
  intro s hs hb
  have hx := h s hs hb
  cases hr : x s with
  | error e s' => exact endsFrom_error hr (hx.error hr)
  | ok a s' =>
    obtain ⟨hvalid, hkept, hleft⟩ := hx.ok hr
    exact endsFrom_ok hr ⟨hvalid, hkept, by have := hl a; omega⟩

protected theorem pure {a : α} (ha : k a = 0) : Ends P may bound p p k (pure a : EStateM ε σ α) := fun s hs _ =>
  endsFrom_ok rfl ⟨hs, P.refl s, by omega⟩

protected theorem bind {f : α → EStateM ε σ β} {l : β → Nat} (hx : Ends P may bound p r k x)
    (hf : ∀ a, Ends P may bound r q (fun b => l b - k a) (f a)) : Ends P may bound p q l (x >>= f) := by
  intro s hs hb
  refine (hx s hs hb).bind fun a s' h => ?_
  obtain ⟨hvalid, -, hleft⟩ := (hx s hs hb).ok h
  exact hf a s' hvalid (by omega)

theorem map {f : α → β} {l : β → Nat} (hx : Ends P may bound p q k x) (hl : ∀ a, l (f a) ≤ k a) :
    Ends P may bound p q l (f <$> x) := by
  rw [map_eq_pure_bind]
  exact hx.bind fun a => .pure (Nat.sub_eq_zero_of_le (hl a))

end Ends

end Progress
