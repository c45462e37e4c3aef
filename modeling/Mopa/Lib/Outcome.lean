import Mathlib.Logic.Basic

/-! Programs over a state that succeed or fail, a failure keeping the state it
reached: how sequential composition succeeds and fails. -/
namespace Outcome
variable {ε σ α β : Type}

theorem bind_ok {x : EStateM ε σ α} {f : α → EStateM ε σ β} {s s' : σ} {a : α} (h : x s = .ok a s') :
    (x >>= f) s = f a s' := by
  show EStateM.bind x f s = f a s'
  rw [EStateM.bind, h]

theorem bind_error {x : EStateM ε σ α} {f : α → EStateM ε σ β} {s s' : σ} {e : ε}
    (h : x s = .error e s') : (x >>= f) s = .error e s' := by
  show EStateM.bind x f s = .error e s'
  rw [EStateM.bind, h]

theorem bind_eq_ok {x : EStateM ε σ α} {f : α → EStateM ε σ β} {s s'' : σ} {b : β} :
    (x >>= f) s = .ok b s'' ↔ ∃ a s', x s = .ok a s' ∧ f a s' = .ok b s'' := by
  constructor
  · intro h
    cases hx : x s with
    | ok a s' => exact ⟨a, s', rfl, by rwa [bind_ok hx] at h⟩
    | error e s' =>
      rw [bind_error hx] at h
      cases h
  · rintro ⟨a, s', hx, hf⟩
    rw [bind_ok hx, hf]

theorem get_bind (f : σ → EStateM ε σ β) (s : σ) : ((get : EStateM ε σ σ) >>= f) s = f s s := rfl

theorem modify_bind (g : σ → σ) (f : PUnit → EStateM ε σ β) (s : σ) :
    ((modify g : EStateM ε σ PUnit) >>= f) s = f () (g s) := rfl

theorem pure_eq_ok {a a' : α} {s s' : σ} :
    (pure a : EStateM ε σ α) s = .ok a' s' ↔ a = a' ∧ s = s' :=
  ⟨fun h => by cases h; exact ⟨rfl, rfl⟩, by rintro ⟨rfl, rfl⟩; rfl⟩

theorem map_ok {x : EStateM ε σ α} {s s' : σ} {a : α} (f : α → β) (h : x s = .ok a s') :
    (f <$> x) s = .ok (f a) s' := by
  show EStateM.map f x s = .ok (f a) s'
  rw [EStateM.map, h]

theorem map_eq_ok {x : EStateM ε σ α} {f : α → β} {s s' : σ} {b : β} :
    (f <$> x) s = .ok b s' ↔ ∃ a, x s = .ok a s' ∧ f a = b := by
  show EStateM.map f x s = _ ↔ _
  unfold EStateM.map
  cases x s with
  | ok a s1 =>
    constructor
    · intro h
      cases h
      exact ⟨a, rfl, rfl⟩
    · rintro ⟨a', h, rfl⟩
      cases h
      rfl
  | error e s1 =>
    constructor
    · intro h
      cases h
    · rintro ⟨a', h, -⟩
      cases h

def Fails (x : EStateM ε σ α) (s : σ) : Prop := ∃ e s', x s = .error e s'

theorem Fails.bind {x : EStateM ε σ α} {s : σ} (h : Fails x s) (f : α → EStateM ε σ β) :
    Fails (x >>= f) s := by
  obtain ⟨e, s', hx⟩ := h
  exact ⟨e, s', bind_error hx⟩

theorem Fails.bind_right {x : EStateM ε σ α} {f : α → EStateM ε σ β} {s s' : σ} {a : α}
    (hx : x s = .ok a s') (h : Fails (f a) s') : Fails (x >>= f) s := by
  obtain ⟨e, s'', hf⟩ := h
  exact ⟨e, s'', by rw [bind_ok hx, hf]⟩

theorem fails_of_not_ok {x : EStateM ε σ α} {s : σ} (h : ∀ a s', x s ≠ .ok a s') : Fails x s := by
  cases hx : x s with
  | ok a s' => exact absurd hx (h a s')
  | error e s' => exact ⟨e, s', hx⟩

theorem not_fails_of_ok {x : EStateM ε σ α} {s s' : σ} {a : α} (h : x s = .ok a s') : ¬ Fails x s := by
  rintro ⟨e, s'', he⟩
  rw [h] at he
  cases he

def Avoids (bad : ε) (x : EStateM ε σ α) (s : σ) : Prop := ∀ s', x s ≠ .error bad s'

theorem Avoids.of_ok {bad : ε} {x : EStateM ε σ α} {s s' : σ} {a : α} (h : x s = .ok a s') : Avoids bad x s := by
  intro s'' h'
  rw [h] at h'
  cases h'

theorem Avoids.of_error {bad e : ε} {x : EStateM ε σ α} {s s' : σ} (h : x s = .error e s') (he : e ≠ bad) :
    Avoids bad x s := by
  intro s'' h'
  rw [h] at h'
  cases h'
  exact he rfl

theorem Avoids.bind {bad : ε} {x : EStateM ε σ α} {f : α → EStateM ε σ β} {s : σ} (hx : Avoids bad x s)
    (hf : ∀ a s', x s = .ok a s' → Avoids bad (f a) s') : Avoids bad (x >>= f) s := by
  intro s''
  cases h : x s with
  | ok a s' =>
    rw [bind_ok h]
    exact hf a s' h s''
  | error e s' =>
    rw [bind_error h]
    intro h'
    cases h'
    exact hx _ h

/-- The state that a run has reached, whether it succeeds or fails. -/
def reached : EStateM.Result ε σ α → σ
  | .ok _ s => s
  | .error _ s => s

theorem reached_map (f : α → β) (x : EStateM ε σ α) (s : σ) : reached ((f <$> x) s) = reached (x s) := by
  show reached (EStateM.map f x s) = reached (x s)
  unfold EStateM.map
  cases x s with
  | ok a s' => rfl
  | error e s' => rfl

theorem reached_bind {x : EStateM ε σ α} {f : α → EStateM ε σ β} {P : σ → Prop} {s : σ}
    (hx : P (reached (x s))) (hf : ∀ a s', x s = .ok a s' → P s' → P (reached (f a s'))) :
    P (reached ((x >>= f) s)) := by
  cases h : x s with
  | ok a s' =>
    rw [h] at hx
    rw [bind_ok h]
    exact hf a s' h hx
  | error e s' =>
    rw [h] at hx
    rwa [bind_error h]

/-- The program keeps a value of the state, whether it succeeds or fails. -/
def Keeps {γ : Type} (f : σ → γ) (x : EStateM ε σ α) : Prop := ∀ s, f (reached (x s)) = f s

section Keeps
variable {γ : Type} {f : σ → γ}

protected theorem Keeps.pure (a : α) : Keeps f (pure a : EStateM ε σ α) := fun _ => rfl

protected theorem Keeps.bind {x : EStateM ε σ α} {g : α → EStateM ε σ β} (hx : Keeps f x) (hg : ∀ a, Keeps f (g a)) :
    Keeps f (x >>= g) := by
  intro s
  refine reached_bind (P := fun s' => f s' = f s) (hx s) fun a s' _ hs => ?_
  exact (hg a s').trans hs

end Keeps

/-- How a run from a state ends: `ok` relates the states when it succeeds, `fails` when it fails. -/
def Settles (ok : σ → σ → Prop) (fails : ε → σ → σ → Prop) (s : σ) : EStateM.Result ε σ α → Prop
  | .ok _ s' => ok s s'
  | .error e s' => fails e s s'

def Acts (ok : σ → σ → Prop) (fails : ε → σ → σ → Prop) (x : EStateM ε σ α) : Prop := ∀ s, Settles ok fails s (x s)

section Acts
variable {ok ok' ok'' : σ → σ → Prop} {fails fails' fails'' : ε → σ → σ → Prop} {x : EStateM ε σ α} {s s' : σ}

theorem Acts.of_ok {a : α} (hx : Acts ok fails x) (h : x s = .ok a s') : ok s s' := by
  have hs := hx s
  rwa [h] at hs

theorem Acts.of_error {e : ε} (hx : Acts ok fails x) (h : x s = .error e s') : fails e s s' := by
  have hs := hx s
  rwa [h] at hs

protected theorem Acts.bind {f : α → EStateM ε σ β} (hx : Acts ok fails x) (hf : ∀ a, Acts ok' fails' (f a))
    (hok : ∀ s s' s'', ok s s' → ok' s' s'' → ok'' s s'') (hearly : ∀ e s s', fails e s s' → fails'' e s s')
    (hlate : ∀ e s s' s'', ok s s' → fails' e s' s'' → fails'' e s s'') : Acts ok'' fails'' (x >>= f) := by
  intro s
  cases h : x s with
  | ok a s' =>
    rw [bind_ok h]
    cases h' : f a s' with
    | ok b s'' => exact hok s s' s'' (hx.of_ok h) ((hf a).of_ok h')
    | error e s'' => exact hlate e s s' s'' (hx.of_ok h) ((hf a).of_error h')
  | error e s' =>
    rw [bind_error h]
    exact hearly e s s' (hx.of_error h)

theorem Acts.mono (hx : Acts ok fails x) (hok : ∀ s s', ok s s' → ok' s s')
    (hfails : ∀ e s s', fails e s s' → fails' e s s') : Acts ok' fails' x := by
  intro s
  cases h : x s with
  | ok a s' => exact hok s s' (hx.of_ok h)
  | error e s' => exact hfails e s s' (hx.of_error h)

end Acts

def gives [BEq α] (r : EStateM.Result ε σ α) (a : α) : Bool :=
  match r with
  | .ok b _ => b == a
  | .error .. => false

theorem exists_ok_of_gives [BEq α] [LawfulBEq α] {x : EStateM ε σ α} {s : σ} {a : α}
    (h : gives (x s) a = true) : ∃ s', x s = .ok a s' := by
  cases hx : x s with
  | ok b s' =>
    rw [hx] at h
    exact ⟨s', by rw [eq_of_beq h]⟩
  | error e s' =>
    rw [hx] at h
    cases h

end Outcome
