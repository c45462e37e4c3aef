import Mopa.Lib.Bits

/-! Encoders of values as bit strings. What an encoder writes may depend on the
bit offset, since some encodings exist at certain offsets only; an encoder that
does not exist at an offset refuses. Length-prefixed blocks of bytes and lists of
items are built from smaller encoders. -/

def Encoder (α : Type) : Type := Nat → Option (α × List Bool)

namespace Encoder
variable {α β : Type}

instance : Monad Encoder where
  pure a := fun _ => some (a, [])
  bind x f := fun p =>
    match x p with
    | none => none
    | some (a, as) =>
      match f a (p + as.length) with
      | none => none
      | some (b, bs) => some (b, as ++ bs)

def emit (bits : List Bool) : Encoder Unit := fun _ => some ((), bits)

/-- A value with its bits, at the offsets where it can be encoded. -/
def field (ok : Nat → Prop) [DecidablePred ok] (bits : List Bool) (a : α) : Encoder α := fun p =>
  if ok p then some (a, bits) else none

/-- A block of whole bytes behind its length in bytes, a number of `b` bits. -/
def block (b : Nat) (body : Encoder α) : Encoder (Nat × α) := fun p =>
  if (p + b) % 8 = 0 then
    match body (p + b) with
    | none => none
    | some (a, bits) =>
      if bits.length % 8 = 0 ∧ bits.length ≤ 8 * (2^b - 1) then
        some ((bits.length / 8, a), Bits.ofNat b (bits.length / 8) ++ bits)
      else none
  else none

def items (e : α → Encoder α) : List α → Encoder (List α)
  | [] => pure []
  | a :: as => do
    let a ← e a
    let as ← items e as
    return a :: as

theorem pure_apply (a : α) (p : Nat) : (pure a : Encoder α) p = some (a, []) := rfl

theorem bind_none {x : Encoder α} {f : α → Encoder β} {p : Nat} (h : x p = none) :
    (x >>= f) p = none := by
  show (match x p with | none => none | some (a, as) => _) = _
  rw [h]

theorem bind_some {x : Encoder α} {f : α → Encoder β} {p : Nat} {a : α} {as : List Bool}
    (h : x p = some (a, as)) :
    (x >>= f) p = (f a (p + as.length)).map fun r => (r.1, as ++ r.2) := by
  show (match x p with | none => none | some (a, as) => _) = _
  rw [h]
  dsimp only
  cases f a (p + as.length) <;> rfl

theorem bind_eq_some {x : Encoder α} {f : α → Encoder β} {p : Nat} {b : β} {cs : List Bool} :
    (x >>= f) p = some (b, cs) ↔ ∃ a as bs, x p = some (a, as) ∧
      f a (p + as.length) = some (b, bs) ∧ cs = as ++ bs := by
  constructor
  · intro h
    cases hx : x p with
    | none => rw [bind_none hx] at h; cases h
    | some r =>
      rw [bind_some hx] at h
      obtain ⟨⟨b', bs⟩, hf, hr⟩ := Option.map_eq_some_iff.mp h
      cases hr
      exact ⟨r.1, r.2, bs, rfl, hf, rfl⟩
  · rintro ⟨a, as, bs, hx, hf, rfl⟩
    rw [bind_some hx, hf]
    rfl

theorem pair_eq_some {γ : Type} {x : Encoder α} {y : Encoder β} {mk : α → β → γ} {p : Nat} {a : α} {b : β}
    {as bs : List Bool} (hx : x p = some (a, as)) (hy : y (p + as.length) = some (b, bs)) :
    (do
      let a ← x
      let b ← y
      return mk a b : Encoder γ) p = some (mk a b, as ++ bs) :=
  bind_eq_some.mpr ⟨a, as, bs, hx, bind_eq_some.mpr ⟨b, bs, [], hy, rfl, (List.append_nil bs).symm⟩, rfl⟩

theorem pure_eq_some {a b : α} {p : Nat} {bs : List Bool} :
    (pure a : Encoder α) p = some (b, bs) ↔ a = b ∧ bs = [] := by
  rw [pure_apply]
  constructor
  · intro h
    cases h
    exact ⟨rfl, rfl⟩
  · rintro ⟨rfl, rfl⟩
    rfl

theorem emit_eq_some {bits bs : List Bool} {p : Nat} {u : Unit} :
    emit bits p = some (u, bs) ↔ bs = bits :=
  ⟨fun h => by cases h; rfl, fun h => by rw [h]; rfl⟩

theorem field_eq_some {ok : Nat → Prop} [DecidablePred ok] {bits bs : List Bool} {a a' : α} {p : Nat} :
    field ok bits a p = some (a', bs) ↔ a' = a ∧ ok p ∧ bs = bits := by
  unfold field
  split
  · next h => exact ⟨fun he => by cases he; exact ⟨rfl, h, rfl⟩, fun ⟨ha, _, hb⟩ => by rw [ha, hb]⟩
  · next h => exact ⟨fun he => (by cases he), fun he => absurd he.2.1 h⟩

theorem field_eq_none {ok : Nat → Prop} [DecidablePred ok] {bits : List Bool} {a : α} {p : Nat}
    (h : ¬ ok p) : field ok bits a p = none := if_neg h

theorem block_eq_some {b : Nat} {body : Encoder α} {p n : Nat} {a : α} {bs : List Bool} :
    block b body p = some ((n, a), bs) ↔ (p + b) % 8 = 0 ∧ ∃ bits, body (p + b) = some (a, bits) ∧
      bits.length = 8 * n ∧ n < 2^b ∧ bs = Bits.ofNat b n ++ bits := by
  have hpos := Nat.two_pow_pos b
  constructor
  · intro h
    unfold block at h
    split at h
    · next hp =>
      split at h
      · cases h
      · next a' bits hbody =>
        split at h
        · next hlen =>
          cases h
          exact ⟨hp, bits, hbody, by omega, by omega, rfl⟩
        · cases h
    · cases h
  · rintro ⟨hp, bits, hbody, hlen, hn, rfl⟩
    have hdiv : bits.length / 8 = n := by omega
    unfold block
    rw [if_pos hp, hbody]
    dsimp only
    rw [if_pos ⟨by omega, by omega⟩, hdiv]

/-- An encoder that takes what another one takes, at the same offsets and with the same bits. -/
def Extends (y x : Encoder α) : Prop := ∀ p r, x p = some r → y p = some r

section Extends
variable {x y : Encoder α} {f g : α → Encoder β}

theorem Extends.refl (x : Encoder α) : Extends x x := fun _ _ h => h

theorem Extends.bind (h : Extends y x) (hf : ∀ a, Extends (g a) (f a)) : Extends (y >>= g) (x >>= f) := by
  intro p r hr
  obtain ⟨a, as, bs, hx, hb, hbits⟩ := bind_eq_some.mp hr
  exact bind_eq_some.mpr ⟨a, as, bs, h p _ hx, hf a _ _ hb, hbits⟩

theorem Extends.field {ok ok' : Nat → Prop} [DecidablePred ok] [DecidablePred ok'] (bits : List Bool) (a : α)
    (h : ∀ p, ok p → ok' p) : Extends (field ok' bits a) (field ok bits a) := by
  intro p r hr
  obtain ⟨ha, hok, hbits⟩ := field_eq_some.mp hr
  exact field_eq_some.mpr ⟨ha, h p hok, hbits⟩

theorem Extends.block (b : Nat) (h : Extends y x) : Extends (block b y) (block b x) := by
  intro p r hr
  obtain ⟨hp, bits, hbody, hlen, hn, hbits⟩ := block_eq_some.mp hr
  exact block_eq_some.mpr ⟨hp, bits, h _ _ hbody, hlen, hn, hbits⟩

theorem Extends.items {e e' : α → Encoder α} (list : List α) (h : ∀ a ∈ list, Extends (e' a) (e a)) :
    Extends (items e' list) (items e list) := by
  induction list with
  | nil => exact .refl _
  | cons a list ih =>
    exact (h a List.mem_cons_self).bind fun _ =>
      (ih fun b hb => h b (List.mem_cons_of_mem a hb)).bind fun _ => .refl _

end Extends

end Encoder
