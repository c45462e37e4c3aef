import Mathlib.Data.Set.Basic
import Mathlib.Data.List.Nodup
import Mathlib.Logic.Function.Basic

/-! Objects on a heap and lists of pointers that own them. An access to an object that is not
alive has no result. What a list owns is stated in the frame of all other objects, and what an
operation changes is stated as what it keeps. -/
namespace Ownership

/-- The objects that are alive, and the first address that was never used. -/
structure Heap (α : Type) where
  cells : Nat → Option α
  next : Nat

namespace Heap
variable {α : Type}

def empty : Heap α := ⟨fun _ => none, 0⟩

def set (h : Heap α) (p : Nat) (a : Option α) : Heap α :=
  { h with cells := fun q => if q = p then a else h.cells q }

def load (h : Heap α) (p : Nat) : Option α := h.cells p

def store (h : Heap α) (p : Nat) (a : α) : Option (Heap α) := (h.cells p).map fun _ => h.set p (some a)

def new (h : Heap α) (a : α) : Nat × Heap α := (h.next, { h.set h.next (some a) with next := h.next + 1 })

def delete (h : Heap α) (p : Nat) : Option (Heap α) := (h.cells p).map fun _ => h.set p none

def deleteAll (h : Heap α) : List Nat → Option (Heap α)
  | [] => some h
  | p :: ps => do
    let h ← h.delete p
    h.deleteAll ps

def copyAll (h : Heap α) : List Nat → Option (List Nat × Heap α)
  | [] => some ([], h)
  | p :: ps => do
    let a ← h.load p
    let (qs, h') ← (h.new a).2.copyAll ps
    return ((h.new a).1 :: qs, h')

@[simp] theorem set_self (h : Heap α) (p : Nat) (a : Option α) : (h.set p a).cells p = a := if_pos rfl

theorem set_ne (h : Heap α) {p q : Nat} (a : Option α) (hq : q ≠ p) : (h.set p a).cells q = h.cells q := if_neg hq

/-- The pointers own their objects; all other objects are those of the frame. -/
structure Owns (h : Heap α) (ps : List Nat) (frame : Set Nat) : Prop where
  nodup : ps.Nodup
  live : ∀ p, (h.cells p).isSome ↔ p ∈ ps ∨ p ∈ frame
  apart : ∀ p ∈ ps, p ∉ frame
  below : ∀ p, (h.cells p).isSome → p < h.next

def Keeps (h h' : Heap α) (s : Set Nat) : Prop := ∀ p ∈ s, h'.cells p = h.cells p

def Holds (h : Heap α) (ps : List Nat) (as : List α) : Prop := List.Forall₂ (fun p a => h.cells p = some a) ps as

section Rules
variable {h h' h'' : Heap α} {ps qs : List Nat} {as bs : List α} {s t : Set Nat} {p : Nat} {a : α}

theorem Keeps.refl (h : Heap α) (s : Set Nat) : h.Keeps h s := fun _ _ => rfl

theorem Keeps.trans (h1 : h.Keeps h' s) (h2 : h'.Keeps h'' s) : h.Keeps h'' s := fun p hp => (h2 p hp).trans (h1 p hp)

theorem Keeps.mono (h1 : h.Keeps h' t) (hst : ∀ p ∈ s, p ∈ t) : h.Keeps h' s := fun p hp => h1 p (hst p hp)

theorem Holds.keeps (h1 : h.Holds ps as) (h2 : h.Keeps h' s) (hps : ∀ p ∈ ps, p ∈ s) : h'.Holds ps as := by
  induction h1 with
  | nil => exact .nil
  | @cons p a ps as hp _ ih =>
    exact .cons ((h2 p (hps p List.mem_cons_self)).trans hp) (ih fun q hq => hps q (List.mem_cons_of_mem p hq))

theorem Holds.live (h1 : h.Holds ps as) : ∀ p ∈ ps, (h.cells p).isSome := by
  induction h1 with
  | nil => exact nofun
  | cons hp _ ih => exact List.forall_mem_cons.mpr ⟨by rw [hp]; rfl, ih⟩

theorem Holds.append (h1 : h.Holds ps as) (h2 : h.Holds qs bs) : h.Holds (ps ++ qs) (as ++ bs) := by
  induction h1 with
  | nil => exact h2
  | cons hp _ ih => exact .cons hp ih

theorem Owns.empty : (empty : Heap α).Owns [] ∅ :=
  ⟨List.nodup_nil, fun p => iff_of_false Bool.false_ne_true (not_or.mpr ⟨List.not_mem_nil, Set.notMem_empty p⟩), nofun,
    fun _ h => by cases h⟩

theorem Owns.new (h1 : h.Owns ps s) (a : α) :
    (h.new a).2.Owns (ps ++ [(h.new a).1]) s ∧ (h.new a).2.cells (h.new a).1 = some a ∧
      h.Keeps (h.new a).2 {p | (h.cells p).isSome} := by
  have hfresh (p : Nat) (hp : (h.cells p).isSome) : p ≠ h.next := fun heq => Nat.lt_irrefl _ (heq ▸ h1.below p hp)
  have hcell (p : Nat) (hp : p ≠ h.next) : (h.new a).2.cells p = h.cells p := h.set_ne _ hp
  have hself : (h.new a).2.cells h.next = some a := h.set_self _ _
  refine ⟨⟨?_, fun p => ?_, fun p hp => ?_, fun p hp => ?_⟩, hself, fun p hp => hcell p (hfresh p hp)⟩
  · refine List.nodup_append.mpr ⟨h1.nodup, List.nodup_singleton _, fun p hp q hq => ?_⟩
    rw [List.mem_singleton.mp hq]
    exact hfresh p ((h1.live p).mpr (.inl hp))
  · by_cases heq : p = h.next
    · subst heq
      rw [hself]
      exact iff_of_true rfl (.inl (List.mem_append_right _ (List.mem_singleton_self _)))
    · rw [hcell p heq, h1.live, List.mem_append, List.mem_singleton]
      exact or_congr_left (or_iff_left heq).symm
  · rcases List.mem_append.mp hp with hold | hnew
    · exact h1.apart p hold
    · rw [List.mem_singleton.mp hnew]
      exact fun hs => hfresh _ ((h1.live _).mpr (.inr hs)) rfl
  · show p < h.next + 1
    by_cases heq : p = h.next
    · omega
    · rw [hcell p heq] at hp
      have := h1.below p hp
      omega

theorem Owns.store (h1 : h.Owns ps s) (hp : p ∈ ps) (a : α) :
    ∃ h', h.store p a = some h' ∧ h'.Owns ps s ∧ h'.cells p = some a ∧ h.Keeps h' {q | q ≠ p} := by
  obtain ⟨b, hb⟩ := Option.isSome_iff_exists.mp ((h1.live p).mpr (.inl hp))
  refine ⟨h.set p (some a), by rw [Heap.store, hb]; rfl, ⟨h1.nodup, fun q => ?_, h1.apart, fun q hq => ?_⟩, h.set_self _ _,
    fun q hq => h.set_ne _ hq⟩
  · by_cases heq : q = p
    · subst heq
      rw [set_self]
      exact iff_of_true rfl (.inl hp)
    · rw [h.set_ne _ heq]
      exact h1.live q
  · by_cases heq : q = p
    · exact heq ▸ h1.below p (by rw [hb]; rfl)
    · rw [h.set_ne _ heq] at hq
      exact h1.below q hq

theorem Owns.delete (h1 : h.Owns (p :: ps) s) :
    ∃ h', h.delete p = some h' ∧ h'.Owns ps s ∧ h.Keeps h' {q | q ≠ p} := by
  obtain ⟨b, hb⟩ := Option.isSome_iff_exists.mp ((h1.live p).mpr (.inl List.mem_cons_self))
  obtain ⟨hnotin, hnodup⟩ := List.nodup_cons.mp h1.nodup
  refine ⟨h.set p none, by rw [Heap.delete, hb]; rfl, ⟨hnodup, fun q => ?_, fun q hq => h1.apart q (List.mem_cons_of_mem p hq),
    fun q hq => ?_⟩, fun q hq => h.set_ne _ hq⟩
  · by_cases heq : q = p
    · subst heq
      rw [set_self]
      exact iff_of_false Bool.false_ne_true (not_or.mpr ⟨hnotin, h1.apart q List.mem_cons_self⟩)
    · rw [h.set_ne _ heq, h1.live, List.mem_cons]
      exact or_congr_left (or_iff_right heq)
  · by_cases heq : q = p
    · subst heq
      rw [set_self] at hq
      cases hq
    · rw [h.set_ne _ heq] at hq
      exact h1.below q hq

theorem Owns.deleteAll (h1 : h.Owns (ps ++ qs) s) :
    ∃ h', h.deleteAll ps = some h' ∧ h'.Owns qs s ∧ h.Keeps h' {q | q ∉ ps} := by
  induction ps generalizing h with
  | nil => exact ⟨h, rfl, h1, .refl h _⟩
  | cons p ps ih =>
    obtain ⟨h2, hdelete, howns, hkeeps⟩ := h1.delete
    obtain ⟨h3, hrest, howns', hkeeps'⟩ := ih howns
    refine ⟨h3, by rw [Heap.deleteAll, hdelete]; exact hrest, howns', ?_⟩
    refine Keeps.trans (hkeeps.mono fun q hq => ?_) (hkeeps'.mono fun q hq hmem => hq (List.mem_cons_of_mem p hmem))
    rintro rfl
    exact hq List.mem_cons_self

theorem Owns.copyAll (h1 : h.Owns ps s) (hqs : h.Holds qs as) :
    ∃ qs' h', h.copyAll qs = some (qs', h') ∧ h'.Owns (ps ++ qs') s ∧ h'.Holds qs' as ∧
      h.Keeps h' {p | (h.cells p).isSome} := by
  induction qs generalizing h ps as with
  | nil =>
    cases hqs
    exact ⟨[], h, rfl, by rwa [List.append_nil], .nil, .refl h _⟩
  | cons q qs ih =>
    cases hqs with
    | @cons _ a _ as hq hqs =>
      have hqs : h.Holds qs as := hqs
      obtain ⟨howns, hcell, hkeeps⟩ := h1.new a
      have hlive (p : Nat) (hp : (h.cells p).isSome) : ((h.new a).2.cells p).isSome := by rwa [hkeeps p hp]
      obtain ⟨qs', h', hcopy, howns', hholds, hkeeps'⟩ := ih howns (hqs.keeps hkeeps hqs.live)
      refine ⟨(h.new a).1 :: qs', h', ?_, ?_, ?_, ?_⟩
      · show (h.cells q).bind _ = _
        rw [hq]
        show ((h.new a).2.copyAll qs).bind _ = _
        rw [hcopy]
        rfl
      · rwa [List.append_assoc] at howns'
      · exact .cons ((hkeeps' _ (Option.isSome_of_eq_some hcell)).trans hcell) hholds
      · exact hkeeps.trans (hkeeps'.mono hlive)

end Rules

end Heap

/-- A heap, and variables whose values are lists of pointers. -/
structure Store (α : Type) where
  heap : Heap α
  vectors : Nat → Option (List Nat)

namespace Store
variable {α : Type}

def empty : Store α := ⟨.empty, fun _ => none⟩

def put (st : Store α) (v : Nat) (x : Option (List Nat)) (h : Heap α) : Store α :=
  ⟨h, Function.update st.vectors v x⟩

def pointers (st : Store α) (v : Nat) : List Nat := (st.vectors v).getD []

def others (st : Store α) (v : Nat) : Set Nat := {p | ∃ w, w ≠ v ∧ p ∈ st.pointers w}

/-- Every object is owned by one variable, and there is only one pointer to it. -/
def Sound (st : Store α) : Prop := ∀ v, st.heap.Owns (st.pointers v) (st.others v)

def Shows (st : Store α) (as : Nat → Option (List α)) : Prop := ∀ v, Option.Rel st.heap.Holds (st.vectors v) (as v)

section Rules
variable {st : Store α} {v w : Nat} {x : Option (List Nat)} {h : Heap α} {as : Nat → Option (List α)} {b : Option (List α)}

theorem pointers_put (st : Store α) (v : Nat) (x : Option (List Nat)) (h : Heap α) (w : Nat) :
    (st.put v x h).pointers w = if w = v then x.getD [] else st.pointers w := by
  unfold pointers put
  dsimp only
  rw [Function.update_apply]
  split
  · rfl
  · rfl

theorem pointers_of_vectors {ps : List Nat} (h : st.vectors v = some ps) : st.pointers v = ps := by
  rw [pointers, h]
  rfl

theorem mem_others (hw : w ≠ v) : ∀ p ∈ st.pointers w, p ∈ st.others v := fun _ hp => ⟨w, hw, hp⟩

theorem Sound.empty : (empty : Store α).Sound := fun v =>
  ⟨List.nodup_nil, fun p => iff_of_false Bool.false_ne_true
    (not_or.mpr ⟨List.not_mem_nil, fun hp => by obtain ⟨w, -, hp⟩ := hp; cases hp⟩), nofun, fun _ h => by cases h⟩

theorem Shows.empty : (empty : Store α).Shows fun _ => none := fun _ => .none

theorem Sound.put (hs : st.Sound) (ho : h.Owns (x.getD []) (st.others v)) : (st.put v x h).Sound := by
  intro w
  rw [pointers_put]
  have hothers (p : Nat) : p ∈ (st.put v x h).others w ↔ ∃ u, u ≠ w ∧ p ∈ if u = v then x.getD [] else st.pointers u := by
    refine exists_congr fun u => and_congr_right fun _ => ?_
    rw [pointers_put]
  by_cases hw : w = v
  · subst hw
    rw [if_pos rfl]
    have hsame : (st.put w x h).others w = st.others w := Set.ext fun p => by
      rw [hothers]
      refine exists_congr fun u => and_congr_right fun hu => ?_
      rw [if_neg hu]
    rwa [hsame]
  · rw [if_neg hw]
    refine ⟨(hs w).nodup, fun p => ?_, fun p hp hmem => ?_, ho.below⟩
    · refine (ho.live p).trans ?_
      rw [hothers]
      constructor
      · rintro (hx | ⟨u, hu, hp⟩)
        · exact .inr ⟨v, Ne.symm hw, by rwa [if_pos rfl]⟩
        · by_cases huw : u = w
          · exact .inl (huw ▸ hp)
          · exact .inr ⟨u, huw, by rwa [if_neg hu]⟩
      · rintro (hp | ⟨u, -, hp⟩)
        · exact .inr (mem_others hw p hp)
        · by_cases hu : u = v
          · rw [if_pos hu] at hp
            exact .inl hp
          · rw [if_neg hu] at hp
            exact .inr (mem_others hu p hp)
    · obtain ⟨u, hu, hmem⟩ := (hothers p).mp hmem
      by_cases huv : u = v
      · rw [if_pos huv] at hmem
        exact ho.apart p hmem (mem_others hw p hp)
      · rw [if_neg huv] at hmem
        exact (hs w).apart p hp (mem_others hu p hmem)

theorem Shows.put (hs : st.Shows as) (hk : st.heap.Keeps h (st.others v)) (hx : Option.Rel h.Holds x b) :
    (st.put v x h).Shows (Function.update as v b) := by
  intro w
  unfold Store.put
  dsimp only
  rw [Function.update_apply, Function.update_apply]
  split
  · exact hx
  · next hw =>
    have hrel := hs w
    have hmem : ∀ p ∈ st.pointers w, p ∈ st.others v := mem_others hw
    unfold pointers at hmem
    generalize st.vectors w = y at hrel hmem
    generalize as w = b at hrel
    cases hrel with
    | none => exact .none
    | some hholds => exact .some (hholds.keeps hk hmem)

theorem Shows.exists_vector (ha : st.Shows as) (hv : (as v).isSome) :
    ∃ ps list, st.vectors v = some ps ∧ as v = some list ∧ st.heap.Holds ps list := by
  have hrel := ha v
  obtain ⟨list, hlist⟩ := Option.isSome_iff_exists.mp hv
  rw [hlist] at hrel
  generalize hps : st.vectors v = x at hrel
  cases hrel with
  | @some ps _ hholds => exact ⟨ps, list, rfl, hlist, hholds⟩

theorem Sound.owns_vector {ps : List Nat} (hs : st.Sound) (hv : st.vectors v = some ps) : st.heap.Owns ps (st.others v) :=
  pointers_of_vectors hv ▸ hs v

theorem Sound.owns_nothing (hs : st.Sound) (ha : st.Shows as) (hv : ¬ (as v).isSome) : st.heap.Owns [] (st.others v) := by
  have hrel := ha v
  rw [Option.not_isSome_iff_eq_none.mp hv] at hrel
  have howns := hs v
  unfold pointers at howns
  generalize st.vectors v = x at hrel howns
  cases hrel
  exact howns

theorem Sound.purged {ps : List Nat} (hs : st.Sound) (hv : st.vectors v = some ps) :
    ∃ h, st.heap.deleteAll ps = some h ∧ h.Owns [] (st.others v) ∧ st.heap.Keeps h (st.others v) := by
  have howns := hs.owns_vector hv
  rw [← List.append_nil ps] at howns
  obtain ⟨h, hdelete, howns', hkeeps⟩ := howns.deleteAll
  exact ⟨h, hdelete, howns', hkeeps.mono fun p hp hmem => howns.apart p (List.mem_append_left _ hmem) hp⟩

theorem Sound.copied {h : Heap α} {qs : List Nat} {list : List α} (hs : st.Sound) (ha : st.Shows as)
    (ho : h.Owns [] (st.others v)) (hk : st.heap.Keeps h (st.others v)) (hqs : h.Holds qs list) :
    ∃ qs' h', h.copyAll qs = some (qs', h') ∧ (st.put v (some qs') h').Sound ∧
      (st.put v (some qs') h').Shows (Function.update as v (some list)) := by
  obtain ⟨qs', h', hcopy, howns, hholds, hkeeps⟩ := ho.copyAll hqs
  refine ⟨qs', h', hcopy, hs.put howns, ha.put (hk.trans (hkeeps.mono fun p hp => ?_)) (.some hholds)⟩
  exact (ho.live p).mpr (.inr hp)

theorem Sound.no_leak (hs : st.Sound) (hnone : ∀ v, st.vectors v = none) (p : Nat) : st.heap.cells p = none := by
  have hlive := (hs 0).live p
  have hpointers (v : Nat) : st.pointers v = [] := by
    rw [pointers, hnone]
    rfl
  refine Option.not_isSome_iff_eq_none.mp fun hp => ?_
  rcases hlive.mp hp with hmem | ⟨w, -, hmem⟩
  · rw [hpointers] at hmem
    cases hmem
  · rw [hpointers] at hmem
    cases hmem

end Rules

end Store

end Ownership
