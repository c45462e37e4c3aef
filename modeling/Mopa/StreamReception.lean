import Mopa.SectionStream
import Mopa.Lib.Machine

/-! Reception of a whole stream: every section when no packet is lost, and a
subsequence with intact sections guaranteed when packets are lost in runs whose
length is no multiple of the counter's period. -/
namespace Mopa.SectionStream
variable {holds : Nat → Nat → Prop}

/-- Without loss the receiver delivers exactly what was completed. -/
theorem Chain.received {max i j : Nat} {o o' : Open} {ks : List Packet} {ss : List (List UInt8)}
    (hc : Chain holds i j o ks ss o') (hs : ∀ s ∈ ss, Fits max s) (ho : o.Good max) (h : Held)
    (hh : Synced i h o) :
    (Machine.run (absorb max) h ks).2 ++ o'.section = o.section ++ ss := by
  induction hc generalizing h with
  | nil => simp
  | @cons i j o o1 o2 k ks ss ss' hcc hflow hcarry hnew rest ih =>
    have hs1 : ∀ s ∈ ss, Fits max s := fun s h => hs s (by simp [h])
    have hs2 : ∀ s ∈ ss', Fits max s := fun s h => hs s (by simp [h])
    have hstep : Synced (i+1) (absorb max h k).1 o1 ∧
        (absorb max h k).2 ++ o1.section = o.section ++ ss := by
      match o, ho, hh, hflow with
      | some (sent, todo), ho, hh, hflow => exact absorb_synced hcc hflow hs1 ho hh
      | none, _, hh, hflow =>
        obtain rfl : h = none := hh
        have hp : k.pusi = true := by cases hflow <;> rfl
        exact absorb_none hcc hflow hs1 hp
    have hrest := ih hs2 (hflow.good ho hs1) _ hstep.1
    rw [Machine.run_cons, List.append_assoc, hrest, ← List.append_assoc, hstep.2, List.append_assoc]

/-- What is left of a list whose first element has number `i`. -/
def survivors {α : Type*} (keep : Nat → Bool) (i : Nat) : List α → List α
  | [] => []
  | a :: as => if keep i then a :: survivors keep (i+1) as else survivors keep (i+1) as

theorem survivors_append {α : Type*} (keep : Nat → Bool) (i : Nat) (as bs : List α) :
    survivors keep i (as ++ bs) = survivors keep i as ++ survivors keep (i + as.length) bs := by
  induction as generalizing i with
  | nil => rfl
  | cons a as ih =>
    simp only [List.cons_append, survivors, ih, List.length_cons, Nat.add_assoc, Nat.add_comm 1]
    split <;> rfl

theorem survivors_congr {α : Type*} {keep keep' : Nat → Bool} (i : Nat) (as : List α)
    (h : ∀ n, i ≤ n → n < i + as.length → keep n = keep' n) :
    survivors keep i as = survivors keep' i as := by
  induction as generalizing i with
  | nil => rfl
  | cons a as ih =>
    simp only [List.length_cons] at h
    rw [survivors, survivors, h i le_rfl (by omega), ih (i+1) fun n hl hu => h n (by omega) (by omega)]

theorem survivors_all {α : Type*} {keep : Nat → Bool} (i : Nat) (as : List α)
    (h : ∀ n, i ≤ n → n < i + as.length → keep n = true) : survivors keep i as = as := by
  induction as generalizing i with
  | nil => rfl
  | cons a as ih =>
    simp only [List.length_cons] at h
    rw [survivors, if_pos (h i le_rfl (by omega)), ih (i+1) fun n hl hu => h n (by omega) (by omega)]

theorem survivors_none {α : Type*} {keep : Nat → Bool} (i : Nat) (as : List α)
    (h : ∀ n, i ≤ n → n < i + as.length → keep n = false) : survivors keep i as = [] := by
  induction as generalizing i with
  | nil => rfl
  | cons a as ih =>
    simp only [List.length_cons] at h
    rw [survivors, if_neg (by simp [h i le_rfl (by omega)]),
      ih (i+1) fun n hl hu => h n (by omega) (by omega)]

theorem survivors_forall₂ {α β : Type*} {R : α → β → Prop} (keep : Nat → Bool) (i : Nat) {as : List α}
    {bs : List β} (h : List.Forall₂ R as bs) :
    List.Forall₂ R (survivors keep i as) (survivors keep i bs) := by
  induction h generalizing i with
  | nil => exact .nil
  | cons hab _ ih =>
    rw [survivors, survivors]
    split
    · exact .cons hab (ih (i+1))
    · exact ih (i+1)

/-- No maximal run of consecutive losses among packets `0, ..., n-1` has a length
divisible by 16. -/
def GapsVisible (keep : Nat → Bool) (n : Nat) : Prop :=
  ∀ a b, a < b → b ≤ n → (∀ m, a ≤ m → m < b → keep m = false) →
    (a = 0 ∨ keep (a-1) = true) → (b = n ∨ keep b = true) → ¬ 16 ∣ b - a

/-- All packets that hold bytes of section `s` are kept, and so is the one before
the first of them. -/
def Intact (holds : Nat → Nat → Prop) (keep : Nat → Bool) (s : Nat) : Prop :=
  (∀ m, holds s m → keep m = true) ∧ ∀ m, Starts holds s m → m = 0 ∨ keep (m-1) = true

/-- The receiver after the last `g` packets before number `i` were lost. -/
def Behind (i g : Nat) (h : Held) (o : Open) : Prop :=
  h = none ∨ (g = 0 ∧ o ≠ none ∧ Synced i h o) ∨
    (0 < g ∧ g < i ∧ ∃ buf, h = some (ccOf (i-1-g), buf))

theorem Flow.ended {o o1 : Open} {k : Packet} {ss : List (List UInt8)} (h : Flow o k ss o1) :
    ∃ ended, ended ++ o1.section = o.section ++ ss := by
  cases h with
  | middle => exact ⟨[], by simp [Open.section]⟩
  | close => exact ⟨_, by simp [Open.section]; rfl⟩
  | whole => exact ⟨_, List.append_nil _⟩
  | @head _ o ss => exact ⟨o.section ++ ss, by simp [Open.section]⟩

/-- What a kept packet does to the receiver. Either it is ignored, which happens
right behind a gap or while waiting for a start it does not have; or the waiting
receiver picks up what starts in it; or the receiver is in step. -/
inductive Kept (max i g : Nat) (h : Held) (o o1 : Open) (ss : List (List UInt8))
    (r : Held × List (List UInt8)) : Prop
  | ignored (hwhy : 0 < g ∨ (h = none ∧ ss = [])) (hr : r = (none, []))
  | started (hh : h = none) (hsync : Synced (i+1) r.1 o1) (hout : r.2 ++ o1.section = ss)
  | inStep (hsync : Synced (i+1) r.1 o1) (hout : r.2 ++ o1.section = o.section ++ ss)

theorem absorb_kept {max i g : Nat} {h : Held} {o o1 : Open} {k : Packet} {ss : List (List UInt8)}
    (hcc : k.cc = ccOf i) (hflow : Flow o k ss o1) (hs : ∀ s ∈ ss, Fits max s) (ho : o.Good max)
    (hb : Behind i g h o) (hgap : 0 < g → ¬ 16 ∣ g) :
    Kept max i g h o o1 ss (absorb max h k) := by
  rcases hb with rfl | ⟨rfl, hne, hsync⟩ | ⟨hpos, hlt, buf, rfl⟩
  · by_cases hp : k.pusi = true
    · obtain ⟨hsync, hout⟩ := absorb_none hcc hflow hs hp
      exact .started rfl hsync hout
    · refine .ignored (Or.inr ⟨rfl, ?_⟩) (by simp [absorb, hp])
      cases hflow with
      | middle => rfl
      | close => rfl
      | whole => exact absurd rfl hp
      | head => exact absurd rfl hp
  · obtain ⟨⟨sent, todo⟩, rfl⟩ := Option.ne_none_iff_exists'.mp hne
    obtain ⟨hsync', hout⟩ := absorb_synced hcc hflow hs ho hsync
    exact .inStep hsync' hout
  · refine .ignored (Or.inl hpos) ?_
    have hcc' : ¬ ((ccOf (i-1-g) + 1) &&& 0xf = k.cc) := by
      rw [hcc, ccOf_step]
      have := hgap hpos
      omega
    simp [absorb, hcc']

theorem Kept.behind {max i g : Nat} {h : Held} {o o1 : Open} {ss : List (List UInt8)}
    {r : Held × List (List UInt8)} (hk : Kept max i g h o o1 ss r) : Behind (i+1) 0 r.1 o1 := by
  have hsynced (hsync : Synced (i+1) r.1 o1) : Behind (i+1) 0 r.1 o1 := by
    cases o1 with
    | none => exact Or.inl hsync
    | some _ => exact Or.inr (Or.inl ⟨rfl, by simp, hsync⟩)
  cases hk with
  | ignored _ hr => exact Or.inl (by rw [hr])
  | started _ hsync _ => exact hsynced hsync
  | inStep hsync _ => exact hsynced hsync

theorem Behind.lost {i g : Nat} {h : Held} {o : Open} (hb : Behind i g h o) (o1 : Open) :
    Behind (i+1) (g+1) h o1 := by
  rcases hb with rfl | ⟨rfl, hne, hsync⟩ | ⟨hpos, hlt, buf, rfl⟩
  · exact Or.inl rfl
  · obtain ⟨⟨sent, todo⟩, rfl⟩ := Option.ne_none_iff_exists'.mp hne
    obtain ⟨hi, rfl⟩ := hsync
    exact Or.inr (Or.inr ⟨Nat.one_pos, by omega, sent, rfl⟩)
  · exact Or.inr (Or.inr ⟨Nat.succ_pos g, by omega, buf, by congr 3; omega⟩)

theorem survivors_join {α : Type*} (f sel : Nat → Bool) (a b : Nat) (xs ys : List α)
    (hb : b = a + xs.length) :
    survivors (fun s => if s < b then f s else sel s) a (xs ++ ys) =
      survivors f a xs ++ survivors sel b ys := by
  subst hb
  rw [survivors_append]
  congr 1
  · exact survivors_congr a xs fun n _ hu => by simp [hu]
  · exact survivors_congr _ ys fun n hl _ => by simp [Nat.not_lt.mpr hl]

theorem Kept.selection {max i g j : Nat} {h : Held} {o o1 : Open} {ss : List (List UInt8)}
    {r : Held × List (List UInt8)} (hk : Kept max i g h o o1 ss r) {ended : List (List UInt8)}
    (hended : ended ++ o1.section = o.section ++ ss) (hj : o.section.length ≤ j) :
    ∃ f : Nat → Bool, r.2 = survivors f (j - o.section.length) ended ∧
      (ss ≠ [] → g = 0 → Synced (i+1) r.1 o1 ∧ ∀ s, j ≤ s → f s = true) ∧
      (h ≠ none → g = 0 → Synced (i+1) r.1 o1 ∧ ∀ s, f s = true) := by
  cases hk with
  | ignored hwhy hr =>
    refine ⟨fun _ => false, ?_, fun hss hg => ?_, fun hh hg => ?_⟩
    · rw [hr, survivors_none _ _ fun _ _ _ => rfl]
    · rcases hwhy with hpos | ⟨-, hnil⟩
      · omega
      · exact absurd hnil hss
    · rcases hwhy with hpos | ⟨hnone, -⟩
      · omega
      · exact absurd hnone hh
  | started hh hsync hout =>
    have he : ended = o.section ++ r.2 := by
      rw [← hout, ← List.append_assoc] at hended
      exact List.append_cancel_right hended
    refine ⟨fun s => decide (j ≤ s), ?_, fun _ _ => ⟨hsync, by simp⟩, fun hne _ => absurd hh hne⟩
    have hbase : j - o.section.length + o.section.length = j := by omega
    rw [he, survivors_append, hbase,
      survivors_none _ _ (fun s _ hu => by simp; omega), survivors_all _ _ (fun s hl _ => by simp [hl]),
      List.nil_append]
  | inStep hsync hout =>
    have he : ended = r.2 := List.append_cancel_right (hended.trans hout.symm)
    exact ⟨fun _ => true, by rw [he, survivors_all _ _ fun _ _ _ => rfl],
      fun _ _ => ⟨hsync, fun _ _ => rfl⟩, fun _ _ => ⟨hsync, fun _ => rfl⟩⟩

theorem Synced.ne_none {i : Nat} {h : Held} {o : Open} (hs : Synced i h o) (ho : o ≠ none) :
    h ≠ none := by
  match o, ho with
  | some (sent, todo), _ =>
    rw [hs.2]
    simp

theorem Open.section_length_le (o : Open) : o.section.length ≤ 1 := by
  match o with
  | none => simp [Open.section]
  | some (sent, todo) => simp [Open.section]

theorem Open.ne_none_of_section {o : Open} (h : 0 < o.section.length) : o ≠ none := by
  rintro rfl
  simp [Open.section] at h

/-- The receiver delivers a choice of the open section and the sections that start later. The
choice includes every intact section, and the open one if the receiver is in step and loses
none of its packets. -/
structure Selected (holds : Nat → Nat → Prop) (max : Nat) (keep sel : Nat → Bool) (i j : Nat) (o : Open) (ks : List Packet)
    (ss : List (List UInt8)) (h : Held) (g : Nat) : Prop where
  delivers : (Machine.run (absorb max) h (survivors keep i ks)).2 = survivors sel (j - o.section.length) (o.section ++ ss)
  intact : ∀ s, j ≤ s → s < j + ss.length → Intact holds keep s → sel s = true
  current : h ≠ none → g = 0 → o ≠ none → (∀ m, holds (j-1) m → keep m = true) → sel (j-1) = true

namespace Selected
variable {max i j g : Nat} {keep sel : Nat → Bool} {o o1 : Open} {k : Packet} {ks : List Packet}
  {ss ss' ended : List (List UInt8)} {h : Held}

/-- The choice for the sections that end in a packet, and the choice of the rest. -/
def join (j : Nat) (o1 : Open) (ss : List (List UInt8)) (f sel : Nat → Bool) (s : Nat) : Bool :=
  if s < j + ss.length - o1.section.length then f s else sel s

theorem survivors_ended (hended : ended ++ o1.section = o.section ++ ss) (hj : o.section.length ≤ j) (f sel : Nat → Bool) :
    survivors (join j o1 ss f sel) (j - o.section.length) (o.section ++ (ss ++ ss')) =
      survivors f (j - o.section.length) ended ++
        survivors sel (j + ss.length - o1.section.length) (o1.section ++ ss') := by
  have hlen := congrArg List.length hended
  simp only [List.length_append] at hlen
  rw [← List.append_assoc, ← hended, List.append_assoc]
  exact survivors_join f sel _ _ _ _ (by omega)

theorem lost (hkeep : keep i = false) (hended : ended ++ o1.section = o.section ++ ss) (hj : o.section.length ≤ j)
    (hcarry : o ≠ none → holds (j-1) i) (hnew : ∀ s, j ≤ s → s < j + ss.length → Starts holds s i)
    (hrest : Selected holds max keep sel (i+1) (j + ss.length) o1 ks ss' h (g+1)) :
    Selected holds max keep (join j o1 ss (fun _ => false) sel) i j o (k :: ks) (ss ++ ss') h g where
  delivers := by
    rw [survivors, if_neg (by simp [hkeep]), survivors_ended hended hj, survivors_none _ _ fun _ _ _ => rfl, List.nil_append,
      hrest.delivers]
  intact := fun s hl hu hint => by
    simp only [List.length_append] at hu
    by_cases hs' : s < j + ss.length
    · have hkept := hint.1 i (hnew s hl hs').1
      rw [hkeep] at hkept
      cases hkept
    · unfold join
      rw [if_neg (by omega)]
      exact hrest.intact s (by omega) (by omega) hint
  current := fun _ _ hone hall => by
    have hkept := hall i (hcarry hone)
    rw [hkeep] at hkept
    cases hkept

theorem kept (hkeep : keep i = true) (hended : ended ++ o1.section = o.section ++ ss) (hj : o.section.length ≤ j)
    (hnew : ∀ s, j ≤ s → s < j + ss.length → Starts holds s i) (hg : g ≤ i)
    (hlost : ∀ m, i - g ≤ m → m < i → keep m = false) (hkept : Kept max i g h o o1 ss (absorb max h k))
    (hrest : Selected holds max keep sel (i+1) (j + ss.length) o1 ks ss' (absorb max h k).1 0) :
    ∃ sel', Selected holds max keep sel' i j o (k :: ks) (ss ++ ss') h g := by
  obtain ⟨f, hf, hfnew, hfopen⟩ := hkept.selection hended hj
  have ho1 := o1.section_length_le
  -- a section that is open behind the packet is chosen with the rest
  have hlast (hsync : Synced (i+1) (absorb max h k).1 o1) {s : Nat} (hs : s = j + ss.length - 1)
      (hopen : 0 < o1.section.length) (hall : ∀ m, holds s m → keep m = true) : sel s = true := by
    subst hs
    have hne := Open.ne_none_of_section hopen
    exact hrest.current (hsync.ne_none hne) rfl hne hall
  refine ⟨join j o1 ss f sel, ?_, fun s hl hu hint => ?_, fun hne hg0 hone hall => ?_⟩
  · rw [survivors, if_pos hkeep, Machine.run_cons, survivors_ended hended hj, ← hf, hrest.delivers]
  · simp only [List.length_append] at hu
    unfold join
    by_cases hs' : s < j + ss.length
    · have hg0 : g = 0 := by
        by_contra hne
        have hgap := hlost (i-1) (by omega) (by omega)
        rcases hint.2 i (hnew s hl hs') with h0 | h1
        · omega
        · rw [hgap] at h1
          cases h1
      have hstarts : ss ≠ [] := by
        rintro rfl
        simp at hs'
        omega
      obtain ⟨hsync, hall⟩ := hfnew hstarts hg0
      split
      · exact hall s hl
      · exact hlast hsync (by omega) (by omega) hint.1
    · rw [if_neg (by omega)]
      exact hrest.intact s (by omega) (by omega) hint
  · obtain ⟨hsync, hf1⟩ := hfopen hne hg0
    have hpos : 0 < o.section.length := by
      cases o with
      | none => exact absurd rfl hone
      | some _ => simp [Open.section]
    unfold join
    split
    · exact hf1 _
    · exact hlast hsync (by omega) (by omega) hall

end Selected

/-- Delivery under loss, from any point of the stream on. -/
theorem Chain.lossy {max n : Nat} {keep : Nat → Bool} (hgaps : GapsVisible keep n)
    {i j : Nat} {o o' : Open} {ks : List Packet} {ss : List (List UInt8)}
    (hc : Chain holds i j o ks ss o') (hend : o' = none) (hn : i + ks.length = n) (hs : ∀ s ∈ ss, Fits max s)
    (ho : o.Good max) (hj : o.section.length ≤ j) (h : Held) (g : Nat) (hg : g ≤ i)
    (hlost : ∀ m, i - g ≤ m → m < i → keep m = false) (hbefore : i - g = 0 ∨ keep (i-g-1) = true)
    (hb : Behind i g h o) : ∃ sel, Selected holds max keep sel i j o ks ss h g := by
  induction hc generalizing h g with
  | nil =>
    subst hend
    exact ⟨fun _ => true, rfl, by simp, fun _ _ ho => absurd rfl ho⟩
  | @cons i j o o1 o2 k ks ss ss' hcc hflow hcarry hnew rest ih =>
    obtain ⟨ended, hended⟩ := hflow.ended
    have hs1 : ∀ s ∈ ss, Fits max s := fun s h => hs s (by simp [h])
    have hs2 : ∀ s ∈ ss', Fits max s := fun s h => hs s (by simp [h])
    simp only [List.length_cons] at hn
    have hj1 : o1.section.length ≤ j + ss.length := by
      have hlen := congrArg List.length hended
      simp only [List.length_append] at hlen
      omega
    by_cases hkeep : keep i = true
    · have hgap : 0 < g → ¬ 16 ∣ g := by
        intro hpos hdvd
        refine hgaps (i-g) i (by omega) (by omega) hlost hbefore (Or.inr hkeep) ?_
        rwa [Nat.sub_sub_self hg]
      have hkept := absorb_kept hcc hflow hs1 ho hb hgap
      obtain ⟨sel, hrest⟩ := ih hend (by omega) hs2 (hflow.good ho hs1) hj1 (absorb max h k).1 0 (Nat.zero_le _)
        (fun m _ _ => by omega) (Or.inr hkeep) hkept.behind
      exact Selected.kept hkeep hended hj hnew hg hlost hkept hrest
    · have hkeep' : keep i = false := by simpa using hkeep
      have hgap (m : Nat) (hl : i + 1 - (g + 1) ≤ m) (hu : m < i + 1) : keep m = false := by
        by_cases hm : m = i
        · rw [hm, hkeep']
        · exact hlost m (by omega) (by omega)
      obtain ⟨sel, hrest⟩ := ih hend (by omega) hs2 (hflow.good ho hs1) hj1 h (g+1) (by omega) hgap
        (by simpa only [Nat.add_sub_add_right] using hbefore) (hb.lost o1)
      exact ⟨_, Selected.lost hkeep' hended hj hcarry hnew hrest⟩

end Mopa.SectionStream
