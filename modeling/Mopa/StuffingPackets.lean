import Mopa.MergerAccess
import Mopa.TsRoundTrip

/-! Packets without payload between those of a stream: the extractor overlooks them just while
it waits for a section, and takes their counter for a gap otherwise. -/
namespace Mopa.Merger
open Mopa.SectionStream
open Mopa.TsRoundTrip (extractor delivered deliveredInside deliveredInside_eq deliveredInside_of_holdsAll)

def AdaptationOnly (p : Memory UInt8) : Prop :=
  (p 3 >>> 4) &&& 3 = 2 ∧ (p 1 >>> 6) &&& 1 = 0 ∧ p 4 = 183

instance : DecidablePred AdaptationOnly := fun _ => inferInstanceAs (Decidable (_ ∧ _ ∧ _))

inductive Slot where
  | fed (p : Memory UInt8)
  | inserted (p : Memory UInt8)

def Slot.packet : Slot → Memory UInt8
  | .fed p | .inserted p => p

def fed (slots : List Slot) : List (Memory UInt8) :=
  slots.filterMap fun
    | .fed p => some p
    | .inserted _ => none

/-- A packet without payload repeats the counter of the packet before it. -/
def Repeats (before : List (Memory UInt8)) (q : Memory UInt8) : Prop :=
  ∀ p, before.getLast? = some p → q 3 &&& 0xf = p 3 &&& 0xf

def Inserts (slots : List Slot) : Prop :=
  ∀ pre q post, slots = pre ++ .inserted q :: post → AdaptationOnly q ∧ Repeats (pre.map Slot.packet) q

/-- The sections delivered are those of the stream without the insertions. -/
def Undisturbed (maxSectionSize : Nat) (data : Memory UInt8) (slots : List Slot) : Prop :=
  ∃ ss, deliveredInside maxSectionSize data (slots.map Slot.packet) = some ss ∧
    deliveredInside maxSectionSize data (fed slots) = some ss

theorem packet_insertion (pre post : List (Memory UInt8)) (q : Memory UInt8) :
    (pre.map Slot.fed ++ Slot.inserted q :: post.map Slot.fed).map Slot.packet = pre ++ q :: post := by
  simp [Slot.packet, Function.comp_def]

theorem fed_insertion (pre post : List (Memory UInt8)) (q : Memory UInt8) :
    fed (pre.map .fed ++ .inserted q :: post.map .fed) = pre ++ post := by
  simp [fed, List.filterMap_map]

/-- No section is in progress behind the packets, or none is ever delivered. -/
def Idles (maxSectionSize : Nat) (data : Memory UInt8) (ps : List (Memory UInt8)) : Prop :=
  (Machine.run PsiExtractorImpl.tsPacket (extractor maxSectionSize data) ps).1.state = .waitStart ∨ maxSectionSize < 3

theorem State.eq_waitMore {s : State} (h : s ≠ .waitStart) : s = .waitMore := by
  cases s with
  | waitStart => exact absurd rfl h
  | waitMore => rfl

namespace PsiExtractorImpl

theorem tsPacket_counter (x : PsiExtractorImpl) (p : Memory UInt8) (h : (x.tsPacket p).1.state = .waitMore) :
    (x.tsPacket p).1.cc = p 3 &&& 0xf := by
  rw [tsPacket_eq] at h ⊢
  unfold handled at h ⊢
  cases hcontent : x.content p with
  | none =>
    rw [hcontent] at h
    cases h
  | some bytes =>
    obtain ⟨-, -, hcc⟩ := moreSections_frame { x.opened p with
      data := (x.opened p).data.write (x.opened p).dataLen (p.read (x.contentAt p) (tsPacketLen - x.contentAt p))
      dataLen := (x.opened p).dataLen + (tsPacketLen - x.contentAt p) } 0
    exact hcc

theorem tsPacket_overlooked (x : PsiExtractorImpl) {q : Memory UInt8} (hq : AdaptationOnly q) (hs : x.state = .waitStart) :
    x.tsPacket q = (x, []) := by
  rw [tsPacket_waitStart x q hs, if_pos hq.2.1]

theorem tsPacket_reset (x : PsiExtractorImpl) {q : Memory UInt8} (hs : x.state = .waitMore) (hcc : x.cc = q 3 &&& 0xf) :
    (x.tsPacket q).1.state = .waitStart ∧ (x.tsPacket q).2 = [] := by
  have hgap : (x.cc + 1) &&& 0xf ≠ q 3 &&& 0xf := by
    have hlt : (q 3 &&& 0xf).toNat < 16 := by
      rw [UInt8.toNat_and]
      exact Nat.and_lt_two_pow _ (by decide : (0xf : UInt8).toNat < 2^4)
    rw [hcc]
    intro h
    have hnat := congrArg UInt8.toNat h
    rw [UInt8.toNat_and, UInt8.toNat_add] at hnat
    have hmask : ((q 3 &&& 0xf).toNat + (1 : UInt8).toNat) % 2^8 &&& (0xf : UInt8).toNat =
        ((q 3 &&& 0xf).toNat + 1) % 2^8 % 2^4 := Nat.and_two_pow_sub_one_eq_mod _ 4
    omega
  rw [tsPacket_waitMore x q hs, if_pos hgap]
  exact ⟨rfl, rfl⟩

theorem tsPacket_small (x : PsiExtractorImpl) (p : Memory UInt8) (h : x.maxSectionSize < 3) : sections (x.tsPacket p).2 = [] := by
  rw [tsPacket_eq]
  refine List.filterMap_eq_nil_iff.mpr fun e he => ?_
  cases e with
  | fetch => rfl
  | append => rfl
  | compact => rfl
  | sectionReady pos bytes =>
    have hmem : Event.sectionReady pos bytes ∈ (x.handled p).2 := (List.mem_append.mp he).resolve_left (by simp)
    unfold handled at hmem
    cases hcontent : x.content p with
    | none =>
      rw [hcontent] at hmem
      cases hmem
    | some _ =>
      rw [hcontent] at hmem
      have hevent := (List.mem_cons.mp hmem).resolve_left (by simp)
      obtain ⟨-, -, -, hwf, hle⟩ := moreSections_events _ 0 _ hevent
      have hthree : 3 ≤ bytes.length := by
        match bytes, hwf with
        | _ :: _ :: _ :: _, _ => simp
      exact absurd (hthree.trans hle) (Nat.not_le.mpr h)

end PsiExtractorImpl

section Runs
variable {maxSectionSize : Nat} {data : Memory UInt8}

theorem run_frame (ps : List (Memory UInt8)) (x : PsiExtractorImpl) :
    (Machine.run PsiExtractorImpl.tsPacket x ps).1.maxSectionSize = x.maxSectionSize ∧
      (Machine.run PsiExtractorImpl.tsPacket x ps).1.callback = x.callback := by
  induction ps generalizing x with
  | nil => exact ⟨rfl, rfl⟩
  | cons p ps ih =>
    obtain ⟨hmax, hcb⟩ := ih (x.tsPacket p).1
    obtain ⟨hmax', hcb'⟩ := x.tsPacket_frame p
    exact ⟨hmax.trans hmax', hcb.trans hcb'⟩

theorem run_small (ps : List (Memory UInt8)) (x : PsiExtractorImpl) (h : x.maxSectionSize < 3) :
    sections (Machine.run PsiExtractorImpl.tsPacket x ps).2 = [] := by
  induction ps generalizing x with
  | nil => rfl
  | cons p ps ih =>
    rw [Machine.run_cons, sections_concat, x.tsPacket_small p h, ih _ ((x.tsPacket_frame p).1 ▸ h), List.append_nil]

theorem delivered_small (h : maxSectionSize < 3) (ps : List (Memory UInt8)) : delivered maxSectionSize data ps = [] :=
  run_small ps _ (show min maxSectionSize 4096 < 3 by omega)

theorem delivered_append (ps ps' : List (Memory UInt8)) :
    delivered maxSectionSize data (ps ++ ps') = delivered maxSectionSize data ps ++
      sections (Machine.run PsiExtractorImpl.tsPacket
        (Machine.run PsiExtractorImpl.tsPacket (extractor maxSectionSize data) ps).1 ps').2 := by
  rw [delivered, Machine.run_append, sections_concat]
  rfl

/-- With packets inserted while sections are waited for a run ends as without them. -/
theorem run_inserted (slots : List Slot) (x : PsiExtractorImpl)
    (h : ∀ pre q post, slots = pre ++ .inserted q :: post →
      AdaptationOnly q ∧ (Machine.run PsiExtractorImpl.tsPacket x (fed pre)).1.state = .waitStart) :
    Machine.run PsiExtractorImpl.tsPacket x (slots.map Slot.packet) = Machine.run PsiExtractorImpl.tsPacket x (fed slots) := by
  induction slots generalizing x with
  | nil => rfl
  | cons slot slots ih =>
    cases slot with
    | fed p =>
      have hrest := ih (x.tsPacket p).1 fun pre q post heq => h (.fed p :: pre) q post (congrArg (Slot.fed p :: ·) heq)
      show Machine.run _ _ (p :: slots.map Slot.packet) = Machine.run _ _ (p :: fed slots)
      rw [Machine.run_cons, Machine.run_cons, hrest]
    | inserted q =>
      obtain ⟨hq, hs⟩ := h [] q slots rfl
      have hrest := ih x fun pre q' post heq => h (.inserted q :: pre) q' post (congrArg (Slot.inserted q :: ·) heq)
      show Machine.run _ _ (q :: slots.map Slot.packet) = Machine.run _ _ (fed slots)
      rw [Machine.run_cons, x.tsPacket_overlooked hq hs, hrest]
      rfl

/-- A packet with three bytes of a section in progress and a section of three bytes. -/
def probe (cc t : UInt8) : Memory UInt8 := fun i => [0x47, 0x40, 0, 0x10 ||| cc, 3, 0, 0, 0, t, 0, 0].getD i 0xff

theorem probe_carries {cc : UInt8} (hcc : cc &&& 0xf = cc) (t : UInt8) :
    Carries (probe cc t) ⟨cc, true, 3, (probe cc t).read 5 183⟩ := by
  have hcontrol : ((0x10 ||| cc) &&& 0xf = cc) ∧ ((0x10 ||| cc) >>> 4) &&& 3 = 1 := by
    have hlt : cc.toNat < 16 := by
      rw [← hcc, UInt8.toNat_and]
      exact Nat.and_lt_two_pow _ (by decide : (0xf : UInt8).toNat < 2^4)
    obtain ⟨n, hn, rfl⟩ : ∃ n : Nat, n < 16 ∧ cc = UInt8.ofNat n := ⟨cc.toNat, hlt, (UInt8.ofNat_toNat).symm⟩
    clear hcc hlt
    revert n
    decide
  refine ⟨hcontrol.1, show ((0x40 : UInt8) >>> 6) &&& 1 = 1 by decide, 4, ?_, ?_⟩
  · unfold PayloadAt
    rw [show probe cc t 3 = 0x10 ||| cc from rfl, hcontrol.2, if_neg (by decide)]
  · rw [if_pos rfl]
    exact ⟨by decide, rfl, (show 3 ≤ 183 by decide).trans_eq (Memory.read_length _ _ _).symm, rfl⟩

theorem carve_probe {max : Nat} (hmax : 3 ≤ max) (cc : UInt8) {t : UInt8} (ht : t ≠ 0xff) :
    (carve max ((probe cc t).read 8 180)).1 = [[t, 0, 0]] := by
  have hsize : dvbSectionLength (probe cc t (8+1)) (probe cc t (8+2)) = 3 :=
    show dvbSectionLength 0 0 = 3 by decide
  rw [carve_read, if_neg fun h => ht h.2, if_neg (by decide), hsize]
  dsimp only
  rw [if_neg (by omega), if_pos (by decide), if_pos (by decide), carve_read, if_pos ⟨by decide, rfl⟩]
  rfl

theorem carve_head {max : Nat} {bs s : List UInt8} (h : (carve max bs).1.head? = some s) : s.head? = bs.head? := by
  match bs with
  | [] => simp [carve] at h
  | [t] | [t, b] =>
    simp only [carve] at h
    split at h
    · cases h
    · cases h
  | t :: b1 :: b2 :: tl =>
    have hsize := dvbSectionLength_ge b1 b2
    rw [carve] at h
    split at h
    · simp at h
    · split at h
      · simp at h
      · split at h
        · split at h
          · obtain rfl := Option.some.inj h
            rw [List.head?_take, if_neg (by omega)]
          · obtain rfl := Option.some.inj h
            rfl
        · simp at h

theorem getLast_counter {ps : List (Memory UInt8)}
    (h : (Machine.run PsiExtractorImpl.tsPacket (extractor maxSectionSize data) ps).1.state = .waitMore) :
    ∃ p, ps.getLast? = some p ∧
      (Machine.run PsiExtractorImpl.tsPacket (extractor maxSectionSize data) ps).1.cc = p 3 &&& 0xf := by
  obtain rfl | ⟨init, p, rfl⟩ := List.eq_nil_or_concat ps
  · cases h
  · rw [List.concat_eq_append, Machine.run_append] at h ⊢
    exact ⟨p, by simp, PsiExtractorImpl.tsPacket_counter _ p h⟩

/-- In the middle of a section an insertion is noticed: a packet that continues the section
loses it behind the insertion, and starts another one at a different byte. -/
theorem insertion_noticed (hmax : 3 ≤ maxSectionSize) {pre : List (Memory UInt8)} {q : Memory UInt8} (hrep : Repeats pre q)
    (hs : (Machine.run PsiExtractorImpl.tsPacket (extractor maxSectionSize data) pre).1.state = .waitMore) :
    ∃ p, delivered maxSectionSize data (pre ++ [q, p]) ≠ delivered maxSectionSize data (pre ++ [p]) := by
  obtain ⟨last, hlast, hcc⟩ := getLast_counter hs
  obtain ⟨hframe, hcb⟩ := run_frame pre (extractor maxSectionSize data)
  simp only [delivered_append]
  generalize (Machine.run PsiExtractorImpl.tsPacket (extractor maxSectionSize data) pre).1 = x at hs hcc hframe hcb
  have hfit : 3 ≤ x.maxSectionSize := by
    rw [hframe]
    show 3 ≤ min maxSectionSize 4096
    omega
  obtain ⟨hreset, hquiet⟩ := x.tsPacket_reset hs (hcc.trans (hrep last hlast).symm)
  obtain ⟨hmax', hcb'⟩ := x.tsPacket_frame q
  have hwaits : Holds x.maxSectionSize (x.tsPacket q).1 none := ⟨hmax', hcb'.trans hcb, hreset⟩
  have hheld : Holds x.maxSectionSize x (some (x.cc, x.data.read 0 x.dataLen)) := ⟨rfl, hcb, hs, rfl, rfl⟩
  have hnext : ((x.cc + 1) &&& 0xf) &&& 0xf = (x.cc + 1) &&& 0xf := by rw [UInt8.and_assoc, UInt8.and_self]
  obtain ⟨t, ht, hdiffers⟩ : ∃ t : UInt8, t ≠ 0xff ∧ (x.data.read 0 x.dataLen ++ [0]).head? ≠ some t := by
    by_cases h : (x.data.read 0 x.dataLen ++ [0]).head? = some 1
    · exact ⟨2, by decide, by rw [h]; decide⟩
    · exact ⟨1, by decide, h⟩
  have hcarries := probe_carries hnext t
  refine ⟨probe ((x.cc + 1) &&& 0xf) t, fun heq => hdiffers ?_⟩
  have heq' := List.append_cancel_left heq
  simp only [Machine.run_cons, Machine.run_nil, hquiet, List.nil_append, List.append_nil] at heq'
  rw [((x.tsPacket q).1.tsPacket_absorb _ _ none _ hcarries hwaits).2, (x.tsPacket_absorb _ _ _ _ hcarries hheld).2] at heq'
  simp only [absorb, if_true, hold] at heq'
  rw [Memory.read_drop _ _ _ _ (by decide), carve_probe hfit _ ht] at heq'
  have hhead := carve_head (congrArg List.head? heq').symm
  rw [show (probe ((x.cc + 1) &&& 0xf) t).read 5 183 = [0] ++ (probe ((x.cc + 1) &&& 0xf) t).read 6 182 from rfl,
    ← List.append_assoc, List.head?_append_of_ne_nil _ (by simp)] at hhead
  exact hhead.symm

theorem undisturbed_iff (hmax : 2 ≤ maxSectionSize) (slots : List Slot) : Undisturbed maxSectionSize data slots ↔
    delivered maxSectionSize data (slots.map Slot.packet) = delivered maxSectionSize data (fed slots) := by
  unfold Undisturbed
  rw [deliveredInside_eq hmax, deliveredInside_eq hmax]
  constructor
  · rintro ⟨ss, hwith, hwithout⟩
    exact Option.some.inj (hwith.trans hwithout.symm)
  · intro h
    exact ⟨_, congrArg some h, rfl⟩

theorem undisturbed_small (hmax : maxSectionSize < 2) (slots : List Slot) : Undisturbed maxSectionSize data slots ↔
    (extractor maxSectionSize data).HoldsAll (slots.map Slot.packet) ∧ (extractor maxSectionSize data).HoldsAll (fed slots) := by
  constructor
  · rintro ⟨ss, hwith, hwithout⟩
    exact ⟨(run_inside _ _).mp (Option.ite_none_right_eq_some.mp hwith).1,
      (run_inside _ _).mp (Option.ite_none_right_eq_some.mp hwithout).1⟩
  · rintro ⟨hwith, hwithout⟩
    refine ⟨[], ?_, ?_⟩
    · rw [deliveredInside_of_holdsAll hwith, delivered_small (by omega)]
    · rw [deliveredInside_of_holdsAll hwithout, delivered_small (by omega)]

end Runs

/-- Packets without payload may be inserted wherever no section is in progress: the same
sections are delivered. Wherever one is in progress, there is a packet behind the insertion
that makes the difference. An extractor for sections of less than two bytes delivers none,
and its buffer has to hold the packets. -/
theorem insertions_overlooked (maxSectionSize : Nat) (data : Memory UInt8) :
    (2 ≤ maxSectionSize → ∀ slots, Inserts slots →
      (∀ pre q post, slots = pre ++ .inserted q :: post → Idles maxSectionSize data (fed pre)) →
        Undisturbed maxSectionSize data slots) ∧
    (2 ≤ maxSectionSize → ∀ pre q, AdaptationOnly q → Repeats pre q →
      ((∀ post : List (Memory UInt8), Undisturbed maxSectionSize data (pre.map .fed ++ .inserted q :: post.map .fed)) ↔
        Idles maxSectionSize data pre)) ∧
    (maxSectionSize < 2 → ∀ slots, Undisturbed maxSectionSize data slots ↔
      (extractor maxSectionSize data).HoldsAll (slots.map Slot.packet) ∧
        (extractor maxSectionSize data).HoldsAll (fed slots)) := by
  refine ⟨fun hmax slots hslots hidle => ?_, fun hmax pre q hq hrep => ?_, fun hmax slots => undisturbed_small hmax slots⟩
  · rw [undisturbed_iff hmax]
    by_cases hsmall : maxSectionSize < 3
    · rw [delivered_small hsmall, delivered_small hsmall]
    · rw [delivered, delivered, run_inserted slots _ fun pre q post heq =>
        ⟨(hslots pre q post heq).1, (hidle pre q post heq).resolve_right hsmall⟩]
  · simp only [undisturbed_iff hmax, fed_insertion, packet_insertion]
    refine ⟨fun h => ?_, fun h post => ?_⟩
    · by_contra hno
      obtain ⟨hs, hlarge⟩ := not_or.mp hno
      obtain ⟨p, hp⟩ := insertion_noticed (Nat.le_of_not_lt hlarge) hrep (State.eq_waitMore hs)
      exact hp (h [p])
    · rcases h with hs | hsmall
      · rw [delivered_append, delivered_append, Machine.run_cons, PsiExtractorImpl.tsPacket_overlooked _ hq hs]
        rfl
      · rw [delivered_small hsmall, delivered_small hsmall]

theorem insertions_overlooked_front :
    Undisturbed 4096 (fun _ => 0) [.inserted fun i => [0x47, 0, 0, 0x20, 183].getD i 0xff, .fed (probe 0 1)] :=
  (((insertions_overlooked 4096 fun _ => 0).2.1 (by decide) [] (fun i => [0x47, 0, 0, 0x20, 183].getD i 0xff) (by decide)
    (fun _ h => nomatch h)).mpr (.inl rfl)) [probe 0 1]

/-- The first packet holds 183 bytes of a section of 259. -/
theorem insertions_overlooked_gap :
    ¬ ∀ maxSectionSize data slots, Inserts slots → Undisturbed maxSectionSize data slots := by
  intro h
  let p : Memory UInt8 := fun i => [0x47, 0x40, 0, 0x10, 0, 0, 1].getD i 0
  let q : Memory UInt8 := fun i => [0x47, 0, 0, 0x20, 183].getD i 0xff
  have hcarves : carve 4096 (p.read 5 183) = ([], some (p.read 5 183)) := by
    rw [carve_read, if_neg (by decide), if_neg (by decide)]
    dsimp only
    rw [if_neg (by decide), if_neg (by decide)]
  have hcarries : Carries p ⟨0, true, 0, p.read 5 183⟩ := by
    refine ⟨by decide, by decide, 4, ?_, ?_⟩
    · unfold PayloadAt
      rw [if_neg (by decide)]
    · rw [if_pos rfl]
      exact ⟨by decide, rfl, Nat.zero_le _, rfl⟩
  obtain ⟨hheld, -⟩ := (extractor 4096 fun _ => 0).tsPacket_absorb 4096 p none _ hcarries ⟨rfl, rfl, rfl⟩
  simp only [absorb, if_true, List.drop_zero, hcarves, hold, Option.map_some] at hheld
  have hrepeats : Repeats [p] q := by
    rintro p' hp'
    obtain rfl := Option.some.inj hp'
    decide
  obtain ⟨r, hr⟩ : ∃ r, delivered 4096 (fun _ => 0) ([p] ++ [q, r]) ≠ delivered 4096 (fun _ => 0) ([p] ++ [r]) :=
    insertion_noticed (by decide) hrepeats hheld.2.2.1
  refine hr ((undisturbed_iff (by decide) _).mp (h 4096 (fun _ => 0) [.fed p, .inserted q, .fed r] fun pre q' post heq => ?_))
  rcases pre with _ | ⟨slot, _ | ⟨slot', _ | ⟨_, pre⟩⟩⟩
  · simp at heq
  · simp only [List.cons_append, List.nil_append, List.cons.injEq, Slot.inserted.injEq] at heq
    obtain ⟨rfl, rfl, -⟩ := heq
    exact ⟨by decide, hrepeats⟩
  · simp at heq
  · simp at heq

end Mopa.Merger
