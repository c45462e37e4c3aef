import Mopa.MergerRefinement

/-! Accesses of the extractor on arbitrary packets: which bytes of a packet are read, and which
ranges are copied. -/
namespace Mopa.Merger
open Mopa.SectionStream

inductive Call where
  | tsPacket (p : Memory UInt8)
  | onSectionReady (set : Bool)

namespace PsiExtractorImpl

def call (x : PsiExtractorImpl) : Call → PsiExtractorImpl × List Event
  | .tsPacket p => x.tsPacket p
  | .onSectionReady set => (x.onSectionReady set, [])

end PsiExtractorImpl

def reached (maxSectionSize : Nat) (data : Memory UInt8) (calls : List Call) : PsiExtractorImpl :=
  (Machine.run PsiExtractorImpl.call (create maxSectionSize data) calls).1

/-- The effect reads byte `i` of the packet. -/
def Event.Reads (i : Nat) : Event → Prop
  | .fetch pos => i = pos
  | .append _ src bytes => src ≤ i ∧ i < src + bytes.length
  | .compact .. | .sectionReady .. => False

namespace PsiExtractorImpl

def Reads (x : PsiExtractorImpl) (p : Memory UInt8) (i : Nat) : Prop :=
  i < 4 ∨ ∃ e ∈ (x.tsPacket p).2, e.Reads i

/-- A section is waited for, and a packet starts one although its adaptation field ends with
the packet. -/
def StartsBehindEnd (x : PsiExtractorImpl) (p : Memory UInt8) : Prop :=
  x.state = .waitStart ∧ (p 1 >>> 6) &&& 1 = 1 ∧ ((p 3 >>> 4) &&& 3 = 2 ∨ (p 3 >>> 4) &&& 3 = 3) ∧ p 4 = 183

instance (x : PsiExtractorImpl) (p : Memory UInt8) : Decidable (x.StartsBehindEnd p) :=
  inferInstanceAs (Decidable (_ ∧ _))

theorem handled_reads (x : PsiExtractorImpl) (p : Memory UInt8) {e : Event} (he : e ∈ (x.handled p).2) {i : Nat}
    (hi : e.Reads i) : i < tsPacketLen := by
  unfold handled at he
  cases hcontent : x.content p with
  | none =>
    rw [hcontent] at he
    cases he
  | some bytes =>
    rw [hcontent] at he
    obtain ⟨⟨-, hfits⟩, -⟩ := content_eq_some.mp hcontent
    rcases List.mem_cons.mp he with rfl | he
    · have hlt : i < x.contentAt p + (p.read (x.contentAt p) (tsPacketLen - x.contentAt p)).length := hi.2
      rw [Memory.read_length] at hlt
      omega
    · have hcollects := moreSections_events _ 0 e he
      cases e with
      | fetch pos => exact hcollects.elim
      | append dst src bytes => exact hcollects.elim
      | compact => exact hi.elim
      | sectionReady => exact hi.elim

theorem lengthBytes_startsBehindEnd {x : PsiExtractorImpl} {p : Memory UInt8} :
    x.StartsBehindEnd p ↔ tsPacketLen ∈ x.lengthBytes p := by
  have hL : tsPacketLen = 188 := rfl
  constructor
  · rintro ⟨hs, hpusi, hafc, hlen⟩
    have haccepts : x.Accepts p := by
      rw [Accepts, hs]
      exact hpusi
    have hbehind : behindAdaptation p = tsPacketLen := by
      rw [behindAdaptation, if_pos hafc, hlen]
      rfl
    rw [lengthBytes, if_pos haccepts, if_pos (show _ ∧ _ ∧ _ from ⟨hpusi, hs, hbehind.le⟩), hbehind]
    exact List.mem_append_right _ (List.mem_singleton_self _)
  · intro h
    unfold lengthBytes at h
    split at h
    · rcases List.mem_append.mp h with h | h
      · split at h
        · exact absurd (List.mem_singleton.mp h) (by decide)
        · cases h
      · split at h
        · next hread =>
          have hbehind := List.mem_singleton.mp h
          unfold behindAdaptation at hbehind
          split at hbehind
          · next hafc => exact ⟨hread.2.1, hread.1, hafc, UInt8.toNat_inj.mp (show (p 4).toNat = 183 by omega)⟩
          · omega
        · cases h
    · cases h

theorem lengthBytes_le {x : PsiExtractorImpl} {p : Memory UInt8} {i : Nat} (h : i ∈ x.lengthBytes p) : i ≤ tsPacketLen := by
  unfold lengthBytes at h
  split at h
  · rcases List.mem_append.mp h with h | h
    · split at h
      · rw [List.mem_singleton.mp h]
        decide
      · cases h
    · split at h
      · next hread =>
        rw [List.mem_singleton.mp h]
        exact hread.2.2
      · cases h
  · cases h

end PsiExtractorImpl

/-- Whatever was called before, a packet is not read behind its end, except that a pointer
field is looked for there if an adaptation field has left no room for it. -/
theorem packet_reads (maxSectionSize : Nat) (data : Memory UInt8) (calls : List Call) (p : Memory UInt8) :
    let x := reached maxSectionSize data calls
    (∀ i, x.Reads p i → i < tsPacketLen) ↔ ¬ x.StartsBehindEnd p := by
  intro x
  constructor
  · intro h hbehind
    refine absurd (h tsPacketLen (.inr ⟨.fetch tsPacketLen, ?_, rfl⟩)) (Nat.lt_irrefl _)
    rw [PsiExtractorImpl.tsPacket_eq]
    exact List.mem_append_left _ (List.mem_map_of_mem (PsiExtractorImpl.lengthBytes_startsBehindEnd.mp hbehind))
  · rintro hbehind i (hi | ⟨e, he, hi⟩)
    · exact hi.trans (by decide)
    · rw [PsiExtractorImpl.tsPacket_eq] at he
      rcases List.mem_append.mp he with he | he
      · obtain ⟨pos, hpos, rfl⟩ := List.mem_map.mp he
        obtain rfl : i = pos := hi
        refine lt_of_le_of_ne (PsiExtractorImpl.lengthBytes_le hpos) ?_
        rintro rfl
        exact hbehind (PsiExtractorImpl.lengthBytes_startsBehindEnd.mpr hpos)
      · exact x.handled_reads p he hi

/-- The first packet starts a section, and its adaptation field fills it. -/
theorem packet_reads_full_field :
    ¬ ∀ (maxSectionSize : Nat) (data : Memory UInt8) (calls : List Call) (p : Memory UInt8) (i : Nat),
      (reached maxSectionSize data calls).Reads p i → i < tsPacketLen := fun h =>
  absurd (h 4096 (fun _ => 0) [] (fun i => [0x47, 0x40, 0, 0x20, 183].getD i 0xff) tsPacketLen
    (.inr ⟨.fetch tsPacketLen, by decide, rfl⟩)) (Nat.lt_irrefl _)

inductive Object where
  | packet
  | buffer
  deriving DecidableEq, Repr

structure Range where
  object : Object
  start : Nat
  size : Nat

def Range.Overlaps (r s : Range) : Prop :=
  r.object = s.object ∧ ∃ i, (r.start ≤ i ∧ i < r.start + r.size) ∧ s.start ≤ i ∧ i < s.start + s.size

def Event.copied : Event → Option (Range × Range)
  | .append dst src bytes => some (⟨.buffer, dst, bytes.length⟩, ⟨.packet, src, bytes.length⟩)
  | .compact src n => some (⟨.buffer, 0, n⟩, ⟨.buffer, src, n⟩)
  | .fetch _ | .sectionReady .. => none

/-- The unfinished section behind a packet, if one is kept, is no longer than the sections in
front of it. Without a callback nothing is kept behind a section. -/
def PsiExtractorImpl.RestFits (x : PsiExtractorImpl) (p : Memory UInt8) : Prop :=
  ∀ bytes, x.content p = some bytes →
    let r := carve x.maxSectionSize (x.data.read 0 x.kept ++ bytes)
    ∀ rest, r.2 = some rest → x.callback = true ∨ r.1 = [] → rest.length ≤ r.1.flatten.length

theorem compact_overlaps (src n : Nat) : (Range.mk .buffer 0 n).Overlaps ⟨.buffer, src, n⟩ ↔ src < n := by
  constructor
  · rintro ⟨-, i, ⟨-, h⟩, h', -⟩
    have hi : i < 0 + n := h
    have hsrc : src ≤ i := h'
    omega
  · intro h
    refine ⟨rfl, src, ⟨Nat.zero_le _, ?_⟩, le_rfl, ?_⟩
    · show src < 0 + n
      omega
    · show src < src + n
      omega

namespace PsiExtractorImpl

theorem moreSections_compact (x : PsiExtractorImpl) (secP src n : Nat) :
    .compact src n ∈ (x.moreSections secP).2 ↔
      let r := carve x.maxSectionSize (x.data.read secP x.dataLen)
      ∃ rest, r.2 = some rest ∧ (x.callback = true ∨ r.1 = []) ∧ src = secP + r.1.flatten.length ∧ n = rest.length := by
  rw [carve_read]
  fun_induction moreSections x secP with
  | case1 x secP hff => simp [if_pos hff]
  | case2 x secP hff hlen => simp [if_neg hff, if_pos hlen]
  | case3 x secP hff hlen size hmax =>
    rw [if_neg hff, if_neg hlen]
    dsimp only
    rw [if_pos hmax]
    simp
  | case4 x secP hff hlen size hmax hge hno =>
    rw [if_neg hff, if_neg hlen]
    dsimp only
    rw [if_neg hmax, if_pos hge]
    split
    · simp [hno]
    · simp
  | case5 x secP hff hlen size hmax hge hno ready hleft x' evs heq ih =>
    rw [if_neg hff, if_neg hlen]
    dsimp only
    rw [if_neg hmax, if_pos hge, if_pos hleft]
    rw [heq, ← carve_read] at ih
    have hcb : x.callback = true := Bool.eq_true_of_not_eq_false hno
    simp only [hcb, true_or, true_and] at ih ⊢
    rw [List.mem_cons, List.flatten_cons, List.length_append, Memory.read_length, ← Nat.add_assoc]
    exact (or_iff_right (by simp [ready])).trans ih
  | case6 x secP hff hlen size hmax hge hno ready hleft =>
    rw [if_neg hff, if_neg hlen]
    dsimp only
    rw [if_neg hmax, if_pos hge, if_neg hleft]
    simp [ready]
  | case7 x secP hff hlen size hmax hge =>
    rw [if_neg hff, if_neg hlen]
    dsimp only
    rw [if_neg hmax, if_neg hge]
    simp

theorem handled_compact (x : PsiExtractorImpl) (p : Memory UInt8) (src n : Nat) :
    .compact src n ∈ (x.handled p).2 ↔ ∃ bytes, x.content p = some bytes ∧
      let r := carve x.maxSectionSize (x.data.read 0 x.kept ++ bytes)
      ∃ rest, r.2 = some rest ∧ (x.callback = true ∨ r.1 = []) ∧ src = r.1.flatten.length ∧ n = rest.length := by
  unfold handled
  cases hcontent : x.content p with
  | none => simp
  | some bytes =>
    obtain ⟨-, hbytes⟩ := content_eq_some.mp hcontent
    have hread := Memory.read_write_extend x.data 0 x.kept bytes
    have hloop := moreSections_compact { x.opened p with
      data := x.data.write x.kept bytes, dataLen := x.kept + bytes.length } 0 src n
    simp only [Nat.zero_add] at hread hloop
    rw [hread] at hloop
    simp only [Option.some.injEq, exists_eq_left']
    refine Iff.trans ?_ hloop
    rw [hbytes, Memory.read_length]
    exact List.mem_cons.trans (or_iff_right fun h => nomatch h)

end PsiExtractorImpl

/-- Whatever was called before, the copies of a call are of disjoint ranges just if the
unfinished section that is moved down is no longer than the sections in front of it. -/
theorem PsiExtractorImpl.tsPacket_copies (x : PsiExtractorImpl) (p : Memory UInt8) :
    (∀ e ∈ (x.tsPacket p).2, ∀ r, e.copied = some r → ¬ r.1.Overlaps r.2) ↔ x.RestFits p := by
  rw [PsiExtractorImpl.tsPacket_eq]
  constructor
  · intro h bytes hcontent r rest hrest hcb
    by_contra hlong
    have hmem := (x.handled_compact p r.1.flatten.length rest.length).mpr ⟨bytes, hcontent, rest, hrest, hcb, rfl, rfl⟩
    exact h _ (List.mem_append_right _ hmem) _ rfl ((compact_overlaps _ _).mpr (by omega))
  · intro h e he r hr hoverlap
    cases e with
    | fetch pos => cases hr
    | sectionReady pos bytes => cases hr
    | append dst src bytes =>
      obtain rfl := Option.some.inj hr
      cases hoverlap.1
    | compact src n =>
      obtain rfl := Option.some.inj hr
      have hmem : Event.compact src n ∈ (x.handled p).2 := (List.mem_append.mp he).resolve_left (by simp)
      obtain ⟨bytes, hcontent, rest, hrest, hcb, rfl, rfl⟩ := (x.handled_compact p src n).mp hmem
      exact absurd ((compact_overlaps _ _).mp hoverlap) (Nat.not_lt.mpr (h bytes hcontent rest hrest hcb))

theorem run_copies (calls : List Call) (x : PsiExtractorImpl) :
    (∀ e ∈ (Machine.run PsiExtractorImpl.call x calls).2, ∀ r, e.copied = some r → ¬ r.1.Overlaps r.2) ↔
      ∀ pre p post, calls = pre ++ .tsPacket p :: post → (Machine.run PsiExtractorImpl.call x pre).1.RestFits p := by
  induction calls generalizing x with
  | nil => simp
  | cons c calls ih =>
    have hstep : (∀ e ∈ (x.call c).2, ∀ r, e.copied = some r → ¬ r.1.Overlaps r.2) ↔ ∀ p, c = .tsPacket p → x.RestFits p := by
      cases c with
      | tsPacket p =>
        refine (x.tsPacket_copies p).trans ⟨fun h p' heq => ?_, fun h => h p rfl⟩
        cases heq
        exact h
      | onSectionReady set => exact iff_of_true (fun e he => nomatch he) fun p heq => nomatch heq
    rw [Machine.run_cons, List.forall_mem_append, hstep, ih]
    constructor
    · rintro ⟨hfirst, hrest⟩ pre p post heq
      cases pre with
      | nil => exact hfirst p (List.cons.inj heq).1
      | cons c' pre =>
        obtain ⟨rfl, htail⟩ := List.cons.inj heq
        exact hrest pre p post htail
    · intro h
      exact ⟨fun p heq => h [] p calls (heq ▸ rfl), fun pre p post heq => h (c :: pre) p post (heq ▸ rfl)⟩

/-- All copies of a run are of disjoint ranges just if, at each packet, the unfinished section
that is moved down is no longer than the sections in front of it. -/
theorem copies_disjoint (maxSectionSize : Nat) (data : Memory UInt8) (calls : List Call) :
    (∀ e ∈ (Machine.run PsiExtractorImpl.call (create maxSectionSize data) calls).2,
      ∀ r, e.copied = some r → ¬ r.1.Overlaps r.2) ↔
    ∀ pre p post, calls = pre ++ .tsPacket p :: post → (reached maxSectionSize data pre).RestFits p :=
  run_copies calls (create maxSectionSize data)

/-- The first packet holds the beginning of a section of 259 bytes. -/
theorem copies_disjoint_long_section :
    ¬ ∀ (maxSectionSize : Nat), 3 ≤ maxSectionSize → ∀ (data : Memory UInt8) (calls : List Call),
      ∀ e ∈ (Machine.run PsiExtractorImpl.call (create maxSectionSize data) calls).2,
        ∀ r, e.copied = some r → ¬ r.1.Overlaps r.2 := by
  intro h
  let p : Memory UInt8 := fun i => [0x47, 0x40, 0, 0x10, 0, 0, 1].getD i 0
  have hcarve : carve 4096 (p.read 5 183) = ([], some (p.read 5 183)) := by
    rw [carve_read, if_neg (by decide), if_neg (by decide)]
    dsimp only
    rw [if_neg (by decide), if_neg (by decide)]
  have hat : (create 4096 fun _ => 0).contentAt p = 5 := by decide
  have hcontent : (create 4096 fun _ => 0).content p = some (p.read 5 183) := by
    rw [PsiExtractorImpl.content, hat, if_pos (by decide)]
    rfl
  have hcompact := (PsiExtractorImpl.handled_compact (create 4096 fun _ => 0) p 0 183).mpr
    ⟨p.read 5 183, hcontent, p.read 5 183, congrArg Prod.snd hcarve, .inr (congrArg Prod.fst hcarve),
      (congrArg (·.1.flatten.length) hcarve).symm, (Memory.read_length p 5 183).symm⟩
  refine h 4096 (by decide) (fun _ => 0) [.tsPacket p] (.compact 0 183) ?_ _ rfl ((compact_overlaps 0 183).mpr (by decide))
  have hmem : Event.compact 0 183 ∈ ((create 4096 fun _ => 0).tsPacket p).2 := by
    rw [PsiExtractorImpl.tsPacket_eq]
    exact List.mem_append_right _ hcompact
  exact List.mem_append_left _ hmem

end Mopa.Merger
