import Mopa.Sec2tsCalls
import Mopa.StreamReception

/-! Sections go through the packetizer and come out of the extractor: all of them
when every packet arrives, a selection of them when packets are lost. -/
namespace Mopa.TsRoundTrip
open Mopa.SectionStream
open Mopa.Sec2ts (Call AdaptationField Polite given runCalls packets ownPackets Emits)
open Mopa.Merger (PsiExtractorImpl Carries WellFormed sections)

/-- The bytes `bytes` lie at `p`; what lies behind them is arbitrary. -/
def At (p : Memory UInt8) (bytes : List UInt8) : Prop := p.read 0 Merger.tsPacketLen = bytes

def ofBytes (bytes : List UInt8) : Memory UInt8 := fun i => bytes.getD i 0

theorem at_ofBytes {bytes : List UInt8} (h : bytes.length = Merger.tsPacketLen) :
    At (ofBytes bytes) bytes := by
  refine List.ext_getElem (by simp [h]) fun i _ hi => ?_
  simp [ofBytes, hi]

def extractor (maxSectionSize : Nat) (data : Memory UInt8) : PsiExtractorImpl :=
  (Merger.create maxSectionSize data).onSectionReady true

def delivered (maxSectionSize : Nat) (data : Memory UInt8) (ps : List (Memory UInt8)) :
    List (List UInt8) :=
  sections (Machine.run PsiExtractorImpl.tsPacket (extractor maxSectionSize data) ps).2

def deliveredInside (maxSectionSize : Nat) (data : Memory UInt8) (ps : List (Memory UInt8)) :
    Option (List (List UInt8)) :=
  if ∀ e ∈ (Machine.run PsiExtractorImpl.tsPacket (extractor maxSectionSize data) ps).2,
      ¬ e.Overruns (extractor maxSectionSize data).dataSize then
    some (delivered maxSectionSize data ps)
  else none

theorem deliveredInside_of_holdsAll {maxSectionSize : Nat} {data : Memory UInt8} {ps : List (Memory UInt8)}
    (h : (extractor maxSectionSize data).HoldsAll ps) :
    deliveredInside maxSectionSize data ps = some (delivered maxSectionSize data ps) :=
  if_pos ((Merger.run_inside ps (extractor maxSectionSize data)).mpr h)

theorem deliveredInside_eq {maxSectionSize : Nat} (hmax : 2 ≤ maxSectionSize) (data : Memory UInt8)
    (ps : List (Memory UInt8)) :
    deliveredInside maxSectionSize data ps = some (delivered maxSectionSize data ps) :=
  deliveredInside_of_holdsAll fun pre p _ _ => Merger.run_hasRoom hmax data true pre p

theorem delivered_eq (maxSectionSize : Nat) (data : Memory UInt8) {ps : List (Memory UInt8)}
    {bytes : List (List UInt8)} {ks : List Packet} (hps : List.Forall₂ At ps bytes)
    (hks : List.Forall₂ Emits bytes ks) :
    delivered maxSectionSize data ps = (Machine.run (absorb (min maxSectionSize 4096)) none ks).2 := by
  have hcarry : List.Forall₂ Carries ps ks := by
    induction hps generalizing ks with
    | nil =>
      cases hks
      exact .nil
    | cons hp _ ih =>
      cases hks with
      | cons hk hrest => exact .cons (hk.2 _ hp) (ih hrest)
  exact Merger.run_absorb _ hcarry _ _ (Merger.create_holds maxSectionSize data)

theorem produced (cb : Option AdaptationField) (hcb : ∀ f, cb = some f → Polite f) (max : Nat)
    (cs : List Call) (hcs : ∀ s ∈ given cs, Fits max s) (hmax : max ≤ 4096) (fuel : Nat)
    (hfuel : 4096 ≤ fuel) :
    ∃ x traces, runCalls fuel (Sec2ts.create cb) (cs ++ [.flush]) = some (x, traces) ∧
      ∃ ks, List.Forall₂ Emits (packets traces.flatten) ks ∧
        Chain (fun s k => k ∈ (ownPackets 0 (cs ++ [.flush]) traces).getD s []) 0 0 none ks (given cs)
          none := by
  have hgiven : given (cs ++ [.flush]) = given cs := by simp [Sec2ts.given_append]
  obtain ⟨x, traces, hrun, ks, ss, o, fulls, hks, hx, hsame, hchain⟩ :=
    Sec2ts.run_chain cb hcb fuel (cs ++ [.flush]) fun s hs => by
      rw [hgiven] at hs
      obtain ⟨hwf, hlen⟩ := hcs s hs
      refine ⟨?_, by omega⟩
      rintro rfl
      exact hwf
  obtain ⟨rfl, rfl⟩ := hx.of_start (Sec2ts.runCalls_flush hrun)
  obtain rfl : ss = given cs := by simpa [hgiven] using hsame
  exact ⟨x, traces, hrun, ks, hks, hchain⟩

/-- Packetising sections and extracting them again is the identity: whatever calls
are made and whatever polite adaptation callback is set, the extractor delivers
exactly the sections that were given. -/
theorem sections_round_trip (cb : Option AdaptationField) (hcb : ∀ f, cb = some f → Polite f)
    (maxSectionSize : Nat) (cs : List Call)
    (hcs : ∀ s ∈ given cs, WellFormed s ∧ s.length ≤ min maxSectionSize 4096)
    (fuel : Nat) (hfuel : 4096 ≤ fuel) (data : Memory UInt8) :
    ∃ x traces, runCalls fuel (Sec2ts.create cb) (cs ++ [.flush]) = some (x, traces) ∧
      ∀ ps, List.Forall₂ At ps (packets traces.flatten) →
        delivered maxSectionSize data ps = given cs := by
  obtain ⟨x, traces, hrun, ks, hks, hchain⟩ :=
    produced cb hcb (min maxSectionSize 4096) cs hcs (Nat.min_le_right _ _) fuel hfuel
  refine ⟨x, traces, hrun, fun ps hps => ?_⟩
  rw [delivered_eq maxSectionSize data hps hks]
  simpa [Open.section] using hchain.received hcs trivial none rfl

theorem sections_round_trip_witness :
    ∃ ps : List (Memory UInt8), ps.length = 1 ∧
      delivered 4096 (fun _ => 0) ps = [[0, 0, 1, 7], [2, 0, 0]] := by
  obtain ⟨x, traces, hrun, h⟩ := sections_round_trip
    (some fun _ _ => (2, fun i => if i = 0 then 1 else 0xff))
    (by rintro f ⟨rfl⟩ k area; exact ⟨show 2 ≤ 182 by decide, fun _ => rfl⟩) 4096
    [.sectionX [0, 0, 1, 7], .sectionX [2, 0, 0]] (by decide) 4096 le_rfl fun _ => 0
  have hpackets : packets traces.flatten =
      [[0x47, 0x40, 0, 0x30, 1, 0xff, 0, 0, 0, 1, 7, 2, 0, 0] ++ List.replicate 174 0xff] := by
    have hmap := congrArg (Option.map fun r => packets r.2.flatten) hrun
    exact Option.some.inj (hmap.symm.trans (by decide +kernel))
  refine ⟨[ofBytes ((packets traces.flatten).head?.getD [])], rfl, h _ ?_⟩
  rw [hpackets]
  exact .cons (at_ofBytes (by decide +kernel)) .nil

/-- Packets get lost, but no run of consecutive losses has a length divisible by 16.
Then the delivered sections are a selection of the given ones, in their order and
byte for byte, and the selection includes every section whose own packets arrived
together with the packet in front of them. -/
theorem loss_selects_sections (cb : Option AdaptationField) (hcb : ∀ f, cb = some f → Polite f)
    (maxSectionSize : Nat) (cs : List Call)
    (hcs : ∀ s ∈ given cs, WellFormed s ∧ s.length ≤ min maxSectionSize 4096)
    (fuel : Nat) (hfuel : 4096 ≤ fuel) (data : Memory UInt8) :
    ∃ x traces, runCalls fuel (Sec2ts.create cb) (cs ++ [.flush]) = some (x, traces) ∧
      ∀ keep, GapsVisible keep (packets traces.flatten).length →
        ∀ ps, List.Forall₂ At ps (survivors keep 0 (packets traces.flatten)) →
          ∃ sel, delivered maxSectionSize data ps = survivors sel 0 (given cs) ∧
            ∀ s, s < (given cs).length →
              Intact (fun s k => k ∈ (ownPackets 0 (cs ++ [.flush]) traces).getD s []) keep s →
                sel s = true := by
  obtain ⟨x, traces, hrun, ks, hks, hchain⟩ :=
    produced cb hcb (min maxSectionSize 4096) cs hcs (Nat.min_le_right _ _) fuel hfuel
  refine ⟨x, traces, hrun, fun keep hgaps ps hps => ?_⟩
  rw [hks.length_eq] at hgaps
  obtain ⟨sel, hsel, hintact, -⟩ := hchain.lossy hgaps rfl (Nat.zero_add _) hcs trivial (Nat.le_refl 0)
    none 0 (Nat.zero_le _) (fun m _ hu => absurd hu (Nat.not_lt_zero m)) (Or.inl rfl) (Or.inl rfl)
  refine ⟨sel, ?_, fun s hs => hintact s (Nat.zero_le s) (by simpa using hs)⟩
  rw [delivered_eq maxSectionSize data hps (survivors_forall₂ keep 0 hks), hsel]
  rfl

theorem loss_selects_sections_witness :
    ∃ ps : List (Memory UInt8), ps.length = 1 ∧ ∃ sel : Nat → Bool, sel 0 = true ∧
      delivered 4096 (fun _ => 0) ps = survivors sel 0 [[0, 0, 1, 7], [2, 0, 0]] := by
  obtain ⟨x, traces, hrun, h⟩ := loss_selects_sections none (by simp) 4096
    [.sectionX [0, 0, 1, 7], .flush, .sectionX [2, 0, 0]] (by decide) 4096 le_rfl fun _ => 0
  have hpackets : packets traces.flatten =
      [[0x47, 0x40, 0, 0x10, 0, 0, 0, 1, 7] ++ List.replicate 179 0xff,
        [0x47, 0x40, 0, 0x11, 0, 2, 0, 0] ++ List.replicate 180 0xff] := by
    have hmap := congrArg (Option.map fun r => packets r.2.flatten) hrun
    exact Option.some.inj (hmap.symm.trans (by decide +kernel))
  have hown : ownPackets 0 [.sectionX [0, 0, 1, 7], .flush, .sectionX [2, 0, 0], .flush] traces =
      [[0], [1]] := by
    have hmap := congrArg (Option.map fun r => ownPackets 0
      [.sectionX [0, 0, 1, 7], .flush, .sectionX [2, 0, 0], .flush] r.2) hrun
    exact Option.some.inj (hmap.symm.trans (by decide +kernel))
  -- the second packet is lost
  obtain ⟨sel, hsel, hintact⟩ := h (fun k => decide (k = 0)) (by
    rw [hpackets]
    intro a b hab hb hlost _ _ hdvd
    simp only [List.length_cons, List.length_nil] at hb
    omega) [ofBytes ((packets traces.flatten).head?.getD [])] (by
    rw [hpackets]
    exact .cons (at_ofBytes (by decide +kernel)) .nil)
  refine ⟨_, rfl, sel, hintact 0 (by decide) ⟨?_, fun m hm => Or.inl ?_⟩, hsel⟩
  · intro m hm
    simp only [List.cons_append, List.nil_append, hown] at hm
    simpa using hm
  · have hm := hm.1
    simp only [List.cons_append, List.nil_append, hown] at hm
    simpa using hm

end Mopa.TsRoundTrip
