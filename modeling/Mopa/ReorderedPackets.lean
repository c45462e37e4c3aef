import Mopa.StreamCourse
import Mopa.StuffingPackets

/-! Sections over a channel that loses, repeats and reorders packets, and from a stream that the
extractor joins on the way. -/
namespace Mopa.TsRoundTrip
open Mopa.SectionStream
open Mopa.Sec2ts (Call AdaptationField Polite given runCalls packets ownPackets Emits)
open Mopa.Merger (PsiExtractorImpl Carries Holds WellFormed sections)

theorem counter_of_byte (b : UInt8) : b &&& 0xf = ccOf b.toNat := by
  refine UInt8.toNat_inj.mp ?_
  rw [ccOf, UInt8.toNat_and, UInt8.toNat_ofNat', Nat.mod_eq_of_lt (by omega)]
  exact Nat.and_two_pow_sub_one_eq_mod b.toNat 4

theorem held_behind (maxSectionSize : Nat) (data : Memory UInt8) (before : List (Memory UInt8)) :
    ∃ h, Holds (min maxSectionSize 4096) (Machine.run PsiExtractorImpl.tsPacket (extractor maxSectionSize data) before).1 h ∧
      ∀ p, h = some p → ∃ q ∈ before.getLast?, p.1 = ccOf (q 3).toNat := by
  obtain ⟨hmax, hcb⟩ := Merger.run_frame before (extractor maxSectionSize data)
  by_cases hs : (Machine.run PsiExtractorImpl.tsPacket (extractor maxSectionSize data) before).1.state = .waitStart
  · exact ⟨none, ⟨hmax, hcb, hs⟩, nofun⟩
  · have hs := Merger.State.eq_waitMore hs
    obtain ⟨q, hq, hcc⟩ := Merger.getLast_counter hs
    refine ⟨some (_, _), ⟨hmax, hcb, hs, rfl, rfl⟩, ?_⟩
    rintro p ⟨rfl⟩
    exact ⟨q, hq, hcc.trans (counter_of_byte _)⟩

theorem forall₂_getD {α β : Type*} {R : α → β → Prop} {as : List α} {bs : List β} (h : List.Forall₂ R as bs) {order : List Nat}
    (hin : ∀ n ∈ order, n < as.length) (a : α) (b : β) :
    List.Forall₂ R (order.map (as.getD · a)) (order.map (bs.getD · b)) := by
  induction order with
  | nil => exact .nil
  | cons n order ih =>
    have hn := hin n List.mem_cons_self
    have hn' : n < bs.length := h.length_eq ▸ hn
    refine .cons ?_ (ih fun m hm => hin m (List.mem_cons_of_mem n hm))
    show R (as.getD n a) (bs.getD n b)
    rw [List.getD_eq_getElem _ _ hn, List.getD_eq_getElem _ _ hn']
    exact h.get hn hn'

theorem carries_of_emits {ps : List (Memory UInt8)} {bytes : List (List UInt8)} {ks : List Packet} (hps : List.Forall₂ At ps bytes)
    (hks : List.Forall₂ Emits bytes ks) : List.Forall₂ Carries ps ks := by
  induction hps generalizing ks with
  | nil =>
    cases hks
    exact .nil
  | cons hp _ ih =>
    cases hks with
    | cons hk hrest => exact .cons (hk.2 _ hp) (ih hrest)

/-- A channel loses, repeats and reorders packets, behind packets of another origin. As long as
no packet is taken for the next one that is not, only given sections are delivered, none of them
more often than its first packet arrived. A section whose packets arrive in a row behind the
packet in front of them is delivered. -/
theorem unreliable_channel (cb : Option AdaptationField) (hcb : ∀ f, cb = some f → Polite f) (maxSectionSize : Nat)
    (cs : List Call) (hcs : ∀ s ∈ given cs, WellFormed s ∧ s.length ≤ min maxSectionSize 4096) (fuel : Nat)
    (hfuel : 4096 ≤ fuel) (data : Memory UInt8) :
    ∃ x traces, runCalls fuel (Sec2ts.create cb) (cs ++ [.flush]) = some (x, traces) ∧
      ∀ (before ps : List (Memory UInt8)) (order : List Nat), (∀ n ∈ order, n < (packets traces.flatten).length) →
        (order.IsChain fun a b => (a+1) % 16 = b % 16 → b = a + 1) →
        (∀ p ∈ before.getLast?, ∀ n ∈ order.head?, ((p 3).toNat + 1) % 16 ≠ n % 16) →
        List.Forall₂ At ps (order.map ((packets traces.flatten).getD · [])) →
        ∃ js : List Nat, delivered maxSectionSize data (before ++ ps) =
            delivered maxSectionSize data before ++ js.map ((given cs).getD · []) ∧
          (∀ s ∈ js, s < (given cs).length) ∧
          ∀ s < (given cs).length, ∀ f,
            Starts (fun s k => k ∈ (ownPackets 0 (cs ++ [.flush]) traces).getD s []) s f →
              js.count s ≤ order.count f ∧
              ∀ pre m post, order = pre ++ (List.range' f m ++ post) →
                (∀ k ∈ (ownPackets 0 (cs ++ [.flush]) traces).getD s [], k < f + m) →
                (0 < f ∧ f - 1 ∈ pre.getLast?) ∨ (before = [] ∧ pre = []) → s ∈ js := by
  obtain ⟨x, traces, hrun, ks, hks, hchain⟩ :=
    produced cb hcb (min maxSectionSize 4096) cs hcs (Nat.min_le_right _ _) fuel hfuel
  refine ⟨x, traces, hrun, fun before ps order hin hapart hbefore hps => ?_⟩
  obtain ⟨c, -, hbegun, hend, htotal⟩ := hchain.course (Nat.le_refl 0) nofun
  obtain ⟨h, hh, hforeign⟩ := held_behind maxSectionSize data before
  have hin' : ∀ n ∈ order, n < ks.length := fun n hn => hks.length_eq ▸ hin n hn
  have hcarries := carries_of_emits hps (forall₂_getD hks hin [] ⟨0, false, 0, []⟩)
  obtain ⟨js, hout, hbound, hcount, hrow⟩ := c.reordered hcs hend hin' (by simpa only [Nat.zero_add] using hapart) (h := h)
    (fun p hp b hb => by
      obtain ⟨q, hq, hcc⟩ := hforeign p hp
      rw [hcc, Ne, ccOf_step, Nat.zero_add]
      exact hbefore q hq b hb) hbegun
  refine ⟨js, ?_, hbound, fun s hs f hf => ⟨?_, fun pre m post heq hall hpre => ?_⟩⟩
  · rw [Merger.delivered_append, Merger.run_absorb _ hcarries _ _ hh]
    exact congrArg _ hout
  · refine (hcount s).trans (List.countP_mono_left fun n hn hbegins => ?_)
    exact beq_iff_eq.mpr (c.begins_unique (by simpa using hf) (hin' n hn) (of_decide_eq_true hbegins))
  · have hmf := hall f hf.1
    refine hrow pre f m post s heq (by omega) (c.begins_first hbegun htotal hs (by simpa using hf)).2
      (fun k hk => hall k (by simpa using hk)) (hpre.imp_right fun ⟨hnil, hpre⟩ => ⟨?_, hpre⟩)
    cases h with
    | none => rfl
    | some p =>
      obtain ⟨q, hq, -⟩ := hforeign p rfl
      rw [hnil] at hq
      cases hq

theorem unreliable_channel_repeated :
    ∃ ps : List (Memory UInt8), ps.length = 3 ∧ ∃ js : List Nat,
      delivered 4096 (fun _ => 0) ps = js.map ([[0, 0, 1, 7], [2, 0, 0]].getD · []) ∧ 0 ∈ js ∧ js.count 1 = 1 := by
  obtain ⟨x, traces, hrun, h⟩ := unreliable_channel none (by simp) 4096
    [.sectionX [0, 0, 1, 7], .flush, .sectionX [2, 0, 0]] (by decide) 4096 le_rfl fun _ => 0
  have hpackets : packets traces.flatten =
      [[0x47, 0x40, 0, 0x10, 0, 0, 0, 1, 7] ++ List.replicate 179 0xff,
        [0x47, 0x40, 0, 0x11, 0, 2, 0, 0] ++ List.replicate 180 0xff] := by
    have hmap := congrArg (Option.map fun r => packets r.2.flatten) hrun
    exact Option.some.inj (hmap.symm.trans (by decide +kernel))
  have hown : ownPackets 0 ([.sectionX [0, 0, 1, 7], .flush, .sectionX [2, 0, 0]] ++ [.flush]) traces = [[0], [1]] := by
    have hmap := congrArg (Option.map fun r => ownPackets 0
      [.sectionX [0, 0, 1, 7], .flush, .sectionX [2, 0, 0], .flush] r.2) hrun
    exact Option.some.inj (hmap.symm.trans (by decide +kernel))
  rw [hpackets, hown] at h
  obtain ⟨js, hout, -, hjs⟩ := h [] _ [0, 0, 1] (by decide) (by decide) nofun
    (.cons (at_ofBytes (by decide +kernel)) (.cons (at_ofBytes (by decide +kernel)) (.cons (at_ofBytes (by decide +kernel)) .nil)))
  obtain ⟨-, hfirst⟩ := hjs 0 (by decide) 0 ⟨by decide, fun _ _ => Nat.zero_le _⟩
  obtain ⟨hle, hsecond⟩ := hjs 1 (by decide) 1 ⟨by decide, by simp⟩
  refine ⟨_, rfl, js, hout, hfirst [] 1 [0, 1] rfl (by simp) (.inr ⟨rfl, rfl⟩), Nat.le_antisymm hle ?_⟩
  exact List.count_pos_iff.mpr (hsecond [0, 0] 1 [] rfl (by simp) (.inl ⟨Nat.one_pos, rfl⟩))

/-- A stream is joined at its `n`-th packet behind packets of another origin, the last of which
does not look like the packet in front. What begins in front of packet `n` is lost, what begins
behind it is delivered; what begins in it is delivered at least by a fresh extractor. -/
theorem stream_joined (cb : Option AdaptationField) (hcb : ∀ f, cb = some f → Polite f) (maxSectionSize : Nat)
    (cs : List Call) (hcs : ∀ s ∈ given cs, WellFormed s ∧ s.length ≤ min maxSectionSize 4096) (fuel : Nat)
    (hfuel : 4096 ≤ fuel) (data : Memory UInt8) :
    ∃ x traces, runCalls fuel (Sec2ts.create cb) (cs ++ [.flush]) = some (x, traces) ∧
      ∀ (n : Nat) (before ps : List (Memory UInt8)), n < (packets traces.flatten).length →
        (∀ p ∈ before.getLast?, ((p 3).toNat + 1) % 16 ≠ n % 16) →
        List.Forall₂ At ps ((packets traces.flatten).drop n) →
        ∃ m, delivered maxSectionSize data (before ++ ps) = delivered maxSectionSize data before ++ (given cs).drop m ∧
          ∀ s < (given cs).length, ∀ f,
            Starts (fun s k => k ∈ (ownPackets 0 (cs ++ [.flush]) traces).getD s []) s f →
              (f < n → s < m) ∧ (n < f → m ≤ s) ∧ (before = [] → f = n → m ≤ s) := by
  obtain ⟨x, traces, hrun, ks, hks, hchain⟩ :=
    produced cb hcb (min maxSectionSize 4096) cs hcs (Nat.min_le_right _ _) fuel hfuel
  refine ⟨x, traces, hrun, fun n before ps hn hbefore hps => ?_⟩
  obtain ⟨c, -, hbegun, hend, htotal⟩ := hchain.course (Nat.le_refl 0) nofun
  obtain ⟨h, hh, hforeign⟩ := held_behind maxSectionSize data before
  have hn' : n < ks.length := hks.length_eq ▸ hn
  have hcarries := carries_of_emits hps (List.forall₂_drop n hks)
  refine ⟨if h.isSome then c.begun (n+1) else c.begun n, ?_, fun s hs f hf => ?_⟩
  · rw [Merger.delivered_append, Merger.run_absorb _ hcarries _ _ hh]
    exact congrArg _ (c.joined_at hcs hend htotal hn' fun p hp => by
      obtain ⟨q, hq, hcc⟩ := hforeign p hp
      rw [hcc, Ne, ccOf_step, Nat.zero_add]
      exact hbefore q hq)
  · obtain ⟨hlt, hfirst, hnext⟩ := c.begins_first hbegun htotal hs (by simpa using hf)
    have hmono := c.mono n hn'
    refine ⟨fun hfn => ?_, fun hnf => ?_, fun hnil hfn => ?_⟩
    · have hle := c.begun_le (show f + 1 ≤ n by omega) hn'.le
      split <;> omega
    · have hle := c.begun_le (show n + 1 ≤ f by omega) hlt.le
      split <;> omega
    · subst hfn
      cases h with
      | none => exact hfirst
      | some p =>
        obtain ⟨q, hq, -⟩ := hforeign p rfl
        rw [hnil] at hq
        cases hq

theorem stream_joined_second :
    ∃ ps : List (Memory UInt8), ps.length = 1 ∧ delivered 4096 (fun _ => 0) ps = [[2, 0, 0]] := by
  obtain ⟨x, traces, hrun, h⟩ := stream_joined none (by simp) 4096
    [.sectionX [0, 0, 1, 7], .flush, .sectionX [2, 0, 0]] (by decide) 4096 le_rfl fun _ => 0
  have hpackets : packets traces.flatten =
      [[0x47, 0x40, 0, 0x10, 0, 0, 0, 1, 7] ++ List.replicate 179 0xff,
        [0x47, 0x40, 0, 0x11, 0, 2, 0, 0] ++ List.replicate 180 0xff] := by
    have hmap := congrArg (Option.map fun r => packets r.2.flatten) hrun
    exact Option.some.inj (hmap.symm.trans (by decide +kernel))
  have hown : ownPackets 0 ([.sectionX [0, 0, 1, 7], .flush, .sectionX [2, 0, 0]] ++ [.flush]) traces = [[0], [1]] := by
    have hmap := congrArg (Option.map fun r => ownPackets 0
      [.sectionX [0, 0, 1, 7], .flush, .sectionX [2, 0, 0], .flush] r.2) hrun
    exact Option.some.inj (hmap.symm.trans (by decide +kernel))
  rw [hpackets, hown] at h
  obtain ⟨m, hout, hm⟩ := h 1 [] _ (by decide) nofun (.cons (at_ofBytes (by decide +kernel)) .nil)
  obtain ⟨hlost, -⟩ := hm 0 (by decide) 0 ⟨by decide, fun _ _ => Nat.zero_le _⟩
  obtain ⟨-, -, htaken⟩ := hm 1 (by decide) 1 ⟨by decide, by simp⟩
  have h0 := hlost Nat.one_pos
  have h1 := htaken rfl rfl
  obtain rfl : m = 1 := by omega
  exact ⟨_, rfl, hout⟩

end Mopa.TsRoundTrip
