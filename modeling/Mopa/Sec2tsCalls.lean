import Mopa.Sec2tsStream
import Mopa.Sec2tsTurns

/-! Every call of the packetizer continues the stream. -/
namespace Mopa.Sec2ts
open Mopa.SectionStream
open Mopa.Merger (Carries)

@[simp] theorem packets_nil : packets [] = [] := rfl
@[simp] theorem packets_memmove (dst src n : Nat) (evs : List Event) :
    packets (.memmove dst src n :: evs) = packets evs := rfl
@[simp] theorem packets_memcpy (dst n : Nat) (evs : List Event) :
    packets (.memcpy dst n :: evs) = packets evs := rfl
@[simp] theorem packets_memset (dst n : Nat) (evs : List Event) :
    packets (.memset dst n :: evs) = packets evs := rfl
@[simp] theorem packets_produced (p : List UInt8) (evs : List Event) :
    packets (.tsPacketProduced p :: evs) = p :: packets evs := rfl
theorem packets_append (as bs : List Event) : packets (as ++ bs) = packets as ++ packets bs :=
  List.filterMap_append

theorem copiedInto_ge {i k : Nat} {evs : List Event} (h : k ∈ copiedInto i evs) : i ≤ k := by
  induction evs generalizing i with
  | nil => cases h
  | cons e evs ih =>
    cases e with
    | memmove => exact ih h
    | memset => exact ih h
    | tsPacketProduced => exact (Nat.le_succ i).trans (ih h)
    | memcpy dst n =>
      rw [copiedInto] at h
      split at h
      · rcases List.mem_cons.mp h with rfl | h
        · exact le_rfl
        · exact ih h
      · exact ih h

theorem copiedInto_memcpy {i dst n : Nat} (hn : 0 < n) (evs : List Event) :
    copiedInto i (.memcpy dst n :: evs) = i :: copiedInto i evs := by
  rw [copiedInto, if_pos hn]

/-- What is pending after `i` packets: nothing, the rest of the open section, or a
packet in which the sections `fulls` start. -/
inductive Rest (x : Sec2tsImpl) (i : Nat) : Open → List (List UInt8) → Prop
  | idle (hx : Steady x i) (hstart : x.payloadStart = 0) (hpusi : x.pusi = false) : Rest x i none []
  | carrying {sent todo : List UInt8} (hx : Carrying x i todo) : Rest x i (some (sent, todo)) []
  | pointed {o : Open} {fulls : List (List UInt8)} (hx : Pointed x i o fulls) (hfulls : fulls ≠ []) :
      Rest x i o fulls

/-- Packet `i` carries the open section and starts the sections `ss`, whose numbers
begin with `j`. -/
def Owns (holds : Nat → Nat → Prop) (i j : Nat) (o : Open) (ss : List (List UInt8)) : Prop :=
  (o ≠ none → holds (j-1) i) ∧ ∀ s, j ≤ s → s < j + ss.length → Starts holds s i

/-- A trace and the state behind it continue a stream by the sections `given`. What
its packets hold follows from `own`. -/
def Advance (i : Nat) (o : Open) (fulls given : List (List UInt8)) (y : Sec2tsImpl) (evs : List Event)
    (own : (Nat → Nat → Prop) → Nat → Prop) : Prop :=
  ∃ ks ss o' fulls', List.Forall₂ Emits (packets evs) ks ∧ Rest y (i + ks.length) o' fulls' ∧
    ss ++ fulls' = fulls ++ given ∧ ∀ holds j, own holds j →
      Chain holds i j o ks ss o' ∧ Owns holds (i + ks.length) (j + ss.length) o' fulls'

theorem Rest.advance {x : Sec2tsImpl} {i : Nat} {o : Open} {fulls given fulls' : List (List UInt8)}
    {evs : List Event} {own : (Nat → Nat → Prop) → Nat → Prop} (h : Rest x i o fulls')
    (hevs : packets evs = []) (hsame : fulls' = fulls ++ given)
    (hown : ∀ holds j, own holds j → Owns holds i j o fulls') : Advance i o fulls given x evs own :=
  ⟨[], [], o, fulls', by rw [hevs]; exact .nil, h, by simp [hsame], fun holds j h => ⟨.nil, hown holds j h⟩⟩

theorem Advance.packet {i : Nat} {o o1 : Open} {fulls given fulls1 given1 ss : List (List UInt8)}
    {y : Sec2tsImpl} {p : List UInt8} {k : Packet} {evs : List Event}
    {own own1 : (Nat → Nat → Prop) → Nat → Prop} (hp : Emits p k) (hcc : k.cc = ccOf i)
    (hflow : Flow o k ss o1) (hrest : Advance (i+1) o1 fulls1 given1 y evs own1)
    (hsame : ss ++ (fulls1 ++ given1) = fulls ++ given)
    (hown : ∀ holds j, own holds j → Owns holds i j o ss ∧ own1 holds (j + ss.length)) :
    Advance i o fulls given y (.tsPacketProduced p :: evs) own := by
  obtain ⟨ks, ss', o', fulls', hks, hy, heq, hchain⟩ := hrest
  have hi : i + (k :: ks).length = i + 1 + ks.length := by simp [Nat.add_assoc, Nat.add_comm 1]
  refine ⟨k :: ks, ss ++ ss', o', fulls', .cons hp hks, by rwa [hi], ?_, fun holds j h => ?_⟩
  · rw [List.append_assoc, heq, hsame]
  · obtain ⟨⟨hcarry, hnew⟩, h1⟩ := hown holds j h
    obtain ⟨hc, ho⟩ := hchain holds _ h1
    rw [hi, List.length_append, ← Nat.add_assoc]
    exact ⟨.cons hcc hflow hcarry hnew hc, ho⟩

theorem rem_eq {e : Nat} (h : e ≤ 188) : rem e = 188 - e := by
  unfold rem tsPacketLen
  omega

theorem adaptation_begun {x : Sec2tsImpl} {i : Nat} (hx : Steady x i) :
    x.adaptation.2 ≤ 182 ∧ x.adaptation.1.pusi = x.pusi ∧
    Begun (x.begin wrap8) i := by
  unfold Sec2tsImpl.begin wrap8 Sec2tsImpl.adaptation
  split
  · exact ⟨by omega, rfl, ⟨hx.pid, hx.cc, hx.polite⟩, le_rfl, by show 4 ≤ 186; omega,
      fun h => absurd h (by show ¬ 4 < 4; omega)⟩
  · next cb hcb =>
    obtain ⟨hle, hfirst⟩ := hx.polite cb hcb x.adaptationCalls fun i => x.tsPacket (4 + i)
    dsimp only
    generalize cb x.adaptationCalls (fun i => x.tsPacket (4 + i)) = r at hle hfirst ⊢
    rw [Nat.mod_eq_of_lt (show 4 + r.1 < 256 by omega)]
    refine ⟨hle, rfl, ⟨hx.pid, hx.cc, hx.polite⟩, Nat.le_add_right 4 r.1, ?_, ?_⟩
    · show 4 + r.1 ≤ 186
      omega
    · intro hlt
      have hpos : (r.2 ⟨0, by decide⟩).toNat + 1 = r.1 := hfirst (by simpa using hlt)
      show (x.tsPacket.write 4 (List.ofFn r.2) 4).toNat + 5 = 4 + r.1
      simp only [Memory.write_apply, List.length_ofFn, le_refl, true_and]
      rw [if_pos (by omega)]
      simp only [Nat.sub_self, List.getElem?_ofFn, Nat.zero_lt_succ, dif_pos, Option.getD_some]
      omega

theorem turn_begun {x : Sec2tsImpl} {i : Nat} (hx : Steady x i) (sec : List UInt8) (w : Bool) :
    x.turn wrap8 sec w =
      let y := if w then x.begin wrap8 else (x.begin wrap8).pointer wrap8
      y.put wrap8 y.pusi y.payloadEnd sec := by
  obtain ⟨hle, -, -⟩ := adaptation_begun hx
  have hend : (x.begin wrap8).payloadEnd = (4 + x.adaptation.2) % 256 := rfl
  unfold Sec2tsImpl.turn
  dsimp only
  rw [if_neg (by rw [hend, rem_eq (by omega)]; omega)]

def CarriesOn (i : Nat) (evs : List Event) (holds : Nat → Nat → Prop) (j : Nat) : Prop :=
  ∀ k ∈ copiedInto i evs, holds (j-1) k

/-- The trace copies exactly the bytes of the section behind `fulls`. -/
def Begins (i : Nat) (o : Open) (fulls : List (List UInt8)) (evs : List Event)
    (holds : Nat → Nat → Prop) (j : Nat) : Prop :=
  Owns holds i j o fulls ∧ ∀ k, holds (j + fulls.length) k ↔ k ∈ copiedInto i evs

/-- What the loop does when it goes on with the rest of a section. -/
def Continues (x : Sec2tsImpl) (sec : List UInt8) (fuel i : Nat) : Prop :=
  ∀ sent, ∃ y evs, x.loop wrap8 sec true fuel = some (y, evs) ∧
    Advance i (some (sent, sec)) [] [] y evs (CarriesOn i evs)

theorem put_advances {x : Sec2tsImpl} {u : Bool} {e : Nat} {sec : List UInt8} {fuel i : Nat} {k : Packet}
    {o : Open} {fulls given ss : List (List UInt8)} {own : List Event → (Nat → Nat → Prop) → Nat → Prop}
    (hx : Steady x i) (hn : 0 < rem x.payloadEnd) (hle : rem x.payloadEnd ≤ sec.length)
    (hk : Carries (x.filled u e (sec.take (rem x.payloadEnd))).tsPacket k) (hcc : k.cc = ccOf i)
    (hlast : sec.length = rem x.payloadEnd → Flow o k ss none)
    (hflow : rem x.payloadEnd < sec.length → ∃ sent, Flow o k ss (some (sent, sec.drop (rem x.payloadEnd))))
    (hcont : ∀ x', Steady x' (i+1) → x'.pusi = false → rem x.payloadEnd < sec.length →
      Continues x' (sec.drop (rem x.payloadEnd)) fuel (i+1))
    (hsame : ss = fulls ++ given)
    (hown : ∀ evs holds j, i ∈ copiedInto i evs → own evs holds j →
      Owns holds i j o ss ∧ ∀ k ∈ copiedInto i evs, holds (j + ss.length - 1) k) :
    ∃ y evs, Sec2tsImpl.after wrap8 fuel (x.put wrap8 u e sec) = some (y, evs) ∧
      Advance i o fulls given y evs (own evs) := by
  have hp := emits_of_carries hk
  have hsent : Steady (x.filled u e (sec.take (rem x.payloadEnd))).next (i+1) :=
    @Steady.sent { x with tsPacket := x.tsPacket.write x.payloadEnd (sec.take (rem x.payloadEnd)), payloadEnd := e } i
      ⟨hx.pid, hx.cc, hx.polite⟩ u _
  have hcopied (p : List UInt8) (evs : List Event) :
      copiedInto i (.memcpy x.payloadEnd (rem x.payloadEnd) :: .tsPacketProduced p :: evs) = i :: copiedInto (i+1) evs :=
    copiedInto_memcpy hn _
  rw [Sec2tsImpl.put_full (not_lt.mpr hle)]
  dsimp only
  by_cases hlen : sec.length - rem x.payloadEnd = 0
  · rw [if_pos hlen]
    refine ⟨_, _, rfl, Advance.packet hp hcc (hlast (by omega)) (@Rest.advance _ _ _ [] _ _ _ (fun _ _ => True)
      (.idle hsent rfl rfl) rfl rfl fun _ j _ => ⟨fun h => absurd rfl h, fun s hl hu => ?_⟩)
      (by simp [hsame]) fun holds j h => ?_⟩
    · simp only [List.length_nil] at hu
      omega
    · exact ⟨(hown _ holds j (by rw [Sec2tsImpl.produced, hcopied]; exact List.mem_cons_self) h).1, trivial⟩
  · rw [if_neg hlen]
    obtain ⟨sent, hf⟩ := hflow (by omega)
    obtain ⟨y, evs, heq, hadv⟩ := hcont _ hsent rfl (by omega) sent
    rw [Sec2tsImpl.after, heq]
    refine ⟨y, _, rfl, Advance.packet hp hcc hf hadv (by simp [hsame]) fun holds j h => ?_⟩
    obtain ⟨ho, hall⟩ := hown _ holds j
      (by rw [List.cons_append, List.cons_append, Sec2tsImpl.produced, hcopied]; exact List.mem_cons_self) h
    rw [List.cons_append, List.cons_append, Sec2tsImpl.produced, hcopied] at hall
    exact ⟨ho, fun k hk => hall k (List.mem_cons_of_mem i hk)⟩

theorem loop_continues {x : Sec2tsImpl} {i : Nat} (hx : Steady x i) (hpusi : x.pusi = false)
    (sec : List UInt8) (hsec : sec ≠ []) (fuel : Nat) (hfuel : sec.length ≤ fuel) :
    Continues x sec fuel i := by
  induction fuel generalizing x sec i with
  | zero => exact absurd (List.length_eq_zero_iff.mp (by omega)) hsec
  | succ fuel ih =>
    intro sent
    obtain ⟨-, hpusi', hb⟩ := adaptation_begun hx
    have hpusi' : (x.begin wrap8).pusi = false := hpusi'.trans hpusi
    have hend : (x.begin wrap8).payloadEnd = (x.begin wrap8).payloadStart := rfl
    rw [Sec2tsImpl.loop_succ, turn_begun hx, if_pos rfl]
    dsimp only
    generalize x.begin wrap8 = x' at hb hpusi' hend
    have hlo := hb.lo
    have hhi := hb.hi
    have hpos : 0 < sec.length := List.length_pos_iff.mpr hsec
    have hrem : rem x'.payloadEnd = 188 - x'.payloadStart := by rw [rem_eq (by omega), hend]
    have hnone (holds : Nat → Nat → Prop) (j s : Nat) (hl : j ≤ s)
        (hu : s < j + ([] : List (List UInt8)).length) : Starts holds s i := by
      simp only [List.length_nil] at hu
      omega
    by_cases hfit : rem x'.payloadEnd > sec.length
    · have hmod : (x'.payloadEnd + sec.length) % 256 = x'.payloadStart + sec.length := by omega
      rw [Sec2tsImpl.put_fits hfit, wrap8, hmod, hend]
      have hc : Carrying { x' with
          tsPacket := x'.tsPacket.write x'.payloadStart sec
          payloadEnd := x'.payloadStart + sec.length } i sec := by
        refine ⟨hb.store x'.payloadStart sec _ _ le_rfl, hpusi', Nat.le_add_right _ _, ?_, ?_, hsec⟩
        · show x'.payloadStart + sec.length ≤ 187
          omega
        · show (x'.tsPacket.write x'.payloadStart sec).read x'.payloadStart
            (x'.payloadStart + sec.length - x'.payloadStart) = sec
          rw [Nat.add_sub_cancel_left, Memory.read_write_same]
      exact ⟨_, _, rfl, Rest.advance (.carrying hc) rfl rfl fun holds j hmem =>
        ⟨fun _ => hmem i (by simp [copiedInto_memcpy hpos]), hnone holds j⟩⟩
    · have hle := not_lt.mp hfit
      have htake : (sec.take (rem x'.payloadEnd)).length = rem x'.payloadEnd := by
        rw [List.length_take]
        omega
      have hk := Carrying.full hb hend.ge (by omega) (by rw [hend, Nat.sub_self, Memory.read_zero])
        (sec.take (rem x'.payloadEnd)) (by rw [htake, rem_eq (by omega)]; rfl)
      have hdrop (hlt : rem x'.payloadEnd < sec.length) : sec.drop (rem x'.payloadEnd) ≠ [] :=
        List.ne_nil_of_length_pos (by rw [List.length_drop]; omega)
      have hlast (hlen : sec.length = rem x'.payloadEnd) : Flow (some (sent, sec))
          ⟨ccOf i, false, 0, [] ++ sec.take (rem x'.payloadEnd)⟩ [] none := by
        rw [List.take_of_length_le hlen.le]
        simpa using Flow.close 0
      have hflow (hlt : rem x'.payloadEnd < sec.length) : ∃ sent', Flow (some (sent, sec))
          ⟨ccOf i, false, 0, [] ++ sec.take (rem x'.payloadEnd)⟩ []
          (some (sent', sec.drop (rem x'.payloadEnd))) := by
        have hf := @Flow.middle (ccOf i) sent _ _
          (List.ne_nil_of_length_pos (l := sec.take (rem x'.payloadEnd)) (by omega)) (hdrop hlt)
        rw [List.take_append_drop] at hf
        exact ⟨_, hf⟩
      rw [hpusi']
      exact put_advances hb.toSteady (by omega) hle hk rfl hlast hflow
        (fun y hy hyp hlt => ih hy hyp _ (hdrop hlt) (by rw [List.length_drop]; omega)) rfl
        fun evs holds j hi hmem => ⟨⟨fun _ => hmem i hi, hnone holds j⟩, hmem⟩

theorem Pointed.start {x : Sec2tsImpl} {i : Nat} {o : Open} {fulls : List (List UInt8)}
    (h : Pointed x i o fulls) (sec : List UInt8) (hsec : sec ≠ []) (fuel : Nat)
    (hfuel : sec.length ≤ fuel + 1) (e : Nat) :
    ∃ y evs, Sec2tsImpl.after wrap8 fuel (x.put wrap8 true e sec) = some (y, evs) ∧
      Advance i o fulls [sec] y evs (Begins i o fulls evs) := by
  have hroom := h.room
  have hpos : 0 < sec.length := List.length_pos_iff.mpr hsec
  have hrem : rem x.payloadEnd = 188 - x.payloadEnd := rem_eq (by omega)
  -- the new section starts in this packet, as those before it do
  have howns (evs : List Event) (holds : Nat → Nat → Prop) (j : Nat) (hi : i ∈ copiedInto i evs)
      (hb : Begins i o fulls evs holds j) : Owns holds i j o (fulls ++ [sec]) := by
    obtain ⟨⟨hcarry, hnew⟩, hown⟩ := hb
    refine ⟨hcarry, fun s hl hu => ?_⟩
    rw [List.length_append, List.length_singleton] at hu
    by_cases hs : s < j + fulls.length
    · exact hnew s hl hs
    · obtain rfl : s = j + fulls.length := by omega
      exact ⟨(hown i).mpr hi, fun m hm => copiedInto_ge ((hown m).mp hm)⟩
  by_cases hfit : rem x.payloadEnd > sec.length
  · rw [Sec2tsImpl.put_fits hfit]
    exact ⟨_, _, rfl, Rest.advance (.pointed (h.push sec (by omega)) (by simp)) rfl rfl fun holds j hb =>
      howns _ holds j (by simp [copiedInto_memcpy hpos]) hb⟩
  · have hle := not_lt.mp hfit
    have htake : (sec.take (rem x.payloadEnd)).length = rem x.payloadEnd := by
      rw [List.length_take, min_eq_left hle]
    have hdrop (hlt : rem x.payloadEnd < sec.length) : sec.drop (rem x.payloadEnd) ≠ [] :=
      List.ne_nil_of_length_pos (by rw [List.length_drop]; omega)
    have hlast (hlen : sec.length = rem x.payloadEnd) :
        Flow o ⟨ccOf i, true, o.todo.length, o.todo ++ (fulls.flatten ++ sec.take (rem x.payloadEnd))⟩
          (fulls ++ [sec]) none := by
      rw [List.take_of_length_le hlen.le]
      simpa using @Flow.whole _ o (fulls ++ [sec]) 0 (by simp)
    have hflow (hlt : rem x.payloadEnd < sec.length) : ∃ sent,
        Flow o ⟨ccOf i, true, o.todo.length, o.todo ++ (fulls.flatten ++ sec.take (rem x.payloadEnd))⟩
          (fulls ++ [sec]) (some (sent, sec.drop (rem x.payloadEnd))) := by
      have hf := @Flow.head (ccOf i) o fulls _ _
        (List.ne_nil_of_length_pos (l := sec.take (rem x.payloadEnd)) (by omega)) (hdrop hlt)
      rw [List.take_append_drop] at hf
      exact ⟨_, hf⟩
    have hj (j : Nat) : j + (fulls ++ [sec]).length - 1 = j + fulls.length := by simp
    exact put_advances h.toSteady (by omega) hle (h.full (sec.take (rem x.payloadEnd)) e (htake.trans hrem)) rfl hlast hflow
      (fun y hy hyp hlt => loop_continues hy hyp _ (hdrop hlt) fuel (by rw [List.length_drop]; omega))
      rfl fun evs holds j hi hb => ⟨howns evs holds j hi hb, fun k hk => by
        rw [hj]
        exact (hb.2 k).mpr hk⟩

theorem loop_starts {x : Sec2tsImpl} {i : Nat} (hx : Steady x i) (sec : List UInt8) (hsec : sec ≠ [])
    (fuel : Nat) (hfuel : sec.length ≤ fuel) :
    ∃ y evs, x.loop wrap8 sec false fuel = some (y, evs) ∧
      Advance i none [] [sec] y evs (Begins i none [] evs) := by
  have hpos : 0 < sec.length := List.length_pos_iff.mpr hsec
  obtain ⟨fuel, rfl⟩ : ∃ f, fuel = f + 1 := ⟨fuel - 1, by omega⟩
  obtain ⟨-, -, hb⟩ := adaptation_begun hx
  have hend : (x.begin wrap8).payloadEnd = (x.begin wrap8).payloadStart := rfl
  rw [Sec2tsImpl.loop_succ, turn_begun hx, if_neg Bool.false_ne_true]
  dsimp only
  generalize x.begin wrap8 = x' at hb hend
  have hhi := hb.hi
  have hpointer : x'.pointer wrap8 = { x' with
      tsPacket := x'.tsPacket.write x'.payloadStart [0]
      payloadEnd := x'.payloadStart + 1
      pusi := true } := by
    unfold Sec2tsImpl.pointer wrap8
    rw [hend, Nat.mod_eq_of_lt (by omega)]
  have hp : Pointed { x' with
      tsPacket := x'.tsPacket.write x'.payloadStart [0]
      payloadEnd := x'.payloadStart + 1
      pusi := true } i none [] := by
    refine ⟨hb.store x'.payloadStart [0] _ _ le_rfl, rfl, Nat.le_succ _, ?_, ?_⟩
    · show x'.payloadStart + 1 ≤ 187
      omega
    · show (x'.tsPacket.write x'.payloadStart [0]).read x'.payloadStart
        (x'.payloadStart + 1 - x'.payloadStart) = [0]
      rw [Nat.add_sub_cancel_left]
      exact Memory.read_write_same _ _ [0]
  rw [hpointer]
  exact hp.start sec hsec fuel hfuel (x'.payloadStart + 1)

theorem section_advances {x : Sec2tsImpl} {i : Nat} {o : Open} {fulls : List (List UInt8)}
    (hx : Rest x i o fulls) (sec : List UInt8) (hsec : sec ≠ []) (fuel : Nat)
    (hfuel : sec.length ≤ fuel) :
    ∃ y evs, x.sectionX sec fuel = some (y, evs) ∧
      Advance i o fulls [sec] y evs (Begins i o fulls evs) := by
  rw [Sec2tsImpl.sectionX_eq]
  unfold Sec2tsImpl.enter
  cases hx with
  | idle hx hstart hpusi =>
    rw [if_neg (by simp [hstart])]
    obtain ⟨y, evs, heq, hadv⟩ := loop_starts hx sec hsec fuel hfuel
    exact ⟨y, evs, by rw [Sec2tsImpl.after, heq]; rfl, hadv⟩
  | pointed hx hfulls =>
    have hlo := hx.lo
    rw [if_pos (by omega), if_pos hx.pusi]
    exact hx.start sec hsec fuel (by omega) _
  | @carrying sent todo hx =>
    have hlo := hx.lo
    have hroom := hx.room
    rw [if_pos (by omega), if_neg (by rw [hx.pusi]; decide)]
    by_cases hend : x.payloadEnd ≥ tsPacketLen - 1
    · rw [if_pos hend]
      have hend : x.payloadEnd = 187 := by
        have : x.payloadEnd ≥ 187 := hend
        omega
      have hk := Carrying.full hx.toBegun hx.le hroom hx.stored [0xff] (by rw [hend]; rfl)
      have hp := emits_of_carries hk
      dsimp only
      rw [show tsPacketLen - 1 = x.payloadEnd from hend.symm]
      have hx1 := (hx.toBegun.store x.payloadEnd [0xff] x.payloadEnd x.pusi hx.le).toSteady
      obtain ⟨y, evs, heq, hadv⟩ := loop_starts (hx1.sent false _) sec hsec fuel hfuel
      rw [Sec2tsImpl.after, heq]
      refine ⟨y, _, rfl, Advance.packet hp rfl (.close 1) hadv rfl fun holds j hb => ?_⟩
      exact ⟨hb.1, ⟨fun h => absurd rfl h, fun s hl hu => absurd hu (by simpa using hl)⟩, hb.2⟩
    · rw [if_neg hend]
      have hend : x.payloadEnd ≤ 186 := by
        have : ¬ x.payloadEnd ≥ 187 := hend
        omega
      dsimp only
      obtain ⟨y, evs, heq, hadv⟩ := (hx.point hend).start sec hsec fuel (by omega)
        (wrap8 (wrap8 (x.payloadEnd + 1) + rem (wrap8 (x.payloadEnd + 1))))
      have hjoin : Sec2tsImpl.after wrap8 fuel ((x.insertPointer wrap8).join wrap8 sec) = some (y, evs) := heq
      rw [Sec2tsImpl.after_behind, hjoin]
      exact ⟨y, _, rfl, hadv⟩

theorem flush_closes {x : Sec2tsImpl} {i : Nat} {o : Open} {fulls : List (List UInt8)}
    (hx : Rest x i o fulls) :
    ∃ ks, List.Forall₂ Emits (packets x.flush.2) ks ∧ Rest x.flush.1 (i + ks.length) none [] ∧
      ∀ holds j, Owns holds i j o fulls → Chain holds i j o ks fulls none := by
  -- the stuffing may as well be written before the header
  have hstuffed (u : Bool) (k : Packet) (hu : x.pusi = u) (hlo : 4 ≤ x.payloadEnd)
      (hk : Carries ({ x with
          tsPacket := x.tsPacket.write x.payloadEnd (List.replicate (tsPacketLen - x.payloadEnd) 0xff)
        }.fixHeader u x.payloadAfc).tsPacket k) :
      Carries ((x.fixHeader x.pusi x.payloadAfc).tsPacket.write x.payloadEnd
        (List.replicate (tsPacketLen - x.payloadEnd) 0xff)) k := by
    rw [← hu, ← fixHeader_write x x.pusi x.payloadAfc hlo] at hk
    exact hk
  unfold Sec2tsImpl.flush
  dsimp only
  cases hx with
  | idle hx hstart hpusi =>
    rw [if_neg (by simp [hstart])]
    exact ⟨[], .nil, .idle hx hstart hpusi, fun _ _ _ => .nil⟩
  | @carrying sent todo hx =>
    have hle := hx.le
    have hlo := hx.lo
    have hk := Carrying.full hx.toBegun hle hx.room hx.stored
      (List.replicate (tsPacketLen - x.payloadEnd) 0xff) List.length_replicate
    have hk := hstuffed false _ hx.pusi (by omega) hk
    rw [if_pos (by omega)]
    have hst := hx.toSteady.sent x.pusi x.payloadAfc
    refine ⟨[_], .cons (emits_of_carries hk) .nil, .idle ⟨hst.pid, hst.cc, hst.polite⟩ rfl rfl,
      fun holds j ho => ?_⟩
    exact .single rfl (.close _) ho.1 ho.2
  | pointed hx hfulls =>
    have hle := hx.le
    have hlo := hx.lo
    have hk := hx.full (List.replicate (tsPacketLen - x.payloadEnd) 0xff) x.payloadEnd
      List.length_replicate
    have hk := hstuffed true _ hx.pusi (by omega) hk
    rw [if_pos (by omega)]
    have hst := hx.toSteady.sent x.pusi x.payloadAfc
    refine ⟨[_], .cons (emits_of_carries hk) .nil, .idle ⟨hst.pid, hst.cc, hst.polite⟩ rfl rfl,
      fun holds j ho => ?_⟩
    exact .single rfl (.whole _ hfulls) ho.1 ho.2

theorem Begun.setPID {x : Sec2tsImpl} {i : Nat} (h : Begun x i) (pid : UInt16)
    (hpid : (x.setPID pid).pid.toNat < 0x2000) : Begun (x.setPID pid) i :=
  ⟨⟨hpid, h.cc, h.polite⟩, h.lo, h.hi, h.field⟩

theorem Rest.setPID {x : Sec2tsImpl} {i : Nat} {o : Open} {fulls : List (List UInt8)}
    (h : Rest x i o fulls) (pid : UInt16) : Rest (x.setPID pid) i o fulls := by
  have hpid : (x.setPID pid).pid.toNat < 0x2000 := by
    show (pid &&& ((1 : UInt16) <<< 13 - 1)).toNat < 0x2000
    rw [UInt16.toNat_and]
    exact lt_of_le_of_lt Nat.and_le_right (by decide)
  cases h with
  | idle hx hstart hpusi => exact .idle ⟨hpid, hx.cc, hx.polite⟩ hstart hpusi
  | carrying hx => exact .carrying ⟨hx.toBegun.setPID pid hpid, hx.pusi, hx.le, hx.room, hx.stored, hx.ne⟩
  | pointed hx hf => exact .pointed ⟨hx.toBegun.setPID pid hpid, hx.pusi, hx.le, hx.room, hx.stored⟩ hf

def given (cs : List Call) : List (List UInt8) :=
  cs.filterMap fun
    | .sectionX sec => some sec
    | _ => none

@[simp] theorem given_nil : given [] = [] := rfl
@[simp] theorem given_section (sec : List UInt8) (cs : List Call) :
    given (.sectionX sec :: cs) = sec :: given cs := rfl
@[simp] theorem given_flush (cs : List Call) : given (.flush :: cs) = given cs := rfl
@[simp] theorem given_setPID (pid : UInt16) (cs : List Call) :
    given (.setPID pid :: cs) = given cs := rfl
theorem given_append (cs ds : List Call) : given (cs ++ ds) = given cs ++ given ds :=
  List.filterMap_append

/-- For each given section the numbers of its own packets, those into which its bytes
were copied. `i` packets were produced before the calls. -/
def ownPackets (i : Nat) : List Call → List (List Event) → List (List Nat)
  | .sectionX _ :: cs, evs :: traces =>
    copiedInto i evs :: ownPackets (i + (packets evs).length) cs traces
  | _ :: cs, evs :: traces => ownPackets (i + (packets evs).length) cs traces
  | _, _ => []

/-- `holds` says of the sections given in a run, numbered from `j` on, what their own
packets are. -/
def Owned (holds : Nat → Nat → Prop) (i j : Nat) (cs : List Call) (traces : List (List Event)) : Prop :=
  ∀ s, s < (given cs).length → ∀ k, holds (j + s) k ↔ k ∈ (ownPackets i cs traces).getD s []

theorem Owned.cons {holds : Nat → Nat → Prop} {i j : Nat} {c : Call} {cs : List Call}
    {evs : List Event} {traces : List (List Event)} (h : Owned holds i j (c :: cs) (evs :: traces)) :
    Owned holds i j [c] [evs] ∧
    Owned holds (i + (packets evs).length) (j + (given [c]).length) cs traces := by
  cases c with
  | sectionX sec =>
    refine ⟨fun s hs k => ?_, fun s hs k => ?_⟩
    · obtain rfl : s = 0 := Nat.lt_one_iff.mp hs
      exact h 0 (Nat.succ_pos _) k
    · rw [Nat.add_assoc, Nat.add_comm _ s]
      exact h (s+1) (Nat.succ_lt_succ hs) k
  | flush => exact ⟨fun s hs => absurd hs (Nat.not_lt_zero s), h⟩
  | setPID pid => exact ⟨fun s hs => absurd hs (Nat.not_lt_zero s), h⟩

theorem call_advances {x : Sec2tsImpl} {i : Nat} {o : Open} {fulls : List (List UInt8)}
    (hx : Rest x i o fulls) (fuel : Nat) (c : Call)
    (hc : ∀ sec ∈ given [c], sec ≠ [] ∧ sec.length ≤ fuel) :
    ∃ y evs, x.call fuel c = some (y, evs) ∧ Advance i o fulls (given [c]) y evs fun holds j =>
      Owns holds i j o fulls ∧ Owned holds i (j + fulls.length) [c] [evs] := by
  cases c with
  | sectionX sec =>
    obtain ⟨hne, hle⟩ := hc sec (by simp)
    obtain ⟨y, evs, heq, ks, ss, o', fulls', hks, hy, hsame, hchain⟩ := section_advances hx sec hne fuel hle
    exact ⟨y, evs, heq, ks, ss, o', fulls', hks, hy, hsame, fun holds j ho =>
      hchain holds j ⟨ho.1, ho.2 0 Nat.one_pos⟩⟩
  | flush =>
    obtain ⟨ks, hks, hy, hchain⟩ := flush_closes hx
    exact ⟨_, _, rfl, ks, fulls, none, [], hks, hy, rfl, fun holds j ho =>
      ⟨hchain holds j ho.1, fun h => absurd rfl h, fun s hl hu => absurd hu (by simpa using hl)⟩⟩
  | setPID pid => exact ⟨_, _, rfl, (hx.setPID pid).advance rfl (by simp) fun holds j ho => ho.1⟩

/-- A run of calls continues the stream by the given sections. -/
theorem run_advances {x : Sec2tsImpl} {i : Nat} {o : Open} {fulls : List (List UInt8)}
    (hx : Rest x i o fulls) (fuel : Nat) (cs : List Call)
    (hcs : ∀ sec ∈ given cs, sec ≠ [] ∧ sec.length ≤ fuel) :
    ∃ y traces, runCalls fuel x cs = some (y, traces) ∧
      Advance i o fulls (given cs) y traces.flatten fun holds j =>
        Owns holds i j o fulls ∧ Owned holds i (j + fulls.length) cs traces := by
  induction cs generalizing x i o fulls with
  | nil => exact ⟨x, [], rfl, hx.advance rfl (by simp) fun holds j h => h.1⟩
  | cons c cs ih =>
    have hsplit : given (c :: cs) = given [c] ++ given cs := given_append [c] cs
    rw [hsplit] at hcs ⊢
    obtain ⟨y, evs, heq, ks, ss, o', fulls', hks, hy, hsame, hchain⟩ :=
      call_advances hx fuel c fun sec h => hcs sec (List.mem_append_left _ h)
    obtain ⟨z, traces, hrun, ks', ss', o'', fulls'', hks', hz, hsame', hchain'⟩ :=
      ih hy fun sec h => hcs sec (List.mem_append_right _ h)
    have hlen : ss.length + fulls'.length = fulls.length + (given [c]).length := by
      rw [← List.length_append, hsame, List.length_append]
    refine ⟨z, evs :: traces, by rw [runCalls, heq]; simp [hrun], ks ++ ks', ss ++ ss', o'', fulls'', ?_, ?_,
      ?_, fun holds j ho => ?_⟩
    · rw [List.flatten_cons, packets_append]
      exact List.rel_append hks hks'
    · rw [List.length_append, ← Nat.add_assoc]
      exact hz
    · rw [List.append_assoc, hsame', ← List.append_assoc, hsame, List.append_assoc]
    · obtain ⟨ho, hown⟩ := ho
      obtain ⟨hfirst, hrest⟩ := hown.cons
      rw [hks.length_eq, Nat.add_assoc, ← hlen, ← Nat.add_assoc] at hrest
      obtain ⟨hc, ho'⟩ := hchain holds j ⟨ho, hfirst⟩
      obtain ⟨hc', ho''⟩ := hchain' holds _ ⟨ho', hrest⟩
      rw [List.length_append, List.length_append, ← Nat.add_assoc, ← Nat.add_assoc]
      exact ⟨hc.append hc', ho''⟩

theorem runCalls_flush {fuel : Nat} {x y : Sec2tsImpl} {cs : List Call} {traces : List (List Event)}
    (h : runCalls fuel x (cs ++ [.flush]) = some (y, traces)) : y.payloadStart = 0 := by
  induction cs generalizing x traces with
  | nil =>
    obtain ⟨rfl, -⟩ : x.flush.1 = y ∧ [x.flush.2] = traces := by
      simpa [runCalls, Sec2tsImpl.call] using h
    unfold Sec2tsImpl.flush
    split
    · rfl
    · next hstart => simpa using hstart
  | cons c cs ih =>
    rw [List.cons_append, runCalls] at h
    obtain ⟨⟨z, evs⟩, -, h⟩ := Option.bind_eq_some_iff.mp h
    obtain ⟨⟨y', traces'⟩, hrun, h⟩ := Option.bind_eq_some_iff.mp h
    obtain ⟨rfl, -⟩ : y' = y ∧ evs :: traces' = traces := by simpa using h
    exact ih hrun

theorem Rest.of_start {x : Sec2tsImpl} {i : Nat} {o : Open} {fulls : List (List UInt8)}
    (h : Rest x i o fulls) (hx : x.payloadStart = 0) : o = none ∧ fulls = [] := by
  cases h with
  | idle => exact ⟨rfl, rfl⟩
  | carrying hc => exact absurd hc.lo (by omega)
  | pointed hp => exact absurd hp.lo (by omega)

/-- A run of a fresh packetizer is a stream of the given sections, up to what is pending. -/
theorem run_chain (cb : Option AdaptationField) (hcb : ∀ f, cb = some f → Polite f) (fuel : Nat) (cs : List Call)
    (hcs : ∀ sec ∈ given cs, sec ≠ [] ∧ sec.length ≤ fuel) :
    ∃ x traces, runCalls fuel (create cb) cs = some (x, traces) ∧ ∃ ks ss o fulls,
      List.Forall₂ Emits (packets traces.flatten) ks ∧ Rest x ks.length o fulls ∧ ss ++ fulls = given cs ∧
      Chain (fun s k => k ∈ (ownPackets 0 cs traces).getD s []) 0 0 none ks ss o := by
  have hfresh : Rest (create cb) 0 none [] := .idle ⟨show 0 < 0x2000 by decide, rfl, hcb⟩ rfl rfl
  obtain ⟨x, traces, hrun, ks, ss, o, fulls, hks, hx, hsame, hchain⟩ := run_advances hfresh fuel cs hcs
  rw [Nat.zero_add] at hx
  refine ⟨x, traces, hrun, ks, ss, o, fulls, hks, hx, hsame, (hchain _ 0 ⟨⟨fun h => absurd rfl h, fun s hl hu => ?_⟩, ?_⟩).1⟩
  · exact absurd hu (Nat.not_lt_zero s)
  · intro s hs k
    simp only [List.length_nil, Nat.zero_add]

end Mopa.Sec2ts
