import Mopa.Sec2tsCalls
import Mopa.Sec2tsTurns

/-! Bounds of the packetizer, for callbacks that may fill whole packets: its counters stay
within the packet, what it copies stays within packet and section, and it comes to an end. -/
namespace Mopa.Sec2ts

/-- No packet is pending, or the counters are those of a packet with a free byte. -/
structure Bounded (x : Sec2tsImpl) : Prop where
  counters : x.payloadStart = 0 ∨ 4 ≤ x.payloadStart ∧ x.payloadStart ≤ x.payloadEnd ∧ x.payloadEnd ≤ 187
  pusi : x.pusi = true → x.payloadStart ≠ 0 ∧ x.payloadStart < x.payloadEnd

def Short (x : Sec2tsImpl) : Prop := ∀ cb, x.onAdaptationField = some cb → ∀ k area, (cb k area).1 ≤ 184

def Event.Within : Event → Prop
  | memmove dst src n => dst + n ≤ tsPacketLen ∧ src + n ≤ tsPacketLen
  | memcpy dst n => dst + n ≤ tsPacketLen
  | memset dst n => dst + n ≤ tsPacketLen
  | tsPacketProduced _ => True

def copied (evs : List Event) : Nat :=
  (evs.map fun
    | .memcpy _ n => n
    | _ => 0).sum

/-- The lengths that exceed 182: such a packet has no room for a pointer field and a byte. -/
def large (lengths : List Nat) : Nat := (lengths.filter (182 < ·)).length

namespace Sec2tsImpl

def returned (x : Sec2tsImpl) (sec : List UInt8) (w : Bool) : Nat → List Nat
  | 0 => []
  | fuel+1 => x.adaptation.2 :: match x.turn wrap8 sec w with
    | .done .. => []
    | .again y sec w _ => y.returned sec w fuel

def returnedBy (x : Sec2tsImpl) (fuel : Nat) : Call → List Nat
  | .sectionX sec => match x.enter wrap8 sec with
    | .done .. => []
    | .again y sec w _ => y.returned sec w fuel
  | _ => []

def callWith (wrap : Nat → Nat) (x : Sec2tsImpl) (fuel : Nat) : Call → Option (Sec2tsImpl × List Event)
  | .sectionX sec => after wrap fuel (x.enter wrap sec)
  | .flush => some x.flush
  | .setPID pid => some (x.setPID pid, [])

end Sec2tsImpl

def Call.size : Call → Nat
  | .sectionX sec => sec.length
  | _ => 0

/-- A call has ended with the given state and trace: the counters are in order and have not
wrapped, nothing was touched outside of packet and section, and not too many packets went out. -/
structure CallSafe (x : Sec2tsImpl) (fuel : Nat) (c : Call) (y : Sec2tsImpl) (evs : List Event) : Prop where
  bounded : Bounded y
  exact : x.callWith id fuel c = some (y, evs)
  within : ∀ e ∈ evs, e.Within
  copied : copied evs ≤ c.size
  packets : (packets evs).length ≤ c.size + 1 + large (x.returnedBy fuel c)

/-- In each call of a run lengths above 182 come back finitely often. -/
def FinitelyOften : Sec2tsImpl → List Call → Prop
  | _, [] => True
  | x, c :: cs => (∃ bound, ∀ fuel, large (x.returnedBy fuel c) ≤ bound) ∧
    ∀ fuel y evs, x.call fuel c = some (y, evs) → FinitelyOften y cs

def Safely : Sec2tsImpl → List Call → Prop
  | _, [] => True
  | x, c :: cs => ∃ fuel y evs, x.call fuel c = some (y, evs) ∧ CallSafe x fuel c y evs ∧ Safely y cs

structure Idle (x : Sec2tsImpl) : Prop where
  start : x.payloadStart = 0
  pusi : x.pusi = false

theorem Idle.bounded {x : Sec2tsImpl} (h : Idle x) : Bounded x :=
  ⟨.inl h.start, fun hp => absurd hp (by rw [h.pusi]; decide)⟩

/-- What is to hold of a call that ends, of the turns up to its end and of the loop: the
section is used up, and apart from `free` packets each took a byte of it. -/
structure Ended (cb : Option AdaptationField) (sec : List UInt8) (free : Nat) (y : Sec2tsImpl)
    (evs : List Event) : Prop where
  bounded : Bounded y
  callback : y.onAdaptationField = cb
  within : ∀ e ∈ evs, e.Within
  copied : copied evs = sec.length
  packets : (packets evs).length ≤ sec.length + free

/-- The same when `sec'` is left to do. -/
structure GoesOn (cb : Option AdaptationField) (sec : List UInt8) (free : Nat) (y : Sec2tsImpl)
    (sec' : List UInt8) (evs : List Event) : Prop where
  idle : Idle y
  callback : y.onAdaptationField = cb
  within : ∀ e ∈ evs, e.Within
  copied : Sec2ts.copied evs + sec'.length = sec.length
  packets : (Sec2ts.packets evs).length + sec'.length ≤ sec.length + free
  less : sec'.length < sec.length + free

def TurnSafe (cb : Option AdaptationField) (sec : List UInt8) (free : Nat) : Turn → Prop
  | .done y evs => Ended cb sec free y evs
  | .again y sec' _ evs => GoesOn cb sec free y sec' evs

theorem TurnSafe.mono {cb : Option AdaptationField} {sec : List UInt8} {t : Turn} (h : TurnSafe cb sec 0 t) (n : Nat) :
    TurnSafe cb sec n t := by
  cases t with
  | done y evs => exact ⟨h.bounded, h.callback, h.within, h.copied, h.packets.trans (Nat.le_add_right _ _)⟩
  | again y sec' w evs =>
    exact ⟨h.idle, h.callback, h.within, h.copied, h.packets.trans (Nat.le_add_right _ _),
      h.less.trans_le (Nat.le_add_right _ _)⟩

theorem copied_append (as bs : List Event) : copied (as ++ bs) = copied as + copied bs := by
  rw [copied, List.map_append, List.sum_append]
  rfl

theorem TurnSafe.behind {cb : Option AdaptationField} {sec : List UInt8} {t : Turn} {e : Event}
    (h : TurnSafe cb sec 0 t) (hwithin : e.Within) (hcopied : copied [e] = 0) (hpackets : packets [e] = []) :
    TurnSafe cb sec 1 (t.behind e) := by
  have hcons (evs : List Event) : copied (e :: evs) = copied evs ∧ packets (e :: evs) = packets evs := by
    rw [← List.singleton_append, copied_append, packets_append, hcopied, hpackets, Nat.zero_add]
    exact ⟨rfl, rfl⟩
  cases t with
  | done y evs =>
    refine ⟨h.bounded, h.callback, List.forall_mem_cons.mpr ⟨hwithin, h.within⟩, ?_, ?_⟩
    · exact (hcons evs).1.trans h.copied
    · rw [(hcons evs).2]
      exact h.packets.trans (Nat.le_succ _)
  | again y sec' w evs =>
    refine ⟨h.idle, h.callback, List.forall_mem_cons.mpr ⟨hwithin, h.within⟩, ?_, ?_, h.less.trans (Nat.lt_succ_self _)⟩
    · rw [(hcons evs).1]
      exact h.copied
    · rw [(hcons evs).2]
      exact h.packets.trans (Nat.le_succ _)

theorem large_cons (n : Nat) (l : List Nat) : large (n :: l) = large [n] + large l := by
  simp only [large, ← List.length_append, ← List.filter_append]
  rfl

theorem large_of_le {n : Nat} (h : n ≤ 182) : large [n] = 0 := by
  rw [large, List.filter_singleton, decide_eq_false (Nat.not_lt.mpr h)]
  rfl

theorem large_one (n : Nat) : large [n] ≤ 1 := List.length_filter_le _ [n]

theorem GoesOn.ended {cb : Option AdaptationField} {sec sec' : List UInt8} {free free' : Nat} {y z : Sec2tsImpl}
    {evs evs' : List Event} (h : GoesOn cb sec free y sec' evs) (h' : Ended y.onAdaptationField sec' free' z evs') :
    Ended cb sec (free + free') z (evs ++ evs') where
  bounded := h'.bounded
  callback := h'.callback.trans h.callback
  within e he := (List.mem_append.mp he).elim (h.within e) (h'.within e)
  copied := by
    have := h.copied
    have := h'.copied
    rw [copied_append]
    omega
  packets := by
    have := h.packets
    have := h'.packets
    rw [packets_append, List.length_append]
    omega

theorem wrap8_of_lt {n : Nat} (h : n < 256) : wrap8 n = n := Nat.mod_eq_of_lt h

section Turns
variable {x : Sec2tsImpl} {sec : List UInt8}

theorem put_safe (hlo : 4 ≤ x.payloadStart) (hle : x.payloadStart ≤ x.payloadEnd) (hroom : x.payloadEnd ≤ 187)
    (hpusi : x.pusi = true → x.payloadStart < x.payloadEnd) (u : Bool) (e : Nat) :
    x.put wrap8 u e sec = x.put id u e sec ∧ TurnSafe x.onAdaptationField sec 0 (x.put wrap8 u e sec) := by
  have hrem := rem_eq (e := x.payloadEnd) (by omega)
  unfold Sec2tsImpl.put
  dsimp only
  rw [hrem]
  by_cases hfit : 188 - x.payloadEnd > sec.length
  · rw [if_pos hfit, if_pos hfit, wrap8_of_lt (by omega)]
    refine ⟨rfl, ⟨⟨.inr ⟨hlo, ?_, ?_⟩, fun hp => ⟨?_, ?_⟩⟩, rfl, ?_, ?_, Nat.zero_le _⟩⟩
    · exact hle.trans (Nat.le_add_right _ _)
    · show x.payloadEnd + sec.length ≤ 187
      omega
    · show x.payloadStart ≠ 0
      omega
    · exact (hpusi hp).trans_le (Nat.le_add_right _ _)
    · intro ev hev
      obtain rfl := List.mem_singleton.mp hev
      show x.payloadEnd + sec.length ≤ 188
      omega
    · simp [copied]
  · rw [if_neg hfit, if_neg hfit]
    have hwithin : ∀ ev ∈ [Event.memcpy x.payloadEnd (188 - x.payloadEnd),
        ({ x with tsPacket := x.tsPacket.write x.payloadEnd (sec.take (188 - x.payloadEnd)), payloadEnd := e }.fixHeader u
          { x with tsPacket := x.tsPacket.write x.payloadEnd (sec.take (188 - x.payloadEnd)), payloadEnd := e }.payloadAfc).produced],
        ev.Within := by
      intro ev hev
      obtain rfl | rfl := List.mem_pair.mp hev
      · show x.payloadEnd + (188 - x.payloadEnd) ≤ 188
        omega
      · trivial
    by_cases hall : sec.length - (188 - x.payloadEnd) = 0
    · rw [if_pos hall]
      refine ⟨rfl, ⟨Idle.bounded ⟨rfl, rfl⟩, rfl, hwithin, ?_, ?_⟩⟩
      · show 188 - x.payloadEnd + (0 + 0) = sec.length
        omega
      · show 1 ≤ sec.length
        omega
    · rw [if_neg hall]
      refine ⟨rfl, ⟨⟨rfl, rfl⟩, rfl, hwithin, ?_, ?_, ?_⟩⟩
      · show 188 - x.payloadEnd + (0 + 0) + (sec.drop (188 - x.payloadEnd)).length = sec.length
        rw [List.length_drop]
        omega
      · show 1 + (sec.drop (188 - x.payloadEnd)).length ≤ sec.length + 0
        rw [List.length_drop]
        omega
      · rw [List.length_drop]
        omega

theorem join_safe (hlo : 4 ≤ x.payloadStart) (hle : x.payloadStart ≤ x.payloadEnd) (hroom : x.payloadEnd ≤ 187)
    (hpusi : x.pusi = true → x.payloadStart < x.payloadEnd) :
    x.join wrap8 sec = x.join id sec ∧ TurnSafe x.onAdaptationField sec 0 (x.join wrap8 sec) := by
  have hfull : wrap8 (x.payloadEnd + rem x.payloadEnd) = x.payloadEnd + rem x.payloadEnd :=
    wrap8_of_lt (by rw [rem_eq (by omega)]; omega)
  unfold Sec2tsImpl.join
  rw [hfull]
  exact put_safe hlo hle hroom hpusi true _

theorem adaptation_le (hs : Short x) : x.adaptation.2 ≤ 184 := by
  unfold Sec2tsImpl.adaptation
  split
  · exact Nat.zero_le _
  · next cb hcb => exact hs cb hcb _ _

theorem adaptation_pusi : x.adaptation.1.pusi = x.pusi := by
  unfold Sec2tsImpl.adaptation
  split
  · rfl
  · rfl

theorem adaptation_callback : x.adaptation.1.onAdaptationField = x.onAdaptationField := by
  unfold Sec2tsImpl.adaptation
  split
  · rfl
  · rfl

theorem turn_safe (hx : Idle x) (hs : Short x) (w : Bool) :
    x.turn wrap8 sec w = x.turn id sec w ∧
      TurnSafe x.onAdaptationField sec (large [x.adaptation.2]) (x.turn wrap8 sec w) := by
  have hle := adaptation_le hs
  have hbegin : x.begin wrap8 = x.begin id := by
    unfold Sec2tsImpl.begin
    rw [wrap8_of_lt (by omega)]
    rfl
  have hend : (x.begin id).payloadEnd = 4 + x.adaptation.2 := rfl
  unfold Sec2tsImpl.turn
  rw [hbegin]
  dsimp only
  rw [hend, rem_eq (by omega)]
  by_cases hfull : 188 - (4 + x.adaptation.2) ≤ 1
  · rw [if_pos hfull, if_pos hfull]
    have hlarge : large [x.adaptation.2] = 1 := by
      simp only [large, List.filter_singleton]
      rw [decide_eq_true (by omega)]
      rfl
    rw [hlarge]
    refine ⟨rfl, ⟨⟨rfl, rfl⟩, adaptation_callback, ?_, ?_, ?_, Nat.lt_succ_self _⟩⟩
    · intro ev hev
      obtain rfl := List.mem_singleton.mp hev
      trivial
    · exact Nat.zero_add _
    · show 1 + sec.length ≤ sec.length + 1
      omega
  · rw [if_neg hfull, if_neg hfull]
    have hpointer : (x.begin id).pointer wrap8 = (x.begin id).pointer id := by
      unfold Sec2tsImpl.pointer
      rw [hend, wrap8_of_lt (by omega)]
      rfl
    have hcb : (x.begin id).onAdaptationField = x.onAdaptationField := adaptation_callback
    cases w with
    | true =>
      rw [if_pos rfl]
      obtain ⟨heq, hsafe⟩ := put_safe (x := x.begin id) (Nat.le_add_right 4 _) le_rfl
        (show 4 + x.adaptation.2 ≤ 187 by omega)
        (fun hp => absurd (adaptation_pusi.symm.trans hp) (by rw [hx.pusi]; decide))
        (x.begin id).pusi (4 + x.adaptation.2)
      rw [hcb] at hsafe
      exact ⟨heq, hsafe.mono _⟩
    | false =>
      rw [if_neg (by decide), if_neg (by decide), hpointer]
      obtain ⟨heq, hsafe⟩ := put_safe (x := (x.begin id).pointer id) (Nat.le_add_right 4 _)
        (Nat.le_succ _) (show 4 + x.adaptation.2 + 1 ≤ 187 by omega) (fun _ => Nat.lt_succ_self _)
        ((x.begin id).pointer id).pusi ((x.begin id).pointer id).payloadEnd
      rw [show ((x.begin id).pointer id).onAdaptationField = x.onAdaptationField from hcb] at hsafe
      exact ⟨heq, hsafe.mono _⟩

theorem enter_safe (hx : Bounded x) :
    x.enter wrap8 sec = x.enter id sec ∧ TurnSafe x.onAdaptationField sec 1 (x.enter wrap8 sec) := by
  unfold Sec2tsImpl.enter
  by_cases hpending : x.payloadStart ≠ 0
  · obtain ⟨hlo, hle, hroom⟩ := hx.counters.resolve_left hpending
    rw [if_pos hpending, if_pos hpending]
    by_cases hpusi : x.pusi = true
    · rw [if_pos hpusi, if_pos hpusi]
      obtain ⟨heq, hsafe⟩ := join_safe hlo hle hroom (fun hp => (hx.pusi hp).2)
      exact ⟨heq, hsafe.mono 1⟩
    · rw [if_neg hpusi, if_neg hpusi]
      by_cases hlast : x.payloadEnd ≥ tsPacketLen - 1
      · rw [if_pos hlast, if_pos hlast]
        refine ⟨rfl, ⟨⟨rfl, rfl⟩, rfl, ?_, Nat.zero_add _, ?_, Nat.lt_succ_self _⟩⟩
        · intro ev hev
          obtain rfl := List.mem_singleton.mp hev
          trivial
        · exact (Nat.add_comm _ _).le
      · rw [if_neg hlast, if_neg hlast]
        have hroom' : x.payloadEnd + 1 ≤ 187 := by
          unfold tsPacketLen at hlast
          omega
        have hinsert : x.insertPointer wrap8 = x.insertPointer id := by
          unfold Sec2tsImpl.insertPointer
          rw [wrap8_of_lt (by omega)]
          rfl
        obtain ⟨heq, hsafe⟩ := join_safe (x := x.insertPointer id) hlo (hle.trans (Nat.le_succ _)) hroom'
          (fun _ => Nat.lt_succ_of_le hle)
        rw [hinsert, heq]
        refine ⟨rfl, (heq ▸ hsafe).behind ?_ rfl rfl⟩
        show x.payloadStart + 1 + (x.payloadEnd - x.payloadStart) ≤ 188 ∧
          x.payloadStart + (x.payloadEnd - x.payloadStart) ≤ 188
        omega
  · rw [if_neg hpending, if_neg hpending]
    have hstart : x.payloadStart = 0 := not_not.mp hpending
    refine ⟨rfl, ⟨⟨hstart, ?_⟩, rfl, by simp, Nat.zero_add _, ?_, Nat.lt_succ_self _⟩⟩
    · exact Bool.eq_false_iff.mpr fun hp => (hx.pusi hp).1 hstart
    · exact (Nat.zero_add _).trans_le (Nat.le_succ _)

end Turns

section Loop
variable {x : Sec2tsImpl} {sec : List UInt8} {w : Bool}

theorem Short.of_callback {y : Sec2tsImpl} (hs : Short x) (h : y.onAdaptationField = x.onAdaptationField) : Short y :=
  fun cb hcb => hs cb (h.symm.trans hcb)

theorem loop_safe (hx : Idle x) (hs : Short x) (fuel : Nat) :
    x.loop wrap8 sec w fuel = x.loop id sec w fuel ∧ ∀ y evs, x.loop wrap8 sec w fuel = some (y, evs) →
      Ended x.onAdaptationField sec (large (x.returned sec w fuel)) y evs := by
  induction fuel generalizing x sec w with
  | zero => exact ⟨rfl, fun y evs h => absurd h (by simp [Sec2tsImpl.loop])⟩
  | succ fuel ih =>
    obtain ⟨heq, hsafe⟩ := turn_safe hx hs w
    rw [Sec2tsImpl.loop_succ, Sec2tsImpl.loop_succ, ← heq, Sec2tsImpl.returned, large_cons]
    cases hturn : x.turn wrap8 sec w with
    | done y evs =>
      rw [hturn] at hsafe
      refine ⟨rfl, fun z evs' h => ?_⟩
      obtain ⟨rfl, rfl⟩ : y = z ∧ evs = evs' := by simpa [Sec2tsImpl.after] using h
      exact hsafe
    | again y sec' w' evs =>
      rw [hturn] at hsafe
      obtain ⟨hloop, hrest⟩ := ih (w := w') hsafe.idle (hs.of_callback hsafe.callback)
      refine ⟨by rw [Sec2tsImpl.after, Sec2tsImpl.after, hloop], fun z evs' h => ?_⟩
      obtain ⟨⟨z', evs''⟩, hz, hz'⟩ := Option.map_eq_some_iff.mp h
      obtain ⟨rfl, rfl⟩ := Prod.mk.inj hz'
      exact hsafe.ended (hrest z' evs'' hz)

theorem loop_ends (hx : Idle x) (hs : Short x) {bound : Nat} (hfin : ∀ fuel, large (x.returned sec w fuel) ≤ bound)
    {fuel : Nat} (hfuel : sec.length + bound < fuel) : (x.loop wrap8 sec w fuel).isSome := by
  induction fuel generalizing x sec w bound with
  | zero => exact absurd hfuel (Nat.not_lt_zero _)
  | succ fuel ih =>
    obtain ⟨-, hsafe⟩ := turn_safe hx hs w
    rw [Sec2tsImpl.loop_succ]
    cases hturn : x.turn wrap8 sec w with
    | done y evs => rfl
    | again y sec' w' evs =>
      rw [hturn] at hsafe
      have hreturned (n : Nat) : large [x.adaptation.2] + large (y.returned sec' w' n) ≤ bound := by
        have := hfin (n+1)
        rwa [Sec2tsImpl.returned, large_cons, hturn] at this
      have hless := hsafe.less
      have hone := hreturned 0
      rw [Sec2tsImpl.after, Option.isSome_map]
      refine ih hsafe.idle (hs.of_callback hsafe.callback)
        (fun n => Nat.le_sub_of_add_le' (hreturned n)) ?_
      omega

end Loop

theorem flush_safe {x : Sec2tsImpl} (hx : Bounded x) : Bounded x.flush.1 ∧ (∀ e ∈ x.flush.2, e.Within) ∧
    copied x.flush.2 = 0 ∧ (packets x.flush.2).length ≤ 1 := by
  unfold Sec2tsImpl.flush
  by_cases hpending : x.payloadStart ≠ 0
  · obtain ⟨hlo, hle, hroom⟩ := hx.counters.resolve_left hpending
    rw [if_pos hpending]
    refine ⟨Idle.bounded ⟨rfl, rfl⟩, fun ev hev => ?_, rfl, le_rfl⟩
    obtain rfl | rfl := List.mem_pair.mp hev
    · show x.payloadEnd + (188 - x.payloadEnd) ≤ 188
      omega
    · trivial
  · rw [if_neg hpending]
    exact ⟨hx, by simp, rfl, Nat.zero_le _⟩

theorem flush_callback (x : Sec2tsImpl) : x.flush.1.onAdaptationField = x.onAdaptationField := by
  unfold Sec2tsImpl.flush
  split
  · rfl
  · rfl

theorem call_safe {x y : Sec2tsImpl} {fuel : Nat} {c : Call} {evs : List Event} (hx : Bounded x) (hs : Short x)
    (h : x.call fuel c = some (y, evs)) : CallSafe x fuel c y evs ∧ y.onAdaptationField = x.onAdaptationField := by
  cases c with
  | sectionX sec =>
    obtain ⟨henter, hsafe⟩ := enter_safe hx
    rw [Sec2tsImpl.call, Sec2tsImpl.sectionX_eq] at h
    suffices hends : x.callWith id fuel (.sectionX sec) = some (y, evs) ∧
        Ended x.onAdaptationField sec (1 + large (x.returnedBy fuel (.sectionX sec))) y evs by
      obtain ⟨hexact, hend⟩ := hends
      exact ⟨⟨hend.bounded, hexact, hend.within, hend.copied.le, hend.packets.trans_eq (Nat.add_assoc _ _ _).symm⟩,
        hend.callback⟩
    rw [Sec2tsImpl.callWith, Sec2tsImpl.returnedBy, ← henter]
    cases hturn : x.enter wrap8 sec with
    | done z evs' =>
      rw [hturn] at h hsafe
      obtain ⟨rfl, rfl⟩ : z = y ∧ evs' = evs := by simpa [Sec2tsImpl.after] using h
      exact ⟨rfl, hsafe⟩
    | again z sec' w evs' =>
      rw [hturn] at h hsafe
      obtain ⟨hloop, hrest⟩ := loop_safe (w := w) hsafe.idle (hs.of_callback hsafe.callback) fuel
      refine ⟨by rw [← h, Sec2tsImpl.after, Sec2tsImpl.after, hloop], ?_⟩
      obtain ⟨⟨z', evs''⟩, hz, hz'⟩ := Option.map_eq_some_iff.mp h
      obtain ⟨rfl, rfl⟩ := Prod.mk.inj hz'
      exact hsafe.ended (hrest z' evs'' hz)
  | flush =>
    obtain ⟨rfl, rfl⟩ := Prod.mk.inj (Option.some.inj h)
    obtain ⟨hbounded, hwithin, hcopied, hpackets⟩ := flush_safe hx
    exact ⟨⟨hbounded, rfl, hwithin, hcopied.le, hpackets⟩, flush_callback x⟩
  | setPID pid =>
    obtain ⟨rfl, rfl⟩ := Prod.mk.inj (Option.some.inj h)
    exact ⟨⟨⟨hx.counters, hx.pusi⟩, rfl, by simp, le_rfl, Nat.zero_le _⟩, rfl⟩

theorem call_ends {x : Sec2tsImpl} {c : Call} (hx : Bounded x) (hs : Short x)
    (hfin : ∃ bound, ∀ fuel, large (x.returnedBy fuel c) ≤ bound) : ∃ fuel y evs, x.call fuel c = some (y, evs) := by
  cases c with
  | sectionX sec =>
    obtain ⟨bound, hfin⟩ := hfin
    obtain ⟨-, hsafe⟩ := enter_safe hx
    cases hturn : x.enter wrap8 sec with
    | done y evs => exact ⟨0, y, evs, by rw [Sec2tsImpl.call, Sec2tsImpl.sectionX_eq, hturn]; rfl⟩
    | again y sec' w evs =>
      rw [hturn] at hsafe
      have hreturned (fuel : Nat) : large (y.returned sec' w fuel) ≤ bound := by
        have := hfin fuel
        rwa [Sec2tsImpl.returnedBy, hturn] at this
      have hsome := loop_ends hsafe.idle (hs.of_callback hsafe.callback) hreturned (Nat.lt_succ_self _)
      obtain ⟨⟨z, evs'⟩, hloop⟩ := Option.isSome_iff_exists.mp hsome
      exact ⟨_, z, evs ++ evs', by rw [Sec2tsImpl.call, Sec2tsImpl.sectionX_eq, hturn, Sec2tsImpl.after, hloop]; rfl⟩
  | flush => exact ⟨0, _, _, rfl⟩
  | setPID pid => exact ⟨0, _, _, rfl⟩

theorem run_safe {x : Sec2tsImpl} {cs : List Call} (hx : Bounded x) (hs : Short x) (hfin : FinitelyOften x cs) :
    Safely x cs := by
  induction cs generalizing x with
  | nil => trivial
  | cons c cs ih =>
    obtain ⟨hbound, hfin⟩ := hfin
    obtain ⟨fuel, y, evs, hcall⟩ := call_ends hx hs hbound
    obtain ⟨hsafe, hcallback⟩ := call_safe hx hs hcall
    exact ⟨fuel, y, evs, hcall, hsafe, ih hsafe.bounded (hs.of_callback hcallback) (hfin fuel y evs hcall)⟩

theorem turn_calls {x y : Sec2tsImpl} {sec sec' : List UInt8} {w w' : Bool} {evs : List Event}
    (h : x.turn wrap8 sec w = .again y sec' w' evs) : y.adaptationCalls = x.adaptation.1.adaptationCalls := by
  have hput {x : Sec2tsImpl} {u : Bool} {e : Nat} (h : x.put wrap8 u e sec = .again y sec' w' evs) :
      y.adaptationCalls = x.adaptationCalls := by
    unfold Sec2tsImpl.put at h
    dsimp only at h
    split at h
    · cases h
    · split at h
      · cases h
      · cases h
        rfl
  unfold Sec2tsImpl.turn at h
  dsimp only at h
  split at h
  · cases h
    rfl
  · rw [hput h]
    split
    · rfl
    · rfl

theorem returned_eventually {x : Sec2tsImpl} {sec : List UInt8} {w : Bool} {n : Nat} (hx : Idle x) (hs : Short x)
    (h : ∀ cb, x.onAdaptationField = some cb → ∀ k, n ≤ k → ∀ area, (cb k area).1 ≤ 182) (fuel : Nat) :
    large (x.returned sec w fuel) ≤ n - x.adaptationCalls := by
  induction fuel generalizing x sec w with
  | zero => exact Nat.zero_le _
  | succ fuel ih =>
    obtain ⟨-, hsafe⟩ := turn_safe hx hs w
    have hone : large [x.adaptation.2] + (n - x.adaptation.1.adaptationCalls) ≤ n - x.adaptationCalls := by
      unfold Sec2tsImpl.adaptation
      split
      · exact (Nat.zero_add _).le
      · next cb hcb =>
        show large [(cb x.adaptationCalls fun i => x.tsPacket (4 + i)).1] + (n - (x.adaptationCalls + 1)) ≤ _
        by_cases hlate : n ≤ x.adaptationCalls
        · rw [large_of_le (h cb hcb _ hlate _), Nat.zero_add]
          exact Nat.sub_le_sub_left (Nat.le_succ _) n
        · have := large_one (cb x.adaptationCalls fun i => x.tsPacket (4 + i)).1
          omega
    rw [Sec2tsImpl.returned, large_cons]
    refine le_trans (Nat.add_le_add_left ?_ _) hone
    cases hturn : x.turn wrap8 sec w with
    | done y evs => exact Nat.zero_le _
    | again y sec' w' evs =>
      rw [hturn] at hsafe
      rw [← turn_calls hturn]
      exact ih hsafe.idle (hs.of_callback hsafe.callback) (hsafe.callback ▸ h)

theorem finitelyOften_of_eventually {x : Sec2tsImpl} {cs : List Call} {n : Nat} (hx : Bounded x) (hs : Short x)
    (h : ∀ cb, x.onAdaptationField = some cb → ∀ k, n ≤ k → ∀ area, (cb k area).1 ≤ 182) : FinitelyOften x cs := by
  induction cs generalizing x with
  | nil => trivial
  | cons c cs ih =>
    refine ⟨⟨n, fun fuel => ?_⟩, fun fuel y evs hcall => ?_⟩
    · cases c with
      | sectionX sec =>
        obtain ⟨-, hsafe⟩ := enter_safe hx
        rw [Sec2tsImpl.returnedBy]
        cases hturn : x.enter wrap8 sec with
        | done y evs => exact Nat.zero_le _
        | again y sec' w evs =>
          rw [hturn] at hsafe
          exact (returned_eventually hsafe.idle (hs.of_callback hsafe.callback) (hsafe.callback ▸ h) fuel).trans
            (Nat.sub_le _ _)
      | flush => exact Nat.zero_le _
      | setPID pid => exact Nat.zero_le _
    · obtain ⟨hsafe, hcallback⟩ := call_safe hx hs hcall
      exact ih hsafe.bounded (hs.of_callback hcallback) (hcallback ▸ h)

/-- A packetizer whose callback returns at most the size it is given, and fills a packet only
finitely often, keeps its counters in order, stays within packet and section, and ends each
call behind at most one packet for each byte, one more, and those that the callback fills. -/
theorem calls_stay_in_bounds (cb : Option AdaptationField) (hshort : Short (create cb)) (cs : List Call)
    (hfin : FinitelyOften (create cb) cs) : Safely (create cb) cs :=
  run_safe (Idle.bounded ⟨rfl, rfl⟩) hshort hfin

theorem calls_stay_in_bounds_two_full : Safely (create (some fun k area => (if k < 2 then 184 else 0, area)))
    [.sectionX [1, 2, 3], .sectionX [], .setPID 5, .flush] := by
  have hshort : Short (create (some fun k area => (if k < 2 then 184 else 0, area))) := by
    intro cb hcb k area
    obtain rfl := Option.some.inj hcb
    show (if k < 2 then 184 else 0) ≤ 184
    split
    · exact le_rfl
    · exact Nat.zero_le _
  refine calls_stay_in_bounds _ hshort _ (finitelyOften_of_eventually (n := 2) (Idle.bounded ⟨rfl, rfl⟩) hshort ?_)
  intro cb hcb k hk area
  obtain rfl := Option.some.inj hcb
  show (if k < 2 then 184 else 0) ≤ 182
  rw [if_neg (Nat.not_lt.mpr hk)]
  exact Nat.zero_le _

end Mopa.Sec2ts
