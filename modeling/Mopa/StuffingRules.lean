import Mopa.Sec2tsPackets

/-! Packets that the adaptation callback fills. They go out with the header of a packet with
payload, so that a run keeps to the rules for such packets just if it has none. -/
namespace Mopa.Sec2ts
open Mopa.SectionStream

/-- A callback leaves room for a pointer field and a byte, or fills the packet; the first byte
of a field tells the length of the rest. -/
def Filling (cb : AdaptationField) : Prop :=
  ∀ k area, ((cb k area).1 ≤ 182 ∨ (cb k area).1 = 184) ∧
    (0 < (cb k area).1 → ∀ i, i.val = 0 → ((cb k area).2 i).toNat + 1 = (cb k area).1)

def unitStart (p : List UInt8) : UInt8 := (p.getD 1 0 >>> 6) &&& 1
def adaptationControl (p : List UInt8) : UInt8 := (p.getD 3 0 >>> 4) &&& 3
def counter (p : List UInt8) : UInt8 := p.getD 3 0 &&& 0xf

/-- The rules of the transport stream for packets with and without payload. -/
structure FollowsRules (ps : List (List UInt8)) : Prop where
  stuffing : ∀ p ∈ ps, adaptationControl p = afcAdaptation → unitStart p = 0 ∧ (p.getD 4 0).toNat + 1 = 184
  repeated : ∀ pre q p post, ps = pre ++ q :: p :: post → adaptationControl p = afcAdaptation → counter p = counter q
  advanced : ∀ pre q p post, ps = pre ++ q :: p :: post →
    adaptationControl p = afcPayload ∨ adaptationControl p = afcAdaptationAndPayload → counter p = (counter q + 1) &&& 0xf

/-- Packets with payload, numbered from one counter up to the next. -/
def Counted : UInt8 → List (List UInt8) → UInt8 → Prop
  | cc, [], cc' => cc' = cc
  | cc, p :: ps, cc' => (adaptationControl p = afcPayload ∨ adaptationControl p = afcAdaptationAndPayload) ∧
      counter p = cc ∧ Counted ((cc + 1) &&& 0xf) ps cc'

theorem Counted.append {cc cc' cc'' : UInt8} {ps ps' : List (List UInt8)} (h : Counted cc ps cc')
    (h' : Counted cc' ps' cc'') : Counted cc (ps ++ ps') cc'' := by
  induction ps generalizing cc with
  | nil =>
    obtain rfl : cc' = cc := h
    exact h'
  | cons p ps ih => exact ⟨h.1, h.2.1, ih h.2.2⟩

theorem Counted.payload {cc cc' : UInt8} {ps : List (List UInt8)} (h : Counted cc ps cc') :
    ∀ p ∈ ps, adaptationControl p ≠ afcAdaptation := by
  induction ps generalizing cc with
  | nil => simp
  | cons p ps ih =>
    refine List.forall_mem_cons.mpr ⟨?_, ih h.2.2⟩
    rcases h.1 with hp | hp
    · rw [hp]
      decide
    · rw [hp]
      decide

theorem Counted.counter {cc cc' : UInt8} {pre post : List (List UInt8)} {q p : List UInt8}
    (h : Counted cc (pre ++ q :: p :: post) cc') : counter p = (counter q + 1) &&& 0xf := by
  induction pre generalizing cc with
  | nil =>
    obtain ⟨-, hq, -, hp, -⟩ := h
    rw [hp, hq]
  | cons _ _ ih => exact ih h.2.2

theorem Counted.followsRules {cc cc' : UInt8} {ps : List (List UInt8)} (h : Counted cc ps cc') : FollowsRules ps where
  stuffing := fun p hp hcontrol => absurd hcontrol (h.payload p hp)
  repeated := fun pre q p post heq hcontrol => absurd hcontrol (h.payload p (by simp [heq]))
  advanced := fun pre q p post heq _ => Counted.counter (heq ▸ h)

structure Sound (x : Sec2tsImpl) : Prop where
  pid : x.pid.toNat < 0x2000
  cc : ∃ i, x.cc = ccOf i
  filling : ∀ cb, x.onAdaptationField = some cb → Filling cb

theorem Sound.short {x : Sec2tsImpl} (h : Sound x) : Short x := fun cb hcb k area => by
  rcases (h.filling cb hcb k area).1 with hle | heq
  · omega
  · omega

/-- From the counter `cc` on the callback returns `fresh`. If it fills no packet, all that go out
have payload and are numbered; if it does, a filled one has the start indicator set. -/
structure Numbers (cc : UInt8) (fresh : List Nat) (y : Sec2tsImpl) (evs : List Event) : Prop where
  sound : Sound y
  counted : 184 ∉ fresh → Counted cc (packets evs) y.cc
  started : 184 ∈ fresh → ∃ p ∈ packets evs, adaptationControl p = afcAdaptation ∧ unitStart p = 1

theorem Numbers.trans {cc : UInt8} {y z : Sec2tsImpl} {fresh fresh' : List Nat} {evs evs' : List Event}
    (h : Numbers cc fresh y evs) (h' : Numbers y.cc fresh' z evs') : Numbers cc (fresh ++ fresh') z (evs ++ evs') where
  sound := h'.sound
  counted hno := by
    rw [List.mem_append, not_or] at hno
    rw [packets_append]
    exact (h.counted hno.1).append (h'.counted hno.2)
  started hmem := by
    rw [packets_append]
    rcases List.mem_append.mp hmem with hmem | hmem
    · obtain ⟨p, hp, hstuffing⟩ := h.started hmem
      exact ⟨p, List.mem_append_left _ hp, hstuffing⟩
    · obtain ⟨p, hp, hstuffing⟩ := h'.started hmem
      exact ⟨p, List.mem_append_right _ hp, hstuffing⟩

def TurnNumbers (cc : UInt8) (fresh : List Nat) : Turn → Prop
  | .done y evs => Numbers cc fresh y evs
  | .again y _ _ evs => Numbers cc fresh y evs

theorem Sound.next {x : Sec2tsImpl} (h : Sound x) : Sound x.next where
  pid := h.pid
  cc := by
    obtain ⟨i, hi⟩ := h.cc
    refine ⟨i+1, ?_⟩
    show (x.cc + 1) &&& 0xf = ccOf (i+1)
    rw [hi]
    exact (ccOf_step i (i+1)).mpr rfl
  filling := h.filling

theorem Sound.store {x : Sec2tsImpl} (h : Sound x) (m : Memory UInt8) (s e : Nat) (u : Bool) :
    Sound { x with tsPacket := m, payloadStart := s, payloadEnd := e, pusi := u } := ⟨h.pid, h.cc, h.filling⟩

theorem stuffing_control (i : Nat) : (((afcAdaptation <<< 4) ||| ccOf i) >>> 4) &&& 3 = afcAdaptation := by
  have hi : i % 16 < 16 := Nat.mod_lt _ (by decide)
  unfold ccOf
  generalize i % 16 = n at hi
  revert n
  decide

theorem fixHeader_fields (x : Sec2tsImpl) (u : Bool) (afc : UInt8) :
    unitStart ((x.fixHeader u afc).tsPacket.read 0 tsPacketLen) =
      ((((if u then 1 else 0 : UInt8) <<< 6) ||| (x.pid >>> 8).toUInt8) >>> 6) &&& 1 ∧
    adaptationControl ((x.fixHeader u afc).tsPacket.read 0 tsPacketLen) = (((afc <<< 4) ||| x.cc) >>> 4) &&& 3 ∧
    counter ((x.fixHeader u afc).tsPacket.read 0 tsPacketLen) = ((afc <<< 4) ||| x.cc) &&& 0xf := ⟨rfl, rfl, rfl⟩

theorem Sound.sends {x : Sec2tsImpl} (h : Sound x) (u : Bool) {evs : List Event}
    (hevs : packets evs = [(x.fixHeader u x.payloadAfc).tsPacket.read 0 tsPacketLen]) :
    Numbers x.cc [] (x.fixHeader u x.payloadAfc).next evs where
  sound := Sound.next (x := x.fixHeader u x.payloadAfc) ⟨h.pid, h.cc, h.filling⟩
  counted _ := by
    obtain ⟨i, hi⟩ := h.cc
    have hafc : x.payloadAfc = afcPayload ∨ x.payloadAfc = afcAdaptationAndPayload := by
      unfold Sec2tsImpl.payloadAfc
      split
      · exact .inr rfl
      · exact .inl rfl
    obtain ⟨hcounter, hcontrol⟩ := header_control i _ hafc
    rw [hevs]
    obtain ⟨-, hcontrol', hcounter'⟩ := fixHeader_fields x u x.payloadAfc
    rw [hi] at hcontrol' hcounter'
    exact ⟨by rwa [hcontrol', hcontrol], by rw [hcounter', hcounter, hi], rfl⟩
  started hmem := nomatch hmem

theorem Sound.stays {y : Sec2tsImpl} {evs : List Event} (h : Sound y) (hevs : packets evs = []) : Numbers y.cc [] y evs where
  sound := h
  counted _ := by
    rw [hevs]
    rfl
  started hmem := nomatch hmem

section Turns
variable {x : Sec2tsImpl} {sec : List UInt8}

theorem TurnNumbers.behind {cc : UInt8} {fresh : List Nat} {t : Turn} {e : Event} (h : TurnNumbers cc fresh t)
    (he : packets [e] = []) : TurnNumbers cc fresh (t.behind e) := by
  have hcons (evs : List Event) : packets (e :: evs) = packets evs := by
    rw [← List.singleton_append, packets_append, he]
    rfl
  cases t with
  | done y evs => exact ⟨h.sound, (hcons evs).symm ▸ h.counted, (hcons evs).symm ▸ h.started⟩
  | again y sec w evs => exact ⟨h.sound, (hcons evs).symm ▸ h.counted, (hcons evs).symm ▸ h.started⟩

theorem put_numbers (h : Sound x) (u : Bool) (e : Nat) : TurnNumbers x.cc [] (x.put wrap8 u e sec) := by
  unfold Sec2tsImpl.put
  dsimp only
  split
  · exact Sound.stays (h.store (x.tsPacket.write x.payloadEnd sec) x.payloadStart (wrap8 (x.payloadEnd + sec.length)) x.pusi) rfl
  · have hstored := h.store (x.tsPacket.write x.payloadEnd (sec.take (rem x.payloadEnd))) x.payloadStart e x.pusi
    split
    · exact hstored.sends u rfl
    · exact hstored.sends u rfl

theorem Sound.fills (h : Sound x) : Numbers x.cc [184] { x.fixHeader true afcAdaptation with payloadStart := 0, pusi := false }
    [(x.fixHeader true afcAdaptation).produced] where
  sound := ⟨h.pid, h.cc, h.filling⟩
  counted hno := absurd (List.mem_singleton_self 184) hno
  started _ := by
    obtain ⟨i, hi⟩ := h.cc
    obtain ⟨hstart, hcontrol, -⟩ := fixHeader_fields x true afcAdaptation
    rw [hi] at hcontrol
    exact ⟨_, List.mem_singleton_self _, hcontrol.trans (stuffing_control i), hstart.trans (header_start _ h.pid true)⟩

theorem begin_sound (h : Sound x) : Sound (x.begin wrap8) ∧ (x.begin wrap8).cc = x.cc := by
  have hframe : x.adaptation.1.pid = x.pid ∧ x.adaptation.1.cc = x.cc ∧
      x.adaptation.1.onAdaptationField = x.onAdaptationField := by
    unfold Sec2tsImpl.adaptation
    split
    · exact ⟨rfl, rfl, rfl⟩
    · exact ⟨rfl, rfl, rfl⟩
  obtain ⟨hpid, hcc, hcb⟩ := hframe
  exact ⟨⟨hpid.symm ▸ h.pid, hcc.symm ▸ h.cc, fun cb heq => h.filling cb (hcb.symm.trans heq)⟩, hcc⟩

theorem adaptation_filling (h : Sound x) : x.adaptation.2 ≤ 182 ∨ x.adaptation.2 = 184 := by
  unfold Sec2tsImpl.adaptation
  split
  · exact .inl (Nat.zero_le _)
  · next cb hcb => exact (h.filling cb hcb _ _).1

theorem turn_numbers (h : Sound x) (w : Bool) : TurnNumbers x.cc [x.adaptation.2] (x.turn wrap8 sec w) := by
  obtain ⟨hbegin, hcc⟩ := begin_sound h
  have hlength := adaptation_filling h
  have hend : (x.begin wrap8).payloadEnd = 4 + x.adaptation.2 := wrap8_of_lt (by omega)
  unfold Sec2tsImpl.turn
  dsimp only
  rw [hend, rem_eq (by omega)]
  by_cases hfull : 188 - (4 + x.adaptation.2) ≤ 1
  · rw [if_pos hfull, show x.adaptation.2 = 184 by omega]
    exact hcc ▸ hbegin.fills
  · have hput (u : Bool) (e : Nat) (y : Sec2tsImpl) (hy : Sound y) (hy' : y.cc = x.cc) :
        TurnNumbers x.cc [x.adaptation.2] (y.put wrap8 u e sec) := by
      have hfresh {z : Sec2tsImpl} {evs : List Event} (h : Numbers y.cc [] z evs) : Numbers x.cc [x.adaptation.2] z evs :=
        ⟨h.sound, fun _ => hy' ▸ h.counted (List.not_mem_nil), fun hmem => by
          have := List.mem_singleton.mp hmem
          omega⟩
      have hturn : TurnNumbers y.cc [] (y.put wrap8 u e sec) := put_numbers hy u e
      cases ht : y.put wrap8 u e sec with
      | done z evs => exact hfresh (ht ▸ hturn : TurnNumbers y.cc [] (.done z evs))
      | again z sec' w' evs => exact hfresh (ht ▸ hturn : TurnNumbers y.cc [] (.again z sec' w' evs))
    rw [if_neg hfull]
    cases w with
    | true => exact hput _ _ _ hbegin hcc
    | false => exact hput _ _ _ (hbegin.store _ _ _ _) hcc

theorem enter_numbers (h : Sound x) : TurnNumbers x.cc [] (x.enter wrap8 sec) := by
  unfold Sec2tsImpl.enter
  split
  · split
    · exact put_numbers h _ _
    · split
      · exact (h.store (x.tsPacket.write (tsPacketLen - 1) [0xff]) x.payloadStart x.payloadEnd x.pusi).sends false rfl
      · exact TurnNumbers.behind (put_numbers (h.store _ _ _ _) _ _) rfl
  · exact h.stays rfl

end Turns

theorem loop_numbers {x y : Sec2tsImpl} {sec : List UInt8} {w : Bool} {fuel : Nat} {evs : List Event} (hx : Sound x)
    (h : x.loop wrap8 sec w fuel = some (y, evs)) : Numbers x.cc (x.returned sec w fuel) y evs := by
  induction fuel generalizing x sec w evs with
  | zero => exact absurd h (by simp [Sec2tsImpl.loop])
  | succ fuel ih =>
    have hnumbers : TurnNumbers x.cc [x.adaptation.2] (x.turn wrap8 sec w) := turn_numbers hx w
    rw [Sec2tsImpl.loop_succ] at h
    rw [Sec2tsImpl.returned]
    cases hturn : x.turn wrap8 sec w with
    | done z evs' =>
      rw [hturn] at h hnumbers
      obtain ⟨rfl, rfl⟩ : z = y ∧ evs' = evs := by simpa [Sec2tsImpl.after] using h
      exact hnumbers
    | again z sec' w' evs' =>
      rw [hturn] at h hnumbers
      obtain ⟨⟨z', evs''⟩, hz, hz'⟩ := Option.map_eq_some_iff.mp h
      obtain ⟨rfl, rfl⟩ := Prod.mk.inj hz'
      exact Numbers.trans hnumbers (ih hnumbers.sound hz)

theorem flush_numbers {x : Sec2tsImpl} (hx : Sound x) (hb : Bounded x) : Numbers x.cc [] x.flush.1 x.flush.2 := by
  unfold Sec2tsImpl.flush
  by_cases hpending : x.payloadStart ≠ 0
  · obtain ⟨hlo, hle, -⟩ := hb.counters.resolve_left hpending
    have hstored := hx.store (x.tsPacket.write x.payloadEnd (List.replicate (tsPacketLen - x.payloadEnd) 0xff))
      x.payloadStart x.payloadEnd x.pusi
    have hsends (z : Sec2tsImpl) (hz : z = { x with
          tsPacket := x.tsPacket.write x.payloadEnd
            (List.replicate (tsPacketLen - x.payloadEnd) 0xff) }.fixHeader x.pusi x.payloadAfc) :
          Numbers x.cc [] z.next [.memset x.payloadEnd (tsPacketLen - x.payloadEnd), z.produced] := by
      rw [hz]
      exact hstored.sends x.pusi rfl
    rw [if_pos hpending]
    exact hsends _ (fixHeader_write x x.pusi x.payloadAfc (hlo.trans hle) _)
  · rw [if_neg hpending]
    exact hx.stays rfl

theorem call_numbers {x y : Sec2tsImpl} {fuel : Nat} {c : Call} {evs : List Event} (hx : Sound x) (hb : Bounded x)
    (h : x.call fuel c = some (y, evs)) : Numbers x.cc (x.returnedBy fuel c) y evs := by
  cases c with
  | sectionX sec =>
    have hnumbers : TurnNumbers x.cc [] (x.enter wrap8 sec) := enter_numbers hx
    rw [Sec2tsImpl.call, Sec2tsImpl.sectionX_eq] at h
    rw [Sec2tsImpl.returnedBy]
    cases hturn : x.enter wrap8 sec with
    | done z evs' =>
      rw [hturn] at h hnumbers
      obtain ⟨rfl, rfl⟩ : z = y ∧ evs' = evs := by simpa [Sec2tsImpl.after] using h
      exact hnumbers
    | again z sec' w evs' =>
      rw [hturn] at h hnumbers
      obtain ⟨⟨z', evs''⟩, hz, hz'⟩ := Option.map_eq_some_iff.mp h
      obtain ⟨rfl, rfl⟩ := Prod.mk.inj hz'
      exact Numbers.trans hnumbers (loop_numbers hnumbers.sound hz)
  | flush =>
    obtain ⟨rfl, rfl⟩ := Prod.mk.inj (Option.some.inj h)
    exact flush_numbers hx hb
  | setPID pid =>
    obtain ⟨rfl, rfl⟩ := Prod.mk.inj (Option.some.inj h)
    have hpid : (x.setPID pid).pid.toNat < 0x2000 := (setPID_pid x pid).trans_lt (Nat.mod_lt _ (by decide))
    exact Sound.stays (y := x.setPID pid) ⟨hpid, hx.cc, hx.filling⟩ rfl

theorem run_numbers {x z : Sec2tsImpl} {fuel : Nat} {cs : List Call} {traces : List (List Event)} (hx : Sound x)
    (hb : Bounded x) (h : runCalls fuel x cs = some (z, traces)) : Numbers x.cc (lengths fuel x cs) z traces.flatten := by
  induction cs generalizing x traces with
  | nil =>
    obtain ⟨rfl, rfl⟩ := Prod.mk.inj (Option.some.inj h)
    exact hx.stays rfl
  | cons c cs ih =>
    rw [runCalls] at h
    obtain ⟨⟨y, evs⟩, hcall, h⟩ := Option.bind_eq_some_iff.mp h
    obtain ⟨⟨z', traces'⟩, hrun, h⟩ := Option.bind_eq_some_iff.mp h
    obtain ⟨rfl, rfl⟩ : z' = z ∧ evs :: traces' = traces := by simpa using h
    have hnumbers := call_numbers hx hb hcall
    rw [lengths, hcall]
    exact hnumbers.trans (ih hnumbers.sound (call_safe hb hx.short hcall).1.bounded hrun)

/-- The packets of a run follow the rules just if the callback fills none of them: one that it
fills goes out with the start indicator set. -/
theorem stuffing_rules (cb : Option AdaptationField) (hcb : ∀ f, cb = some f → Filling f) (cs : List Call) (fuel : Nat)
    (x : Sec2tsImpl) (traces : List (List Event)) (hrun : runCalls fuel (create cb) cs = some (x, traces)) :
    FollowsRules (packets traces.flatten) ↔ 184 ∉ lengths fuel (create cb) cs := by
  have hcreate : Sound (create cb) := ⟨show 0 < 0x2000 by decide, ⟨0, rfl⟩, hcb⟩
  have hnumbers := run_numbers hcreate (Idle.bounded ⟨rfl, rfl⟩) hrun
  refine ⟨fun hrules hfilled => ?_, fun hno => (hnumbers.counted hno).followsRules⟩
  obtain ⟨p, hp, hcontrol, hstart⟩ := hnumbers.started hfilled
  have hclear := (hrules.stuffing p hp hcontrol).1
  rw [hstart] at hclear
  exact absurd hclear (by decide)

theorem stuffing_rules_short_field : ∃ x traces,
    runCalls 4 (create (some fun _ _ => (2, fun i => if i = 0 then 1 else 0xff))) [.sectionX (List.replicate 300 7), .flush] =
      some (x, traces) ∧ FollowsRules (packets traces.flatten) := by
  obtain ⟨⟨x, traces⟩, hrun⟩ := Option.isSome_iff_exists.mp (show (runCalls 4
    (create (some fun _ _ => (2, fun i => if i = 0 then 1 else 0xff))) [.sectionX (List.replicate 300 7), .flush]).isSome by
      decide +kernel)
  refine ⟨x, traces, hrun, (stuffing_rules _ ?_ _ _ _ _ hrun).mpr (by decide +kernel)⟩
  rintro f ⟨rfl⟩ k area
  refine ⟨.inl (show 2 ≤ 182 by decide), fun _ i hi => ?_⟩
  obtain rfl : i = 0 := Fin.ext hi
  rfl

/-- The callback fills the second packet, in the middle of a section. -/
theorem stuffing_rules_filled_packet :
    ¬ ∀ (cb : Option AdaptationField), (∀ f, cb = some f → Filling f) → ∀ (cs : List Call) (fuel : Nat) (x : Sec2tsImpl)
      (traces : List (List Event)), runCalls fuel (create cb) cs = some (x, traces) → FollowsRules (packets traces.flatten) := by
  intro h
  let cb : AdaptationField := fun k area => if k = 1 then (184, fun i => if i = 0 then 183 else 0xff) else (0, area)
  have hcb : Filling cb := by
    intro k area
    by_cases hk : k = 1
    · rw [show cb k area = (184, fun i => if i = 0 then 183 else 0xff) from if_pos hk]
      refine ⟨.inr rfl, fun _ i hi => ?_⟩
      obtain rfl : i = 0 := Fin.ext hi
      rfl
    · rw [show cb k area = (0, area) from if_neg hk]
      exact ⟨.inl (Nat.zero_le _), fun hpos => absurd hpos (Nat.lt_irrefl 0)⟩
  have hstarted : ((runCalls 4 (create (some cb)) [.sectionX (List.replicate 200 7), .flush]).map fun r =>
      (packets r.2.flatten).any fun p => adaptationControl p = afcAdaptation ∧ unitStart p = 1) = some true := by decide +kernel
  obtain ⟨⟨x, traces⟩, hrun, hany⟩ := Option.map_eq_some_iff.mp hstarted
  obtain ⟨p, hp, hstuffing⟩ := List.any_eq_true.mp hany
  obtain ⟨hcontrol, hstart⟩ := of_decide_eq_true hstuffing
  have hclear := ((h (some cb) (fun f hf => Option.some.inj hf ▸ hcb) _ _ _ _ hrun).stuffing p hp hcontrol).1
  rw [hstart] at hclear
  exact absurd hclear (by decide)

end Mopa.Sec2ts
