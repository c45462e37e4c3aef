import Mopa.Sec2tsBounds
import Mopa.StreamChunks
import Mopa.TsRoundTrip

/-! Each packet of the packetizer on its own: its header, its adaptation field, and the
stretch of the sections that it carries. -/
namespace Mopa.Sec2ts
open Mopa.SectionStream

/-- The `i`-th packet with payload, with its PID, the length of its adaptation field and the
stretch of the sections that it carries. -/
structure PayloadPacket (p : List UInt8) (pid a i : Nat) (chunk : List StreamByte) : Prop where
  length : p.length = tsPacketLen
  sync : p.getD 0 0 = 0x47
  pid : (p.getD 1 0).toNat % 32 * 256 + (p.getD 2 0).toNat = pid
  control : (p.getD 3 0 >>> 4) &&& 3 = if a = 0 then 1 else 3
  counter : (p.getD 3 0 &&& 0xf).toNat = i % 16
  start : (p.getD 1 0 >>> 6) &&& 1 = 1 ↔ ∃ b ∈ chunk, b.first = true
  pointer : (∃ b ∈ chunk, b.first = true) → (p.getD (4 + a) 0).toNat = chunk.findIdx StreamByte.first
  payload : ∃ n, p.drop (4 + a + if (p.getD 1 0 >>> 6) &&& 1 = 1 then 1 else 0) =
      chunk.map StreamByte.value ++ List.replicate n 0xff ∧
    (0 < n → ∃ b ∈ chunk.getLast?, b.last = true)

def pids (pid : Nat) : List Call → List (List Event) → List Nat
  | .setPID p :: cs, _ :: traces => pids (p.toNat % 2^13) cs traces
  | _ :: cs, evs :: traces => List.replicate (packets evs).length pid ++ pids pid cs traces
  | _, _ => []

/-- What the adaptation callback returns in a run; 0 for each packet if there is none. -/
def lengths (fuel : Nat) : Sec2tsImpl → List Call → List Nat
  | _, [] => []
  | x, c :: cs => x.returnedBy fuel c ++ match x.call fuel c with
    | some (y, _) => lengths fuel y cs
    | none => []

structure Headed (pid : Nat) (p : List UInt8) (a : Nat) : Prop where
  sync : p.getD 0 0 = 0x47
  pid : (p.getD 1 0).toNat % 32 * 256 + (p.getD 2 0).toNat = pid
  control : (p.getD 3 0 >>> 4) &&& 3 = if a = 0 then 1 else 3
  field : 0 < a → (p.getD 4 0).toNat + 1 = a

theorem header_pid (pid : UInt16) (hpid : pid.toNat < 0x2000) (u : Bool) :
    (((if u then 1 else 0 : UInt8) <<< 6) ||| (pid >>> 8).toUInt8).toNat % 32 * 256 + pid.toUInt8.toNat = pid.toNat := by
  have hhigh (n : Fin 32) (u : Bool) :
      (((if u then 1 else 0 : UInt8) <<< 6) ||| UInt8.ofNat n).toNat % 32 = n := by
    revert n u
    decide
  have hn : (pid >>> 8).toUInt8 = UInt8.ofNat (⟨pid.toNat / 256, by omega⟩ : Fin 32) := by
    refine UInt8.toNat_inj.mp ?_
    simp [Nat.shiftRight_eq_div_pow]
  rw [hn, hhigh, UInt16.toNat_toUInt8]
  exact Nat.div_add_mod' _ _

theorem Begun.headed {x : Sec2tsImpl} {i : Nat} (h : Begun x i) (u : Bool) :
    Headed x.pid.toNat ((x.fixHeader u x.payloadAfc).tsPacket.read 0 tsPacketLen) (x.payloadStart - 4) := by
  have hlo := h.lo
  have hafc : x.payloadAfc = if x.payloadStart - 4 = 0 then afcPayload else afcAdaptationAndPayload := by
    unfold Sec2tsImpl.payloadAfc
    split
    · rw [if_neg (by omega)]
    · rw [if_pos (by omega)]
  refine ⟨rfl, header_pid x.pid h.pid u, ?_, fun hpos => ?_⟩
  · show (((x.payloadAfc <<< 4) ||| x.cc) >>> 4) &&& 3 = _
    rw [h.cc, (header_control i x.payloadAfc _).2, hafc]
    · rfl
    · rw [hafc]
      split
      · exact .inl rfl
      · exact .inr rfl
  · have := h.field (by omega)
    show (x.tsPacket 4).toNat + 1 = _
    omega

inductive Ready (x : Sec2tsImpl) : Prop
  | idle {i : Nat} (hstart : x.payloadStart = 0) (hx : Steady x i)
  | pending {i : Nat} (hle : x.payloadStart ≤ x.payloadEnd) (hx : Begun x i)

def Sec2tsImpl.pendingLength (x : Sec2tsImpl) : List Nat :=
  if x.payloadStart = 0 then [] else [x.payloadStart - 4]

theorem pendingLength_idle {x : Sec2tsImpl} (h : x.payloadStart = 0) : x.pendingLength = [] := if_pos h

theorem Begun.pendingLength {x : Sec2tsImpl} {i : Nat} (h : Begun x i) : x.pendingLength = [x.payloadStart - 4] :=
  if_neg (by have := h.lo; omega)

/-- From `x` to `y` packets go out, each with the adaptation field that was asked for when
it began; meanwhile the callback returns `fresh`. -/
structure Sends (x : Sec2tsImpl) (fresh : List Nat) (y : Sec2tsImpl) (evs : List Event) : Prop where
  ready : Ready y
  pid : y.pid = x.pid
  headed : ∃ sent, List.Forall₂ (Headed x.pid.toNat) (packets evs) sent ∧
    x.pendingLength ++ fresh = sent ++ y.pendingLength

theorem Sends.trans {x y z : Sec2tsImpl} {fresh fresh' : List Nat} {evs evs' : List Event}
    (h : Sends x fresh y evs) (h' : Sends y fresh' z evs') : Sends x (fresh ++ fresh') z (evs ++ evs') where
  ready := h'.ready
  pid := h'.pid.trans h.pid
  headed := by
    obtain ⟨sent, hsent, heq⟩ := h.headed
    obtain ⟨sent', hsent', heq'⟩ := h'.headed
    rw [h.pid] at hsent'
    refine ⟨sent ++ sent', ?_, ?_⟩
    · rw [packets_append]
      exact List.rel_append hsent hsent'
    · rw [← List.append_assoc, heq, List.append_assoc, heq', List.append_assoc]

def TurnSends (x : Sec2tsImpl) (fresh : List Nat) : Turn → Prop
  | .done y evs => Sends x fresh y evs
  | .again y _ _ evs => Sends x fresh y evs

theorem TurnSends.behind {x : Sec2tsImpl} {fresh : List Nat} {t : Turn} {e : Event} (h : TurnSends x fresh t)
    (he : packets [e] = []) : TurnSends x fresh (t.behind e) := by
  have hcons (evs : List Event) : packets (e :: evs) = packets evs := by
    rw [← List.singleton_append, packets_append, he]
    rfl
  cases t with
  | done y evs => exact ⟨h.ready, h.pid, (hcons evs).symm ▸ h.headed⟩
  | again y sec w evs => exact ⟨h.ready, h.pid, (hcons evs).symm ▸ h.headed⟩

section Turns
variable {x : Sec2tsImpl} {i : Nat} {sec : List UInt8}

theorem Begun.sends (h : Begun x i) (u : Bool) {evs : List Event}
    (hevs : packets evs = [(x.fixHeader u x.payloadAfc).tsPacket.read 0 tsPacketLen]) :
    Sends x [] (x.fixHeader u x.payloadAfc).next evs where
  ready := .idle rfl (h.toSteady.sent u x.payloadAfc)
  pid := rfl
  headed := by
    refine ⟨[x.payloadStart - 4], ?_, ?_⟩
    · rw [hevs]
      exact .cons (h.headed u) .nil
    · rw [h.pendingLength]
      rfl

theorem Sends.stored {o e : Nat} {bs : List UInt8} {u : Bool} {fresh : List Nat} {y : Sec2tsImpl} {evs : List Event}
    (h : Sends { x with tsPacket := x.tsPacket.write o bs, payloadEnd := e, pusi := u } fresh y evs) :
    Sends x fresh y evs := ⟨h.ready, h.pid, h.headed⟩

theorem put_sends (h : Begun x i) (hle : x.payloadStart ≤ x.payloadEnd) (u : Bool) (e : Nat) :
    TurnSends x [] (x.put id u e sec) := by
  unfold Sec2tsImpl.put
  dsimp only
  split
  · have hb := h.store x.payloadEnd sec (x.payloadEnd + sec.length) x.pusi hle
    exact ⟨.pending (hle.trans (Nat.le_add_right _ _)) hb, rfl, [], .nil, by rw [h.pendingLength]; exact hb.pendingLength.symm⟩
  · have hb := h.store x.payloadEnd (sec.take (rem x.payloadEnd)) e x.pusi hle
    split
    · exact (hb.sends u rfl).stored
    · exact (hb.sends u rfl).stored

theorem TurnSends.stored {o e : Nat} {bs : List UInt8} {u : Bool} {fresh : List Nat} {t : Turn}
    (h : TurnSends { x with tsPacket := x.tsPacket.write o bs, payloadEnd := e, pusi := u } fresh t) :
    TurnSends x fresh t := by
  cases t with
  | done y evs => exact Sends.stored h
  | again y sec w evs => exact Sends.stored h

theorem adaptation_pid (x : Sec2tsImpl) : x.adaptation.1.pid = x.pid := by
  unfold Sec2tsImpl.adaptation
  split
  · rfl
  · rfl

theorem begin_sends (hx : Steady x i) (hstart : x.payloadStart = 0) :
    Begun (x.begin id) i ∧ ∀ t, TurnSends (x.begin id) [] t → TurnSends x [x.adaptation.2] t := by
  obtain ⟨hle, -, hb⟩ := adaptation_begun hx
  have hwrap : x.begin wrap8 = x.begin id := by
    unfold Sec2tsImpl.begin
    rw [wrap8_of_lt (show 4 + x.adaptation.2 < 256 by omega)]
    rfl
  rw [hwrap] at hb
  have hlength : (x.begin id).pendingLength = [x.adaptation.2] := by
    rw [Begun.pendingLength (x := x.begin id) hb]
    exact congrArg (fun n => [n]) (Nat.add_sub_cancel_left 4 _)
  have hsends {y : Sec2tsImpl} {evs : List Event} (h : Sends (x.begin id) [] y evs) : Sends x [x.adaptation.2] y evs := by
    obtain ⟨hready, hpid, sent, hsent, heq⟩ := h
    rw [show (x.begin id).pid = x.pid from adaptation_pid x] at hpid hsent
    rw [hlength] at heq
    exact ⟨hready, hpid, sent, hsent, by rw [pendingLength_idle hstart, ← heq]; rfl⟩
  refine ⟨hb, fun t h => ?_⟩
  cases t with
  | done y evs => exact hsends h
  | again y sec w evs => exact hsends h

theorem turn_sends (hx : Steady x i) (hstart : x.payloadStart = 0) (w : Bool) :
    TurnSends x [x.adaptation.2] (x.turn id sec w) := by
  obtain ⟨hb, hsends⟩ := begin_sends hx hstart
  have hhi : 4 + x.adaptation.2 ≤ 186 := hb.hi
  have hend : (x.begin id).payloadEnd = 4 + x.adaptation.2 := rfl
  refine hsends _ ?_
  unfold Sec2tsImpl.turn
  dsimp only
  rw [hend, rem_eq (by omega), if_neg (by omega)]
  cases w with
  | true => exact put_sends hb le_rfl _ _
  | false =>
    have hp := hb.store (x.begin id).payloadEnd [0] ((x.begin id).payloadEnd + 1) true le_rfl
    exact (put_sends hp (Nat.le_succ _) true ((x.begin id).payloadEnd + 1)).stored

theorem enter_sends (hx : Ready x) : TurnSends x [] (x.enter id sec) := by
  unfold Sec2tsImpl.enter
  cases hx with
  | idle hstart hx =>
    rw [if_neg (not_not.mpr hstart)]
    exact ⟨.idle hstart hx, rfl, [], .nil, List.append_nil _⟩
  | pending hle hx =>
    have hlo := hx.lo
    have hhi := hx.hi
    rw [if_pos (by omega)]
    split
    · exact put_sends hx hle _ _
    · split
      · have hb := hx.store (tsPacketLen - 1) [0xff] x.payloadEnd x.pusi (hhi.trans (by decide))
        exact (hb.sends false rfl).stored
      · have hb := (hx.store (x.payloadStart + 1) (x.tsPacket.read x.payloadStart (x.payloadEnd - x.payloadStart))
          x.payloadEnd x.pusi (Nat.le_succ _)).store x.payloadStart [UInt8.ofNat (x.payloadEnd - x.payloadStart)]
          (x.payloadEnd + 1) true le_rfl
        exact (put_sends hb (hle.trans (Nat.le_succ _)) true
          (x.payloadEnd + 1 + rem (x.payloadEnd + 1))).stored.stored.behind rfl

end Turns

theorem Ready.steady {x : Sec2tsImpl} (h : Ready x) : ∃ i, Steady x i := by
  cases h with
  | idle hstart hx => exact ⟨_, hx⟩
  | pending hle hx => exact ⟨_, hx.toSteady⟩

theorem Ready.short {x : Sec2tsImpl} (h : Ready x) : Short x := by
  obtain ⟨i, hx⟩ := h.steady
  exact fun cb hcb k area => (hx.polite cb hcb k area).1.trans (by decide)

theorem loop_sends {x y : Sec2tsImpl} {sec : List UInt8} {w : Bool} {fuel : Nat} {evs : List Event} (hx : Idle x)
    (hr : Ready x) (h : x.loop wrap8 sec w fuel = some (y, evs)) : Sends x (x.returned sec w fuel) y evs := by
  induction fuel generalizing x sec w evs with
  | zero => exact absurd h (by simp [Sec2tsImpl.loop])
  | succ fuel ih =>
    obtain ⟨i, hs⟩ := hr.steady
    obtain ⟨heq, hsafe⟩ := turn_safe hx hr.short w
    have hsends : TurnSends x [x.adaptation.2] (x.turn id sec w) := turn_sends hs hx.start w
    rw [← heq] at hsends
    rw [Sec2tsImpl.loop_succ] at h
    rw [Sec2tsImpl.returned]
    cases hturn : x.turn wrap8 sec w with
    | done z evs' =>
      rw [hturn] at h hsends
      obtain ⟨rfl, rfl⟩ : z = y ∧ evs' = evs := by simpa [Sec2tsImpl.after] using h
      exact hsends
    | again z sec' w' evs' =>
      rw [hturn] at h hsends hsafe
      obtain ⟨⟨z', evs''⟩, hz, hz'⟩ := Option.map_eq_some_iff.mp h
      obtain ⟨rfl, rfl⟩ := Prod.mk.inj hz'
      exact Sends.trans hsends (ih hsafe.idle hsends.ready hz)

theorem flush_sends {x : Sec2tsImpl} (hx : Ready x) : Sends x [] x.flush.1 x.flush.2 := by
  unfold Sec2tsImpl.flush
  cases hx with
  | idle hstart hx =>
    rw [if_neg (not_not.mpr hstart)]
    exact ⟨.idle hstart hx, rfl, [], .nil, List.append_nil _⟩
  | pending hle hx =>
    have hlo := hx.lo
    have hb := hx.store x.payloadEnd (List.replicate (tsPacketLen - x.payloadEnd) 0xff) x.payloadEnd x.pusi hle
    have hsends (z : Sec2tsImpl) (hz : z = { x with
          tsPacket := x.tsPacket.write x.payloadEnd
            (List.replicate (tsPacketLen - x.payloadEnd) 0xff) }.fixHeader x.pusi x.payloadAfc) :
          Sends x [] z.next [.memset x.payloadEnd (tsPacketLen - x.payloadEnd), z.produced] := by
      rw [hz]
      exact (hb.sends x.pusi rfl).stored
    rw [if_pos (by omega)]
    exact hsends _ (fixHeader_write x x.pusi x.payloadAfc (hlo.trans hle) _)

theorem call_sends {x y : Sec2tsImpl} {fuel : Nat} {c : Call} {evs : List Event} (hx : Bounded x) (hr : Ready x)
    (hc : ∀ pid, c ≠ .setPID pid) (h : x.call fuel c = some (y, evs)) : Sends x (x.returnedBy fuel c) y evs := by
  cases c with
  | sectionX sec =>
    obtain ⟨heq, hsafe⟩ := enter_safe hx
    have hsends : TurnSends x [] (x.enter id sec) := enter_sends hr
    rw [← heq] at hsends
    rw [Sec2tsImpl.call, Sec2tsImpl.sectionX_eq] at h
    rw [Sec2tsImpl.returnedBy]
    cases hturn : x.enter wrap8 sec with
    | done z evs' =>
      rw [hturn] at h hsends
      obtain ⟨rfl, rfl⟩ : z = y ∧ evs' = evs := by simpa [Sec2tsImpl.after] using h
      exact hsends
    | again z sec' w evs' =>
      rw [hturn] at h hsends hsafe
      obtain ⟨⟨z', evs''⟩, hz, hz'⟩ := Option.map_eq_some_iff.mp h
      obtain ⟨rfl, rfl⟩ := Prod.mk.inj hz'
      exact Sends.trans hsends (loop_sends hsafe.idle hsends.ready hz)
  | flush =>
    obtain ⟨rfl, rfl⟩ := Prod.mk.inj (Option.some.inj h)
    exact flush_sends hr
  | setPID pid => exact absurd rfl (hc pid)

theorem setPID_pid (x : Sec2tsImpl) (pid : UInt16) : (x.setPID pid).pid.toNat = pid.toNat % 2^13 := by
  show (pid &&& ((1 : UInt16) <<< 13 - 1)).toNat = _
  rw [UInt16.toNat_and]
  exact Nat.and_two_pow_sub_one_eq_mod _ 13

theorem Ready.setPID {x : Sec2tsImpl} (h : Ready x) (pid : UInt16) : Ready (x.setPID pid) := by
  have hpid : (x.setPID pid).pid.toNat < 0x2000 := (setPID_pid x pid).trans_lt (Nat.mod_lt _ (by decide))
  cases h with
  | idle hstart hx => exact .idle hstart ⟨hpid, hx.cc, hx.polite⟩
  | pending hle hx => exact .pending hle (hx.setPID pid hpid)

/-- The packets of a run, each with its PID and the length of its adaptation field. -/
theorem run_sends {x z : Sec2tsImpl} {fuel : Nat} {cs : List Call} {traces : List (List Event)} (hx : Bounded x)
    (hr : Ready x) (h : runCalls fuel x cs = some (z, traces)) :
    ∃ heads : List (Nat × Nat), List.Forall₂ (fun p head => Headed head.1 p head.2) (packets traces.flatten) heads ∧
      heads.map Prod.fst = pids x.pid.toNat cs traces ∧
      x.pendingLength ++ lengths fuel x cs = heads.map Prod.snd ++ z.pendingLength := by
  induction cs generalizing x traces with
  | nil =>
    obtain ⟨rfl, rfl⟩ := Prod.mk.inj (Option.some.inj h)
    exact ⟨[], .nil, rfl, List.append_nil _⟩
  | cons c cs ih =>
    rw [runCalls] at h
    obtain ⟨⟨y, evs⟩, hcall, h⟩ := Option.bind_eq_some_iff.mp h
    obtain ⟨⟨z', traces'⟩, hrun, h⟩ := Option.bind_eq_some_iff.mp h
    obtain ⟨rfl, rfl⟩ : z' = z ∧ evs :: traces' = traces := by simpa using h
    have hy := (call_safe hx hr.short hcall).1.bounded
    rw [lengths, hcall, List.flatten_cons, packets_append]
    by_cases hc : ∃ pid, c = .setPID pid
    · obtain ⟨pid, rfl⟩ := hc
      obtain ⟨rfl, rfl⟩ := Prod.mk.inj (Option.some.inj hcall)
      obtain ⟨heads, hheads, hpids, hlengths⟩ := ih hy (hr.setPID pid) hrun
      rw [setPID_pid] at hpids
      exact ⟨heads, hheads, hpids, hlengths⟩
    · have hsends := call_sends hx hr (not_exists.mp hc) hcall
      obtain ⟨heads, hheads, hpids, hlengths⟩ := ih hy hsends.ready hrun
      obtain ⟨sent, hsent, heq⟩ := hsends.headed
      have hheaded : List.Forall₂ (fun p head => Headed head.1 p head.2) (packets evs) (sent.map (x.pid.toNat, ·)) :=
        List.forall₂_map_right_iff.mpr hsent
      refine ⟨sent.map (x.pid.toNat, ·) ++ heads, List.rel_append hheaded hheads, ?_, ?_⟩
      · rw [hsends.pid] at hpids
        have hpid : pids x.pid.toNat (c :: cs) (evs :: traces') =
            List.replicate (packets evs).length x.pid.toNat ++ pids x.pid.toNat cs traces' := by
          cases c with
          | sectionX sec => rfl
          | flush => rfl
          | setPID pid => exact absurd ⟨pid, rfl⟩ hc
        rw [hpid, List.map_append, hpids, List.map_map, hsent.length_eq]
        exact congrArg (· ++ _) (List.map_const' ..)
      · rw [← List.append_assoc, heq, List.append_assoc, hlengths, List.map_append, List.append_assoc, List.map_map]
        exact congrArg (· ++ _) (List.map_id' sent).symm

theorem payloadPacket_of_emits {p : List UInt8} {k : Packet} {pid a i : Nat} {chunk : List StreamByte}
    (hp : Emits p k) (hhead : Headed pid p a) (hcc : k.cc = ccOf i) (hk : Holds k chunk) :
    PayloadPacket p pid a i chunk := by
  obtain ⟨hlen, hcarries⟩ := hp
  have hread : (TsRoundTrip.ofBytes p).read 0 188 = p := TsRoundTrip.at_ofBytes hlen
  have hdrop {o : Nat} (ho : o ≤ 188) : p.drop o = (TsRoundTrip.ofBytes p).read o (188 - o) := by
    have := (TsRoundTrip.ofBytes p).read_drop 0 188 o ho
    rwa [hread, Nat.zero_add] at this
  obtain ⟨hcounter, hstart, pos, hpos, hbody⟩ := hcarries _ hread
  have hstarts : (p.getD 1 0 >>> 6) &&& 1 = 1 ↔ k.pusi = true := by
    rw [show (p.getD 1 0 >>> 6) &&& 1 = if k.pusi then 1 else 0 from hstart]
    split
    · next h => exact iff_of_true rfl h
    · next h => exact iff_of_false (by decide) h
  obtain ⟨rfl, hle⟩ : pos = 4 + a ∧ pos ≤ 188 := by
    have hcontrol : (TsRoundTrip.ofBytes p 3 >>> 4) &&& 3 = if a = 0 then 1 else 3 := hhead.control
    rw [Merger.PayloadAt, hcontrol] at hpos
    by_cases ha : a = 0
    · rw [if_pos ha, if_neg (by decide)] at hpos
      omega
    · have hfield : (TsRoundTrip.ofBytes p 4).toNat + 1 = a := hhead.field (Nat.pos_of_ne_zero ha)
      rw [if_neg ha, if_pos (by decide)] at hpos
      exact ⟨by omega, hpos.2⟩
  refine ⟨hlen, hhead.sync, hhead.pid, hhead.control, ?_, hstarts.trans hk.start, fun hfirst => ?_, ?_⟩
  · rw [show p.getD 3 0 &&& 0xf = k.cc from hcounter, hcc, ccOf, UInt8.toNat_ofNat']
    omega
  · have hpusi := hk.start.mpr hfirst
    rw [if_pos hpusi] at hbody
    exact hbody.2.1.trans (hk.pointer hpusi)
  · obtain ⟨n, heq, hlast⟩ := hk.body
    refine ⟨n, ?_, hlast⟩
    rw [← heq]
    by_cases hpusi : k.pusi = true
    · rw [if_pos hpusi] at hbody
      rw [if_pos (hstarts.mpr hpusi), hdrop hbody.1]
      exact hbody.2.2.2.symm
    · rw [if_neg hpusi] at hbody
      rw [if_neg (mt hstarts.mp hpusi), Nat.add_zero, hdrop hle]
      exact hbody.symm

theorem chain_counter {holds : Nat → Nat → Prop} {i j : Nat} {o o1 : Open} {ks : List Packet} {ss : List (List UInt8)}
    (h : Chain holds i j o ks ss o1) (n : Nat) {k : Packet} (hk : ks[n]? = some k) : k.cc = ccOf (i + n) := by
  induction h generalizing n with
  | nil => simp at hk
  | @cons i j o o1 o2 k' ks ss ss' hcc hflow hcarry hnew rest ih =>
    cases n with
    | zero =>
      obtain rfl := Option.some.inj hk
      exact hcc
    | succ n =>
      rw [Nat.add_comm n 1, ← Nat.add_assoc]
      exact ih n hk

theorem forall₂_getElem? {α β : Type} {r : α → β → Prop} {as : List α} {bs : List β} (h : List.Forall₂ r as bs)
    {n : Nat} {a : α} (ha : as[n]? = some a) : ∃ b, bs[n]? = some b ∧ r a b := by
  obtain ⟨hn, rfl⟩ := List.getElem?_eq_some_iff.mp ha
  have hn' : n < bs.length := h.length_eq ▸ hn
  exact ⟨bs[n], List.getElem?_eq_getElem hn', h.get hn hn'⟩

/-- Whatever sections are given, with flushes and changes of the PID in between, and with a
callback whose fields are well formed or none: each packet has a well formed header, and the
packets carry the sections in order, with stuffing only behind the end of a section. A last
`flush` leaves nothing behind. -/
theorem packets_carry_sections (cb : Option AdaptationField) (hcb : ∀ f, cb = some f → Polite f) (cs : List Call)
    (fuel : Nat) (hcs : ∀ s ∈ given cs, s ≠ [] ∧ s.length ≤ fuel) :
    ∃ x traces, runCalls fuel (create cb) cs = some (x, traces) ∧ ∃ (chunks : List (List StreamByte)) (rest : List StreamByte),
      chunks.length = (packets traces.flatten).length ∧ chunks.flatten ++ rest = (given cs).flatMap marked ∧
      (cs.getLast? = some .flush → rest = []) ∧
      ∀ i p, (packets traces.flatten)[i]? = some p → ∃ pid a chunk,
        (pids 0 cs traces)[i]? = some pid ∧ (lengths fuel (create cb) cs)[i]? = some a ∧
        chunks[i]? = some chunk ∧ PayloadPacket p pid a i chunk := by
  obtain ⟨x, traces, hrun, ks, ss, o, fulls, hks, hx, hsame, hchain⟩ := run_chain cb hcb fuel cs hcs
  have hss (s : List UInt8) (hs : s ∈ ss) : s ≠ [] := (hcs s (hsame ▸ List.mem_append_left _ hs)).1
  obtain ⟨chunks, hchunks, hstream⟩ := hchain.chunks trivial hss
  have hready : Ready (create cb) := .idle (i := 0) rfl ⟨show 0 < 0x2000 by decide, rfl, hcb⟩
  obtain ⟨heads, hheads, hpids, hlengths⟩ := run_sends (Idle.bounded ⟨rfl, rfl⟩) hready hrun
  refine ⟨x, traces, hrun, chunks, o.rest ++ fulls.flatMap marked, ?_, ?_, fun hlast => ?_, fun i p hp => ?_⟩
  · rw [← hchunks.length_eq, hks.length_eq]
  · rw [← List.append_assoc, hstream, List.append_assoc, ← List.flatMap_append, hsame]
    rfl
  · obtain ⟨ds, rfl⟩ := List.getLast?_eq_some_iff.mp hlast
    obtain ⟨rfl, rfl⟩ := hx.of_start (runCalls_flush hrun)
    rfl
  · obtain ⟨k, hk, hemits⟩ := forall₂_getElem? hks hp
    obtain ⟨chunk, hchunk, hholds⟩ := forall₂_getElem? hchunks hk
    obtain ⟨head, hhead, hheaded⟩ := forall₂_getElem? hheads hp
    have hcc := chain_counter hchain i hk
    rw [Nat.zero_add] at hcc
    have hlt : i < (heads.map Prod.snd).length := (List.length_map _).symm ▸ (List.getElem?_eq_some_iff.mp hhead).1
    refine ⟨head.1, head.2, chunk, ?_, ?_, hchunk, payloadPacket_of_emits hemits hheaded hcc hholds⟩
    · rw [show pids 0 cs traces = heads.map Prod.fst from hpids.symm, List.getElem?_map, hhead]
      rfl
    · rw [show lengths fuel (create cb) cs = heads.map Prod.snd ++ x.pendingLength from hlengths,
        List.getElem?_append_left hlt, List.getElem?_map, hhead]
      rfl

theorem packets_carry_sections_two_bytes : ∃ x traces, ∃ chunks : List (List StreamByte),
    runCalls 4 (create (some fun _ _ => (2, fun i => if i = 0 then 1 else 0xff)))
      [.setPID 0x2123, .sectionX [7, 8], .flush] = some (x, traces) ∧
    chunks.flatten = [⟨7, true, false⟩, ⟨8, false, true⟩] := by
  obtain ⟨x, traces, hrun, chunks, rest, -, hstream, hrest, -⟩ := packets_carry_sections
    (some fun _ _ => (2, fun i => if i = 0 then 1 else 0xff))
    (by rintro f ⟨rfl⟩ k area; exact ⟨show 2 ≤ 182 by decide, fun _ => rfl⟩)
    [.setPID 0x2123, .sectionX [7, 8], .flush] 4 (by decide)
  refine ⟨x, traces, chunks, hrun, ?_⟩
  rw [hrest rfl, List.append_nil] at hstream
  exact hstream

end Mopa.Sec2ts
