import Mopa.Sec2tsPackets

/-! How full the packets are, and with what. Behind its adaptation field a packet holds bytes of
sections and at most one byte that is none: the pointer field of a packet in which a section starts,
or the stuffing of a packet that has no room for one. Only `flush` wastes more. -/
namespace Mopa.Sec2ts

/-- Behind an adaptation field of `a` bytes, and a pointer field or none, the packet has these bytes. -/
def HoldsBytes (p : List UInt8) (a : Nat) (bytes : List UInt8) : Prop :=
  ∃ k ≤ 1, 4 + a + k + bytes.length ≤ 188 ∧ bytes <+: p.drop (4 + a + k)

/-- Up to one byte the bytes of sections are as many as the adaptation fields leave room for. -/
def Full (fields : List (Nat × List UInt8)) : Prop := ∀ f ∈ fields, 183 ≤ f.1 + f.2.length

theorem Full.append {as bs : List (Nat × List UInt8)} (h : Full as) (h' : Full bs) : Full (as ++ bs) :=
  List.forall_mem_append.mpr ⟨h, h'⟩

namespace Sec2tsImpl

def pointers (x : Sec2tsImpl) : Nat := if x.pusi then 1 else 0

def stored (x : Sec2tsImpl) : List UInt8 :=
  if x.payloadStart = 0 then [] else (x.tsPacket.read x.payloadStart (x.payloadEnd - x.payloadStart)).drop x.pointers

end Sec2tsImpl

/-- From `x` to `y` packets go out, each with its adaptation field and bytes of sections. They and
the pending packet have the bytes that came in. -/
structure Fills (x : Sec2tsImpl) (fresh : List Nat) (bytes : List UInt8) (y : Sec2tsImpl) (evs : List Event)
    (fields : List (Nat × List UInt8)) : Prop where
  holds : List.Forall₂ (fun p f => HoldsBytes p f.1 f.2) (packets evs) fields
  lengths : x.pendingLength ++ fresh = fields.map Prod.fst ++ y.pendingLength
  bytes : x.stored ++ bytes = (fields.map Prod.snd).flatten ++ y.stored

theorem Fills.trans {x y z : Sec2tsImpl} {fresh fresh' : List Nat} {as bs : List UInt8} {evs evs' : List Event}
    {fs gs : List (Nat × List UInt8)} (h : Fills x fresh as y evs fs) (h' : Fills y fresh' bs z evs' gs) :
    Fills x (fresh ++ fresh') (as ++ bs) z (evs ++ evs') (fs ++ gs) where
  holds := by
    rw [packets_append]
    exact List.rel_append h.holds h'.holds
  lengths := by rw [← List.append_assoc, h.lengths, List.append_assoc, h'.lengths, List.map_append, List.append_assoc]
  bytes := by
    rw [← List.append_assoc, h.bytes, List.append_assoc, h'.bytes, List.map_append, List.flatten_append, List.append_assoc]

/-- A turn takes `sec`, up to what it leaves, and its packets are full. -/
def TurnFills (x : Sec2tsImpl) (fresh : List Nat) (sec : List UInt8) : Turn → Prop
  | .done y evs => ∃ fields, Full fields ∧ Fills x fresh sec y evs fields
  | .again y sec' _ evs => ∃ bytes fields, sec = bytes ++ sec' ∧ Full fields ∧ Fills x fresh bytes y evs fields

theorem TurnFills.of_stored {x x' : Sec2tsImpl} {fresh fresh' : List Nat} {sec : List UInt8} {t : Turn}
    (h : TurnFills x' fresh' sec t) (hlengths : x.pendingLength ++ fresh = x'.pendingLength ++ fresh')
    (hstored : x.stored = x'.stored) : TurnFills x fresh sec t := by
  cases t with
  | done y evs =>
    obtain ⟨fields, hfull, hholds, hlengths', hbytes⟩ := h
    exact ⟨fields, hfull, hholds, hlengths.trans hlengths', hstored ▸ hbytes⟩
  | again y sec' w evs =>
    obtain ⟨bytes, fields, hsec, hfull, hholds, hlengths', hbytes⟩ := h
    exact ⟨bytes, fields, hsec, hfull, hholds, hlengths.trans hlengths', hstored ▸ hbytes⟩

theorem TurnFills.behind {x : Sec2tsImpl} {fresh : List Nat} {sec : List UInt8} {t : Turn} {e : Event}
    (h : TurnFills x fresh sec t) (he : packets [e] = []) : TurnFills x fresh sec (t.behind e) := by
  have hcons (evs : List Event) : packets (e :: evs) = packets evs := by
    rw [← List.singleton_append, packets_append, he]
    rfl
  cases t with
  | done y evs =>
    obtain ⟨fields, hfull, hholds, hlengths, hbytes⟩ := h
    exact ⟨fields, hfull, hcons evs ▸ hholds, hlengths, hbytes⟩
  | again y sec' w evs =>
    obtain ⟨bytes, fields, hsec, hfull, hholds, hlengths, hbytes⟩ := h
    exact ⟨bytes, fields, hsec, hfull, hcons evs ▸ hholds, hlengths, hbytes⟩

section Turns
variable {x : Sec2tsImpl} {sec : List UInt8}

theorem stored_idle (h : x.payloadStart = 0) : x.stored = [] := if_pos h

theorem stored_pending (h : 4 ≤ x.payloadStart) :
    x.stored = (x.tsPacket.read x.payloadStart (x.payloadEnd - x.payloadStart)).drop x.pointers := if_neg (by omega)

theorem pendingLength_pending (h : 4 ≤ x.payloadStart) : x.pendingLength = [x.payloadStart - 4] := if_neg (by omega)

structure Pending (x : Sec2tsImpl) : Prop where
  lo : 4 ≤ x.payloadStart
  le : x.payloadStart + x.pointers ≤ x.payloadEnd
  room : x.payloadEnd ≤ 187

theorem Pending.length_stored (h : Pending x) : x.payloadStart + x.pointers + x.stored.length = x.payloadEnd := by
  have hle := h.le
  rw [stored_pending h.lo, List.length_drop, Memory.read_length]
  omega

theorem Pending.write (h : Pending x) (bs : List UInt8) :
    ((x.tsPacket.write x.payloadEnd bs).read x.payloadStart (x.payloadEnd + bs.length - x.payloadStart)).drop x.pointers =
      x.stored ++ bs := by
  have hle := h.le
  rw [read_stored x bs (by omega), List.drop_append_of_le_length (by rw [Memory.read_length]; omega), stored_pending h.lo]

theorem pointers_le (x : Sec2tsImpl) : x.pointers ≤ 1 := by
  unfold Sec2tsImpl.pointers
  split
  · exact le_rfl
  · exact Nat.zero_le _

theorem Bounded.pending (hx : Bounded x) (hpending : x.payloadStart ≠ 0) : Pending x := by
  obtain ⟨hlo, hle, hroom⟩ := hx.counters.resolve_left hpending
  refine ⟨hlo, ?_, hroom⟩
  unfold Sec2tsImpl.pointers
  split
  · next hpusi => exact (hx.pusi hpusi).2
  · exact hle

theorem fills_none {y : Sec2tsImpl} {bytes : List UInt8} {evs : List Event} (hy : y.pendingLength = x.pendingLength)
    (hstored : y.stored = x.stored ++ bytes) (hevs : packets evs = []) : Fills x [] bytes y evs [] where
  holds := by
    rw [hevs]
    exact .nil
  lengths := (List.append_nil _).trans hy.symm
  bytes := hstored.symm

theorem fills_sent {y z : Sec2tsImpl} {u : Bool} {afc : UInt8} {bytes : List UInt8} (rest : List UInt8) {evs : List Event}
    (h : Pending x) (hz : z.payloadStart = 0) (hroom : x.payloadEnd + bytes.length ≤ 188)
    (hread : y.tsPacket.read x.payloadStart (188 - x.payloadStart) =
      (x.tsPacket.write x.payloadEnd (bytes ++ rest)).read x.payloadStart (x.payloadEnd + (bytes ++ rest).length - x.payloadStart))
    (hevs : packets evs = [(y.fixHeader u afc).tsPacket.read 0 tsPacketLen]) :
    Fills x [] bytes z evs [(x.payloadStart - 4, x.stored ++ bytes)] where
  holds := by
    have hlo := h.lo
    have hle := h.le
    have hlen := h.length_stored
    rw [hevs]
    refine .cons ⟨x.pointers, pointers_le x, ?_, rest, ?_⟩ .nil
    · rw [List.length_append]
      show 4 + (x.payloadStart - 4) + _ + _ ≤ 188
      omega
    · -- the header is in front of the adaptation field
      have hdrop : ((y.fixHeader u afc).tsPacket.read 0 188).drop x.payloadStart =
          (y.fixHeader u afc).tsPacket.read x.payloadStart (188 - x.payloadStart) := by
        rw [Memory.read_drop _ _ _ _ (by omega), Nat.zero_add]
      show (x.stored ++ bytes) ++ rest =
        ((y.fixHeader u afc).tsPacket.read 0 188).drop (4 + (x.payloadStart - 4) + x.pointers)
      rw [Nat.add_sub_cancel' hlo, ← List.drop_drop, hdrop, fixHeader_read y u afc hlo, hread, h.write, List.append_assoc]
  lengths := by rw [pendingLength_pending h.lo, pendingLength_idle hz]; rfl
  bytes := by rw [stored_idle hz, List.append_nil]; exact (List.append_nil _).symm

theorem full_sent (h : Pending x) {bytes : List UInt8} (hmin : 187 ≤ x.payloadEnd + bytes.length) (hp : x.pointers = 0 ∨
    188 ≤ x.payloadEnd + bytes.length) : Full [(x.payloadStart - 4, x.stored ++ bytes)] := by
  have hlo := h.lo
  have hlen := h.length_stored
  have hone := pointers_le x
  intro f hf
  obtain rfl := List.mem_singleton.mp hf
  rw [List.length_append]
  show 183 ≤ x.payloadStart - 4 + _
  omega

theorem put_fills (h : Pending x) (u : Bool) (e : Nat) : TurnFills x [] sec (x.put id u e sec) := by
  have hle := h.le
  have hroom := h.room
  have hrem : rem x.payloadEnd = 188 - x.payloadEnd := rem_eq (by omega)
  by_cases hfit : rem x.payloadEnd > sec.length
  · rw [Sec2tsImpl.put_fits hfit]
    refine ⟨[], fun f hf => absurd hf List.not_mem_nil,
      fills_none ((pendingLength_pending h.lo).trans (pendingLength_pending h.lo).symm) ?_ rfl⟩
    refine (stored_pending ?_).trans ?_
    · exact h.lo
    · exact h.write sec
  · have htake : (sec.take (rem x.payloadEnd)).length = 188 - x.payloadEnd := by
      rw [List.length_take]
      omega
    have hfull : Full [(x.payloadStart - 4, x.stored ++ sec.take (rem x.payloadEnd))] :=
      full_sent h (by omega) (Or.inr (by omega))
    have hsent : Fills x [] (sec.take (rem x.payloadEnd)) (x.filled u e (sec.take (rem x.payloadEnd))).next
        [.memcpy x.payloadEnd (rem x.payloadEnd), (x.filled u e (sec.take (rem x.payloadEnd))).produced]
        [(x.payloadStart - 4, x.stored ++ sec.take (rem x.payloadEnd))] := by
      refine fills_sent [] h rfl (by omega) ?_ rfl
      rw [List.append_nil, htake, show x.payloadEnd + (188 - x.payloadEnd) = 188 by omega]
    rw [Sec2tsImpl.put_full hfit]
    dsimp only
    split
    · next hdone =>
      have hsec : sec.take (rem x.payloadEnd) = sec := List.take_of_length_le (by omega)
      exact ⟨_, hfull, hsent.holds, hsent.lengths, (congrArg (x.stored ++ ·) hsec).symm.trans hsent.bytes⟩
    · exact ⟨_, _, (List.take_append_drop _ sec).symm, hfull, hsent⟩

theorem turn_fills (hx : Idle x) (hs : Short x) (w : Bool) : TurnFills x [x.adaptation.2] sec (x.turn id sec w) := by
  have hle := adaptation_le hs
  have hlo : 4 ≤ (x.begin id).payloadStart := Nat.le_add_right 4 _
  have hend : (x.begin id).payloadEnd = 4 + x.adaptation.2 := rfl
  have hpusi : (x.begin id).pusi = false := adaptation_pusi.trans hx.pusi
  have hpointers : (x.begin id).pointers = 0 := if_neg (ne_true_of_eq_false hpusi)
  have hlengths : x.pendingLength ++ [x.adaptation.2] = (x.begin id).pendingLength ++ [] := by
    rw [pendingLength_idle hx.start, pendingLength_pending hlo]
    exact congrArg (fun n => [n]) (Nat.add_sub_cancel_left 4 _).symm
  have hstored : x.stored = (x.begin id).stored := by
    rw [stored_idle hx.start, stored_pending hlo, hpointers]
    show [] = ((x.begin id).tsPacket.read (4 + x.adaptation.2) (4 + x.adaptation.2 - (4 + x.adaptation.2))).drop 0
    rw [Nat.sub_self]
    rfl
  unfold Sec2tsImpl.turn
  dsimp only
  rw [hend, rem_eq (by omega)]
  split
  · -- the callback has left no room for a pointer field and a byte
    refine ⟨[], [(x.adaptation.2, [])], rfl, fun f hf => ?_, ?_, ?_, ?_⟩
    · obtain rfl := List.mem_singleton.mp hf
      show 183 ≤ x.adaptation.2 + 0
      omega
    · refine .cons ⟨0, Nat.zero_le _, ?_, List.nil_prefix⟩ .nil
      show 4 + x.adaptation.2 + 0 + 0 ≤ 188
      omega
    · rw [pendingLength_idle hx.start, pendingLength_idle rfl]
      rfl
    · rw [stored_idle hx.start, stored_idle rfl]
      rfl
  · cases w with
    | true =>
      have hp : Pending (x.begin id) := ⟨hlo, by rw [hpointers]; exact le_rfl, by rw [hend]; omega⟩
      exact (put_fills hp _ _).of_stored hlengths hstored
    | false =>
      have hp : Pending ((x.begin id).pointer id) := ⟨hlo, le_rfl, show 4 + x.adaptation.2 + 1 ≤ 187 by omega⟩
      have hpointer : (x.begin id).stored = ((x.begin id).pointer id).stored := by
        rw [← hstored, stored_idle hx.start]
        refine (List.length_eq_zero_iff.mp ?_).symm
        have hlen : 4 + x.adaptation.2 + 1 + ((x.begin id).pointer id).stored.length = 4 + x.adaptation.2 + 1 :=
          hp.length_stored
        omega
      exact (put_fills hp _ _).of_stored hlengths (hstored.trans hpointer)

theorem enter_fills (hx : Bounded x) : TurnFills x [] sec (x.enter id sec) := by
  unfold Sec2tsImpl.enter
  by_cases hpending : x.payloadStart ≠ 0
  · have hp := hx.pending hpending
    obtain ⟨hlo, hle, hroom⟩ := hx.counters.resolve_left hpending
    rw [if_pos hpending]
    by_cases hpusi : x.pusi = true
    · rw [if_pos hpusi]
      exact put_fills hp true _
    · have hpointers : x.pointers = 0 := if_neg hpusi
      rw [if_neg hpusi]
      split
      · next hlast =>
        have hlast : x.payloadEnd = 187 := le_antisymm hroom hlast
        refine ⟨[], [(x.payloadStart - 4, x.stored ++ [])], rfl, ?_, ?_⟩
        · exact full_sent hp (Nat.le_of_eq hlast.symm) (Or.inl hpointers)
        · refine fills_sent [0xff] hp rfl (hroom.trans (Nat.le_succ _)) ?_ rfl
          rw [hlast]
          rfl
      · next hlast =>
        have hroom : x.payloadEnd + 1 ≤ 187 := by
          have : ¬ x.payloadEnd ≥ 187 := hlast
          omega
        have hp' : Pending (x.insertPointer id) := ⟨hlo, Nat.succ_le_succ hle, hroom⟩
        have hinserted : x.stored = (x.insertPointer id).stored := by
          have hread := read_pointed x.tsPacket x.payloadStart (x.payloadEnd - x.payloadStart)
            (UInt8.ofNat (x.payloadEnd - x.payloadStart))
          rw [← Nat.sub_add_comm hle] at hread
          rw [stored_pending hlo, stored_pending (x := x.insertPointer id) hlo, hpointers]
          exact (congrArg (List.drop 1) hread).symm
        have hjoin : TurnFills (x.insertPointer id) [] sec ((x.insertPointer id).join id sec) := put_fills hp' true _
        exact TurnFills.behind (hjoin.of_stored rfl hinserted) rfl
  · rw [if_neg hpending]
    exact ⟨[], [], rfl, fun f hf => absurd hf List.not_mem_nil, fills_none rfl (List.append_nil _).symm rfl⟩

end Turns

theorem flush_fills {x : Sec2tsImpl} (hx : Bounded x) : ∃ fields, Fills x [] [] x.flush.1 x.flush.2 fields := by
  unfold Sec2tsImpl.flush
  by_cases hpending : x.payloadStart ≠ 0
  · have hp := hx.pending hpending
    have hlo := hp.lo
    have hle := hp.le
    have hroom := hp.room
    let stuffing : List UInt8 := List.replicate (188 - x.payloadEnd) 0xff
    have hlength : x.payloadEnd + stuffing.length = 188 := by
      rw [List.length_replicate]
      omega
    have hpacket := congrArg (fun x => [x.tsPacket.read 0 tsPacketLen])
      (fixHeader_write x x.pusi x.payloadAfc (show 4 ≤ x.payloadEnd by omega) stuffing)
    rw [if_pos hpending]
    refine ⟨_, fills_sent stuffing hp rfl (hroom.trans (Nat.le_succ _)) ?_ hpacket⟩
    rw [List.nil_append, hlength]
  · rw [if_neg hpending]
    exact ⟨[], fills_none rfl (List.append_nil _).symm rfl⟩

theorem loop_fills {x y : Sec2tsImpl} {sec : List UInt8} {w : Bool} {fuel : Nat} {evs : List Event} (hx : Idle x)
    (hs : Short x) (h : x.loop wrap8 sec w fuel = some (y, evs)) :
    ∃ fields, Full fields ∧ Fills x (x.returned sec w fuel) sec y evs fields := by
  induction fuel generalizing x sec w evs with
  | zero => exact absurd h (by simp [Sec2tsImpl.loop])
  | succ fuel ih =>
    obtain ⟨heq, hsafe⟩ := @turn_safe x sec hx hs w
    have hfills : TurnFills x [x.adaptation.2] sec (x.turn id sec w) := turn_fills hx hs w
    rw [← heq] at hfills
    rw [Sec2tsImpl.loop_succ] at h
    rw [Sec2tsImpl.returned]
    cases hturn : x.turn wrap8 sec w with
    | done z evs' =>
      rw [hturn] at h hfills
      obtain ⟨rfl, rfl⟩ : z = y ∧ evs' = evs := by simpa [Sec2tsImpl.after] using h
      exact hfills
    | again z sec' w' evs' =>
      rw [hturn] at h hfills hsafe
      obtain ⟨⟨z', evs''⟩, hz, hz'⟩ := Option.map_eq_some_iff.mp h
      obtain ⟨rfl, rfl⟩ := Prod.mk.inj hz'
      obtain ⟨bytes, fields, rfl, hfull, hfields⟩ := hfills
      obtain ⟨fields', hfull', hfields'⟩ := ih hsafe.idle (hs.of_callback hsafe.callback) hz
      exact ⟨fields ++ fields', hfull.append hfull', hfields.trans hfields'⟩

theorem section_fills {x y : Sec2tsImpl} {sec : List UInt8} {fuel : Nat} {evs : List Event} (hx : Bounded x)
    (hs : Short x) (h : x.sectionX sec fuel = some (y, evs)) :
    ∃ fields, Full fields ∧ Fills x (x.returnedBy fuel (.sectionX sec)) sec y evs fields := by
  obtain ⟨heq, hsafe⟩ := @enter_safe x sec hx
  have hfills : TurnFills x [] sec (x.enter id sec) := enter_fills hx
  rw [← heq] at hfills
  rw [Sec2tsImpl.sectionX_eq] at h
  rw [Sec2tsImpl.returnedBy]
  cases hturn : x.enter wrap8 sec with
  | done z evs' =>
    rw [hturn] at h hfills
    obtain ⟨rfl, rfl⟩ : z = y ∧ evs' = evs := by simpa [Sec2tsImpl.after] using h
    exact hfills
  | again z sec' w evs' =>
    rw [hturn] at h hfills hsafe
    obtain ⟨⟨z', evs''⟩, hz, hz'⟩ := Option.map_eq_some_iff.mp h
    obtain ⟨rfl, rfl⟩ := Prod.mk.inj hz'
    obtain ⟨bytes, fields, rfl, hfull, hfields⟩ := hfills
    obtain ⟨fields', hfull', hfields'⟩ := loop_fills hsafe.idle (hs.of_callback hsafe.callback) hz
    exact ⟨fields ++ fields', hfull.append hfull', hfields.trans hfields'⟩

/-- Only `flush` sends packets that are not full. -/
theorem call_fills {x y : Sec2tsImpl} {fuel : Nat} {c : Call} {evs : List Event} (hx : Bounded x) (hs : Short x)
    (h : x.call fuel c = some (y, evs)) : ∃ fields, (c ≠ .flush → Full fields) ∧
      Fills x (x.returnedBy fuel c) (given [c]).flatten y evs fields := by
  cases c with
  | sectionX sec =>
    obtain ⟨fields, hfull, hfields⟩ := section_fills hx hs h
    rw [given_section, given_nil, List.flatten_singleton]
    exact ⟨fields, fun _ => hfull, hfields⟩
  | flush =>
    obtain ⟨rfl, rfl⟩ := Prod.mk.inj (Option.some.inj h)
    obtain ⟨fields, hfields⟩ := flush_fills hx
    exact ⟨fields, fun h => absurd rfl h, hfields⟩
  | setPID pid =>
    obtain ⟨rfl, rfl⟩ := Prod.mk.inj (Option.some.inj h)
    exact ⟨[], fun _ f hf => absurd hf List.not_mem_nil, fills_none rfl (List.append_nil _).symm rfl⟩

/-- The packets of a call hold these bytes, and are full if it is not `flush`. -/
def CallHolds (c : Call) (ps : List (List UInt8)) (fields : List (Nat × List UInt8)) : Prop :=
  List.Forall₂ (fun p f => HoldsBytes p f.1 f.2) ps fields ∧ (c ≠ .flush → Full fields)

theorem run_fills {x z : Sec2tsImpl} {fuel : Nat} {cs : List Call} {traces : List (List Event)} (hx : Bounded x)
    (hs : Short x) (h : runCalls fuel x cs = some (z, traces)) : Bounded z ∧ traces.length = cs.length ∧ ∃ fields,
      List.Forall₂ (fun t fs => CallHolds t.1 (packets t.2) fs) (cs.zip traces) fields ∧
      Fills x (lengths fuel x cs) (given cs).flatten z traces.flatten fields.flatten := by
  induction cs generalizing x traces with
  | nil =>
    obtain ⟨rfl, rfl⟩ := Prod.mk.inj (Option.some.inj h)
    exact ⟨hx, rfl, [], .nil, fills_none rfl (List.append_nil _).symm rfl⟩
  | cons c cs ih =>
    rw [runCalls] at h
    obtain ⟨⟨y, evs⟩, hcall, h⟩ := Option.bind_eq_some_iff.mp h
    obtain ⟨⟨z', traces'⟩, hrun, h⟩ := Option.bind_eq_some_iff.mp h
    obtain ⟨rfl, rfl⟩ : z' = z ∧ evs :: traces' = traces := by simpa using h
    obtain ⟨hsafe, hcb⟩ := call_safe hx hs hcall
    obtain ⟨fs, hfull, hfs⟩ := call_fills hx hs hcall
    obtain ⟨hz, hlength, fields, hholds, hfields⟩ := ih hsafe.bounded (hs.of_callback hcb) hrun
    refine ⟨hz, congrArg (· + 1) hlength, fs :: fields, .cons ⟨hfs.holds, hfull⟩ hholds, ?_⟩
    have hgiven : (given (c :: cs)).flatten = (given [c]).flatten ++ (given cs).flatten := by
      rw [← List.flatten_append, ← given_append, List.singleton_append]
    rw [lengths, hcall, List.flatten_cons, List.flatten_cons, hgiven]
    exact hfs.trans hfields

theorem Bounded.length_stored {x : Sec2tsImpl} (hx : Bounded x) : x.stored.length ≤ 183 := by
  by_cases hpending : x.payloadStart = 0
  · rw [stored_idle hpending]
    exact Nat.zero_le _
  · have hp := hx.pending hpending
    have hlo := hp.lo
    have hroom := hp.room
    have hlength := hp.length_stored
    omega

/-- Whatever calls are made, with a callback that returns at most the size it is given: the packets
of a call have bytes of sections behind the adaptation field, up to one byte as many as there is room
for unless it is `flush`, and all of them together have the given sections up to less than one packet
that is kept back until the next call. -/
theorem packets_filled (cb : Option AdaptationField) (hshort : Short (create cb)) {fuel : Nat} {cs : List Call}
    {x : Sec2tsImpl} {traces : List (List Event)} (hrun : runCalls fuel (create cb) cs = some (x, traces)) :
    traces.length = cs.length ∧ ∃ fields : List (List (Nat × List UInt8)),
      List.Forall₂ (fun t fs => CallHolds t.1 (packets t.2) fs) (cs.zip traces) fields ∧
      fields.flatten.map Prod.fst <+: lengths fuel (create cb) cs ∧
      ∃ kept, (given cs).flatten = (fields.flatten.map Prod.snd).flatten ++ kept ∧ kept.length ≤ 183 ∧
        (cs.getLast? = some .flush → kept = []) := by
  obtain ⟨hx, hlength, fields, hholds, hfields⟩ := run_fills (Idle.bounded ⟨rfl, rfl⟩) hshort hrun
  refine ⟨hlength, fields, hholds, ⟨x.pendingLength, hfields.lengths.symm⟩, x.stored, hfields.bytes, hx.length_stored,
    fun hlast => ?_⟩
  obtain ⟨ds, rfl⟩ := List.getLast?_eq_some_iff.mp hlast
  exact stored_idle (runCalls_flush hrun)

theorem packets_filled_two : ∃ p q first second, HoldsBytes p 182 first ∧ HoldsBytes q 182 second ∧
    (runCalls 4 (create (some fun _ area => (182, area))) [.sectionX [7, 8, 9], .flush]).map (fun r => packets r.2.flatten) =
      some [p, q] ∧ first ++ second = [7, 8, 9] ∧ first ≠ [] ∧ second ≠ [] := by
  have hcounts : (runCalls 4 (create (some fun _ area => (182, area))) [.sectionX [7, 8, 9], .flush]).map
      (fun r => r.2.map fun evs => (packets evs).length) = some [2, 0] := by decide +kernel
  have hlengths : lengths 4 (create (some fun _ area => (182, area))) [.sectionX [7, 8, 9], .flush] = [182, 182] := by
    decide +kernel
  obtain ⟨⟨x, traces⟩, hrun, hcounts⟩ := Option.map_eq_some_iff.mp hcounts
  obtain ⟨hlength, fields, hholds, hprefix, kept, hgiven, -, hkept⟩ := packets_filled (some fun _ area => (182, area))
    (fun cb hcb k area => by cases hcb; exact (by decide : 182 ≤ 184)) hrun
  rw [hkept rfl, List.append_nil] at hgiven
  rw [hlengths] at hprefix
  obtain ⟨evs, evs', rfl⟩ := List.length_eq_two.mp hlength
  obtain ⟨hcount, hcount', -⟩ : (packets evs).length = 2 ∧ (packets evs').length = 0 ∧ True := by simpa using hcounts
  obtain ⟨p, q, hpackets⟩ := List.length_eq_two.mp hcount
  have hpackets' := List.length_eq_zero_iff.mp hcount'
  obtain ⟨fs, fields, ⟨hfs, hfull⟩, htail, rfl⟩ := List.forall₂_cons_left_iff.mp hholds
  obtain ⟨fs', fields, ⟨hfs', -⟩, hnil, rfl⟩ := List.forall₂_cons_left_iff.mp htail
  obtain rfl := List.forall₂_nil_left_iff.mp hnil
  rw [hpackets] at hfs
  rw [hpackets', List.forall₂_nil_left_iff] at hfs'
  obtain ⟨⟨a, first⟩, fs, hfirst, hrest, rfl⟩ := List.forall₂_cons_left_iff.mp hfs
  obtain ⟨⟨b, second⟩, fs, hsecond, hnil, rfl⟩ := List.forall₂_cons_left_iff.mp hrest
  obtain rfl := List.forall₂_nil_left_iff.mp hnil
  obtain ⟨rfl, rfl, -⟩ : a = 182 ∧ b = 182 ∧ True := by simpa [hfs'] using hprefix
  have hroom (bytes : List UInt8) (h : (182, bytes) ∈ [(182, first), (182, second)]) : bytes ≠ [] := by
    have hle : 183 ≤ 182 + bytes.length := hfull (by simp) _ h
    exact List.ne_nil_of_length_pos (by omega)
  refine ⟨p, q, first, second, hfirst, hsecond, ?_, ?_, hroom first (by simp), hroom second (by simp)⟩
  · simp [hrun, packets_append, hpackets, hpackets']
  · simpa [hfs'] using hgiven.symm

end Mopa.Sec2ts
