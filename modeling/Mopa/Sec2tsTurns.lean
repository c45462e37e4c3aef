import Mopa.Sec2ts

/-! The packetizer turn by turn. What a call does before the loop and what one turn of
the loop does are single steps here; the 8-bit counters are kept by `wrap`, so that the
code can be compared with counters that have no bound. -/
namespace Mopa.Sec2ts

/-- The call ends, or the loop goes on with what is left of the section. -/
inductive Turn where
  | done (x : Sec2tsImpl) (evs : List Event)
  | again (x : Sec2tsImpl) (sec : List UInt8) (wroteSectionStart : Bool) (evs : List Event)

def Turn.behind (e : Event) : Turn → Turn
  | done x evs => done x (e :: evs)
  | again x sec w evs => again x sec w (e :: evs)

def wrap8 (n : Nat) : Nat := n % 256

namespace Sec2tsImpl

/-- What the packet has room for goes behind the stored bytes. A full packet goes out, and
the counter is then `e`. -/
def put (wrap : Nat → Nat) (x : Sec2tsImpl) (u : Bool) (e : Nat) (sec : List UInt8) : Turn :=
  let rem := rem x.payloadEnd
  if rem > sec.length then
    .done { x with
      tsPacket := x.tsPacket.write x.payloadEnd sec
      payloadEnd := wrap (x.payloadEnd + sec.length) } [.memcpy x.payloadEnd sec.length]
  else
    let copy := Event.memcpy x.payloadEnd rem
    let x := { x with tsPacket := x.tsPacket.write x.payloadEnd (sec.take rem), payloadEnd := e }
    let x := x.fixHeader u x.payloadAfc
    if sec.length - rem = 0 then
      .done x.next [copy, x.produced]
    else
      .again x.next (sec.drop rem) true [copy, x.produced]

def pointer (wrap : Nat → Nat) (x : Sec2tsImpl) : Sec2tsImpl :=
  { x with
    tsPacket := x.tsPacket.write x.payloadEnd [0]
    payloadEnd := wrap (x.payloadEnd + 1)
    pusi := true }

def begin (wrap : Nat → Nat) (x : Sec2tsImpl) : Sec2tsImpl :=
  { x.adaptation.1 with
    payloadStart := wrap (4 + x.adaptation.2)
    payloadEnd := wrap (4 + x.adaptation.2) }

/-- One turn of the loop at `more`. -/
def turn (wrap : Nat → Nat) (x : Sec2tsImpl) (sec : List UInt8) (wroteSectionStart : Bool) : Turn :=
  let x := x.begin wrap
  if rem x.payloadEnd ≤ 1 then
    let x := x.fixHeader true afcAdaptation
    .again { x with payloadStart := 0, pusi := false } sec wroteSectionStart [x.produced]
  else
    let x := if wroteSectionStart then x else x.pointer wrap
    x.put wrap x.pusi x.payloadEnd sec

/-- The section goes behind the sections already in the pending packet. -/
def join (wrap : Nat → Nat) (x : Sec2tsImpl) (sec : List UInt8) : Turn :=
  x.put wrap true (wrap (x.payloadEnd + rem x.payloadEnd)) sec

/-- A pointer field in front of the bytes that are already stored. -/
def insertPointer (wrap : Nat → Nat) (x : Sec2tsImpl) : Sec2tsImpl :=
  let n := x.payloadEnd - x.payloadStart
  { x with
    tsPacket := (x.tsPacket.write (x.payloadStart + 1) (x.tsPacket.read x.payloadStart n)).write
      x.payloadStart [UInt8.ofNat n]
    payloadEnd := wrap (x.payloadEnd + 1)
    pusi := true }

/-- What `section` does before the loop. -/
def enter (wrap : Nat → Nat) (x : Sec2tsImpl) (sec : List UInt8) : Turn :=
  if x.payloadStart ≠ 0 then
    if x.pusi then
      x.join wrap sec
    else if x.payloadEnd ≥ tsPacketLen - 1 then
      let x := { x with tsPacket := x.tsPacket.write (tsPacketLen - 1) [0xff] }
      let x := x.fixHeader false x.payloadAfc
      .again x.next sec false [x.produced]
    else
      let move := Event.memmove (x.payloadStart + 1) x.payloadStart (x.payloadEnd - x.payloadStart)
      ((x.insertPointer wrap).join wrap sec).behind move
  else
    .again x sec false []

def loop (wrap : Nat → Nat) (x : Sec2tsImpl) (sec : List UInt8) (w : Bool) : Nat → Option (Sec2tsImpl × List Event)
  | 0 => none
  | fuel+1 =>
    match x.turn wrap sec w with
    | .done y evs => some (y, evs)
    | .again y sec w evs => (y.loop wrap sec w fuel).map fun (z, evs') => (z, evs ++ evs')

def after (wrap : Nat → Nat) (fuel : Nat) : Turn → Option (Sec2tsImpl × List Event)
  | .done y evs => some (y, evs)
  | .again y sec w evs => (y.loop wrap sec w fuel).map fun (z, evs') => (z, evs ++ evs')

def filled (x : Sec2tsImpl) (u : Bool) (e : Nat) (bs : List UInt8) : Sec2tsImpl :=
  let x := { x with tsPacket := x.tsPacket.write x.payloadEnd bs, payloadEnd := e }
  x.fixHeader u x.payloadAfc

theorem put_fits {x : Sec2tsImpl} {sec : List UInt8} (h : rem x.payloadEnd > sec.length) (wrap : Nat → Nat) (u : Bool)
    (e : Nat) : x.put wrap u e sec = .done { x with
      tsPacket := x.tsPacket.write x.payloadEnd sec
      payloadEnd := wrap (x.payloadEnd + sec.length) } [.memcpy x.payloadEnd sec.length] := if_pos h

theorem put_full {x : Sec2tsImpl} {sec : List UInt8} (h : ¬ rem x.payloadEnd > sec.length) (wrap : Nat → Nat) (u : Bool)
    (e : Nat) : x.put wrap u e sec =
      let y := x.filled u e (sec.take (rem x.payloadEnd))
      if sec.length - rem x.payloadEnd = 0 then
        .done y.next [.memcpy x.payloadEnd (rem x.payloadEnd), y.produced]
      else
        .again y.next (sec.drop (rem x.payloadEnd)) true [.memcpy x.payloadEnd (rem x.payloadEnd), y.produced] := if_neg h

theorem loop_succ (wrap : Nat → Nat) (x : Sec2tsImpl) (sec : List UInt8) (w : Bool) (fuel : Nat) :
    x.loop wrap sec w (fuel+1) = after wrap fuel (x.turn wrap sec w) := by
  rw [loop]
  cases x.turn wrap sec w with
  | done => rfl
  | again => rfl

theorem after_behind (wrap : Nat → Nat) (fuel : Nat) (e : Event) (t : Turn) :
    after wrap fuel (t.behind e) = (after wrap fuel t).map fun (y, evs) => (y, e :: evs) := by
  cases t with
  | done => rfl
  | again y sec w evs =>
    simp only [Turn.behind, after, Option.map_map]
    rfl

theorem after_put {fuel : Nat} (hmore : ∀ y sec w, more y sec w fuel = y.loop wrap8 sec w fuel) (x : Sec2tsImpl)
    (u : Bool) (e : Nat) (sec : List UInt8) :
    after wrap8 fuel (x.put wrap8 u e sec) =
      if rem x.payloadEnd > sec.length then
        some ({ x with
          tsPacket := x.tsPacket.write x.payloadEnd sec
          payloadEnd := (x.payloadEnd + sec.length) % 256 }, [.memcpy x.payloadEnd sec.length])
      else
        let copy := Event.memcpy x.payloadEnd (rem x.payloadEnd)
        let y := { x with tsPacket := x.tsPacket.write x.payloadEnd (sec.take (rem x.payloadEnd)), payloadEnd := e }
        let y := y.fixHeader u y.payloadAfc
        if sec.length - rem x.payloadEnd = 0 then
          some (y.next, [copy, y.produced])
        else
          (y.next.more (sec.drop (rem x.payloadEnd)) true fuel).map fun (z, evs) => (z, copy :: y.produced :: evs) := by
  unfold put
  dsimp only
  split
  · rfl
  · split
    · rfl
    · rw [after, hmore]
      rfl

/-- The loop of the code is the loop of turns with 8-bit counters. -/
theorem more_eq (x : Sec2tsImpl) (sec : List UInt8) (w : Bool) (fuel : Nat) :
    x.more sec w fuel = x.loop wrap8 sec w fuel := by
  induction fuel generalizing x sec w with
  | zero => rfl
  | succ fuel ih =>
    rw [loop_succ, more, turn]
    dsimp only
    by_cases hfull : rem ((4 + x.adaptation.2) % 256) ≤ 1
    · rw [if_pos hfull, if_pos (show rem (x.begin wrap8).payloadEnd ≤ 1 from hfull), after, ← ih]
      rfl
    · rw [if_neg hfull, if_neg (show ¬ rem (x.begin wrap8).payloadEnd ≤ 1 from hfull), after_put ih]
      rfl

theorem intoPending_turn (x : Sec2tsImpl) (sec : List UInt8) (fuel : Nat) :
    x.intoPending sec fuel = after wrap8 fuel (x.join wrap8 sec) := by
  rw [join, after_put fun y sec w => more_eq y sec w fuel]
  rfl

/-- A call of `section` is the step before the loop and the loop. -/
theorem sectionX_eq (x : Sec2tsImpl) (sec : List UInt8) (fuel : Nat) :
    x.sectionX sec fuel = after wrap8 fuel (x.enter wrap8 sec) := by
  unfold sectionX enter
  by_cases hpending : x.payloadStart ≠ 0
  · rw [if_pos hpending, if_pos hpending]
    by_cases hpusi : x.pusi = true
    · rw [if_pos hpusi, if_pos hpusi, intoPending_turn]
    · rw [if_neg hpusi, if_neg hpusi]
      by_cases hlast : x.payloadEnd ≥ tsPacketLen - 1
      · rw [if_pos hlast, if_pos hlast, after, ← more_eq]
        rfl
      · rw [if_neg hlast, if_neg hlast]
        dsimp only
        rw [intoPending_turn, after_behind]
        rfl
  · rw [if_neg hpending, if_neg hpending, after, more_eq]
    cases x.loop wrap8 sec false fuel with
    | none => rfl
    | some r => rfl

end Sec2tsImpl

end Mopa.Sec2ts
