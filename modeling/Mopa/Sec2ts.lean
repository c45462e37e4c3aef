import Mopa.Lib.Memory

/-! The packetizer of `sec2ts.cpp`. A call returns the new state and the trace of
its effects: copies into the packet buffer and packets handed to the callback.
The loop at `more` has no bound of its own, so calls take fuel and answer `none`
when it runs out. -/
namespace Mopa.Sec2ts

def tsPacketLen : Nat := 188
def afcPayload : UInt8 := 1
def afcAdaptation : UInt8 := 2
def afcAdaptationAndPayload : UInt8 := 3

/-- An adaptation field callback, by the number of its call: it sees the 184 bytes
behind the header and returns a length and what it left in these bytes. -/
abbrev AdaptationField := Nat → (Fin 184 → UInt8) → Nat × (Fin 184 → UInt8)

inductive Event where
  | memmove (dst src n : Nat)
  | memcpy (dst n : Nat)               -- the next `n` bytes of the section
  | memset (dst n : Nat)
  | tsPacketProduced (packet : List UInt8)
  deriving DecidableEq, Repr

structure Sec2tsImpl where
  pid : UInt16
  onAdaptationField : Option AdaptationField
  adaptationCalls : Nat                -- calls of the callback so far
  cc : UInt8
  tsPacket : Memory UInt8
  pusi : Bool
  payloadStart : Nat                   -- uint8_t; 0 when no packet is pending
  payloadEnd : Nat                     -- uint8_t

/-- The constructor, with the adaptation callback set afterwards. -/
def create (onAdaptationField : Option AdaptationField) : Sec2tsImpl where
  pid := 0
  onAdaptationField := onAdaptationField
  adaptationCalls := 0
  cc := 0
  tsPacket := fun _ => 0
  pusi := false
  payloadStart := 0
  payloadEnd := 0

/-- `TS_PACKET_LEN-payload_end` as `uint32_t`. -/
def rem (payloadEnd : Nat) : Nat := (2^32 + tsPacketLen - payloadEnd) % 2^32

namespace Sec2tsImpl

def fixHeader (x : Sec2tsImpl) (payloadUnitStart : Bool) (adaptationValue : UInt8) : Sec2tsImpl :=
  let header : List UInt8 :=
    [0x47, ((if payloadUnitStart then 1 else 0 : UInt8) <<< 6) ||| (x.pid >>> 8).toUInt8, x.pid.toUInt8,
      (adaptationValue <<< 4) ||| x.cc]
  { x with tsPacket := x.tsPacket.write 0 header }

/-- Adaptation control of a packet with payload. -/
def payloadAfc (x : Sec2tsImpl) : UInt8 :=
  if x.payloadStart > 4 then afcAdaptationAndPayload else afcPayload

def produced (x : Sec2tsImpl) : Event := .tsPacketProduced (x.tsPacket.read 0 tsPacketLen)

/-- State behind a packet that carried payload. -/
def next (x : Sec2tsImpl) : Sec2tsImpl :=
  { x with payloadStart := 0, pusi := false, cc := (x.cc + 1) &&& 0xf }

def setPID (x : Sec2tsImpl) (pid : UInt16) : Sec2tsImpl :=
  { x with pid := pid &&& ((1 : UInt16) <<< 13 - 1) }

/-- Ask the callback, if any, for an adaptation field. -/
def adaptation (x : Sec2tsImpl) : Sec2tsImpl × Nat :=
  match x.onAdaptationField with
  | none => (x, 0)
  | some cb =>
    let (adalen, area) := cb x.adaptationCalls fun i => x.tsPacket (4 + i)
    ({ x with
        adaptationCalls := x.adaptationCalls + 1
        tsPacket := x.tsPacket.write 4 (List.ofFn area) }, adalen)

/-- The code from label `more` on; `sec` is what is left of the section. -/
def more (x : Sec2tsImpl) (sec : List UInt8) (wroteSectionStart : Bool) :
    Nat → Option (Sec2tsImpl × List Event)
  | 0 => none
  | fuel+1 =>
    let (x, adalen) := x.adaptation
    let x := { x with payloadStart := (4 + adalen) % 256, payloadEnd := (4 + adalen) % 256 }
    if rem x.payloadEnd ≤ 1 then
      let x := x.fixHeader true afcAdaptation
      ({ x with payloadStart := 0, pusi := false }.more sec wroteSectionStart fuel).map
        fun (y, evs) => (y, x.produced :: evs)
    else
      -- a section starts in this packet, so it needs a pointer field
      let x := if wroteSectionStart then x else
        { x with
          tsPacket := x.tsPacket.write x.payloadEnd [0]
          payloadEnd := (x.payloadEnd + 1) % 256
          pusi := true }
      let rem := rem x.payloadEnd
      if rem > sec.length then
        some ({ x with
          tsPacket := x.tsPacket.write x.payloadEnd sec
          payloadEnd := (x.payloadEnd + sec.length) % 256 },
          [.memcpy x.payloadEnd sec.length])
      else
        let copy := Event.memcpy x.payloadEnd rem
        let x := { x with tsPacket := x.tsPacket.write x.payloadEnd (sec.take rem) }
        let x := x.fixHeader x.pusi x.payloadAfc
        if sec.length - rem = 0 then
          some (x.next, [copy, x.produced])
        else
          (x.next.more (sec.drop rem) true fuel).map
            fun (y, evs) => (y, copy :: x.produced :: evs)

/-- The section goes behind the sections already in the pending packet. -/
def intoPending (x : Sec2tsImpl) (sec : List UInt8) (fuel : Nat) :
    Option (Sec2tsImpl × List Event) :=
  let rem := rem x.payloadEnd
  if rem > sec.length then
    some ({ x with
      tsPacket := x.tsPacket.write x.payloadEnd sec
      payloadEnd := (x.payloadEnd + sec.length) % 256 },
      [.memcpy x.payloadEnd sec.length])
  else
    let copy := Event.memcpy x.payloadEnd rem
    let x := { x with
      tsPacket := x.tsPacket.write x.payloadEnd (sec.take rem)
      payloadEnd := (x.payloadEnd + rem) % 256 }
    let x := x.fixHeader true x.payloadAfc
    if sec.length - rem = 0 then
      some (x.next, [copy, x.produced])
    else
      (x.next.more (sec.drop rem) true fuel).map
        fun (y, evs) => (y, copy :: x.produced :: evs)

/-- `section`, for every debug level. -/
def sectionX (x : Sec2tsImpl) (sec : List UInt8) (fuel : Nat) : Option (Sec2tsImpl × List Event) :=
  if x.payloadStart ≠ 0 then
    if x.pusi then
      x.intoPending sec fuel
    else if x.payloadEnd ≥ tsPacketLen - 1 then
      -- one byte is left: a pointer field there would point outside the packet
      let x := { x with tsPacket := x.tsPacket.write (tsPacketLen - 1) [0xff] }
      let x := x.fixHeader false x.payloadAfc
      (x.next.more sec false fuel).map fun (y, evs) => (y, x.produced :: evs)
    else
      -- the pointer field is inserted in front of the stored bytes
      let n := x.payloadEnd - x.payloadStart
      let move := Event.memmove (x.payloadStart + 1) x.payloadStart n
      let x := { x with
        tsPacket := (x.tsPacket.write (x.payloadStart + 1) (x.tsPacket.read x.payloadStart n)).write
          x.payloadStart [UInt8.ofNat n]
        payloadEnd := (x.payloadEnd + 1) % 256
        pusi := true }
      (x.intoPending sec fuel).map fun (y, evs) => (y, move :: evs)
  else
    x.more sec false fuel

def flush (x : Sec2tsImpl) : Sec2tsImpl × List Event :=
  if x.payloadStart ≠ 0 then
    let n := tsPacketLen - x.payloadEnd
    let x := x.fixHeader x.pusi x.payloadAfc
    let x := { x with tsPacket := x.tsPacket.write x.payloadEnd (List.replicate n 0xff) }
    (x.next, [.memset x.payloadEnd n, x.produced])
  else
    (x, [])

end Sec2tsImpl

/-- The calls a client makes. -/
inductive Call where
  | sectionX (sec : List UInt8)
  | flush
  | setPID (pid : UInt16)
  deriving DecidableEq, Repr

def Sec2tsImpl.call (x : Sec2tsImpl) (fuel : Nat) : Call → Option (Sec2tsImpl × List Event)
  | .sectionX sec => x.sectionX sec fuel
  | .flush => some x.flush
  | .setPID pid => some (x.setPID pid, [])

/-- A run of calls: the final state and the trace of each call. -/
def runCalls (fuel : Nat) (x : Sec2tsImpl) : List Call → Option (Sec2tsImpl × List (List Event))
  | [] => some (x, [])
  | c :: cs => do
    let (y, evs) ← x.call fuel c
    let (z, traces) ← runCalls fuel y cs
    return (z, evs :: traces)

/-- The packets produced in a trace. -/
def packets (evs : List Event) : List (List UInt8) :=
  evs.filterMap fun
    | .tsPacketProduced p => some p
    | _ => none

/-- Numbers of the packets into which a trace copies section bytes, when `k`
packets were produced before it. -/
def copiedInto (k : Nat) : List Event → List Nat
  | [] => []
  | .memcpy _ n :: evs => if n > 0 then k :: copiedInto k evs else copiedInto k evs
  | .tsPacketProduced _ :: evs => copiedInto (k+1) evs
  | _ :: evs => copiedInto k evs

end Mopa.Sec2ts
