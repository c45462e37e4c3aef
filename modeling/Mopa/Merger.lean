import Mopa.Lib.Memory

/-! The section extractor of `merger.cpp`: one call of `tsPacket` for every
transport packet. Besides the new state a call returns the trace of its effects:
each byte fetched by position, each `memcpy`, each call of the section callback. -/
namespace Mopa.Merger

def tsPacketLen : Nat := 188

inductive State where
  | waitStart
  | waitMore
  deriving DecidableEq, Repr

/-- What a call does besides changing the extractor's own fields. Packet offsets
are counted from the first byte of the packet, buffer offsets from `data`. -/
inductive Event where
  | fetch (pos : Nat)                            -- a length byte of the packet is read
  | append (dst src : Nat) (bytes : List UInt8)  -- memcpy(data+dst, packet+src, size)
  | compact (src n : Nat)                        -- memcpy(data, data+src, n)
  | sectionReady (pos : Nat) (bytes : List UInt8) -- callback(ctx, data+pos, size)
  deriving DecidableEq, Repr

structure PsiExtractorImpl where
  maxSectionSize : Nat
  callback : Bool          -- a section callback is set
  state : State
  data : Memory UInt8
  dataLen : Nat
  cc : UInt8

/-- The constructor; `data` is the uninitialised buffer of `dataSize` bytes. -/
def create (maxSectionSize : Nat) (data : Memory UInt8) : PsiExtractorImpl where
  maxSectionSize := min maxSectionSize (1 <<< 12)
  callback := false
  state := .waitStart
  data := data
  dataLen := 0
  cc := 0

/-- Bytes allocated for `data`. -/
def PsiExtractorImpl.dataSize (x : PsiExtractorImpl) : Nat := x.maxSectionSize + 184

def PsiExtractorImpl.onSectionReady (x : PsiExtractorImpl) (set : Bool) : PsiExtractorImpl :=
  { x with callback := set }

/-- Section size from header bytes 1 and 2. -/
def dvbSectionLength (b1 b2 : UInt8) : Nat :=
  ((b1.toNat <<< 8 ||| b2.toNat) &&& (1 <<< 12 - 1)) + 3

theorem dvbSectionLength_ge (b1 b2 : UInt8) : 3 ≤ dvbSectionLength b1 b2 := by
  unfold dvbSectionLength; omega

namespace PsiExtractorImpl

/-- The loop at `more_sections`: `secP` is the offset of `sec_p` in `data`. -/
def moreSections (x : PsiExtractorImpl) (secP : Nat) : PsiExtractorImpl × List Event :=
  if 1 ≤ x.dataLen ∧ x.data secP = 0xff then
    -- stuffing: no more sections in this packet
    ({ x with state := .waitStart }, [])
  else if x.dataLen < 3 then
    ({ x with data := x.data.write 0 (x.data.read secP x.dataLen), state := .waitMore },
      [.compact secP x.dataLen])
  else
    let size := dvbSectionLength (x.data (secP+1)) (x.data (secP+2))
    if size > x.maxSectionSize then
      ({ x with state := .waitStart }, [])
    else if x.dataLen ≥ size then
      if x.callback = false then
        ({ x with state := .waitStart }, [])
      else
        let ready := Event.sectionReady secP (x.data.read secP size)
        if x.dataLen - size > 0 then
          let (x', evs) := moreSections { x with dataLen := x.dataLen - size } (secP + size)
          (x', ready :: evs)
        else
          ({ x with dataLen := x.dataLen - size, state := .waitStart }, [ready])
    else
      ({ x with data := x.data.write 0 (x.data.read secP x.dataLen), state := .waitMore },
        [.compact secP x.dataLen])
termination_by x.dataLen
decreasing_by
  have := dvbSectionLength_ge (x.data (secP+1)) (x.data (secP+2))
  show x.dataLen - _ < x.dataLen
  omega

/-- Append the packet from offset `pos` to the buffer, then collect sections. -/
def appendPayload (x : PsiExtractorImpl) (p : Memory UInt8) (pos : Nat) :
    PsiExtractorImpl × List Event :=
  let reminder := tsPacketLen - pos
  let bytes := p.read pos reminder
  let (x', evs) := moreSections
    { x with data := x.data.write x.dataLen bytes, dataLen := x.dataLen + reminder } 0
  (x', .append x.dataLen pos bytes :: evs)

/-- The pointer field at `pos`, when a section starts in the packet. -/
def skipPointer (x : PsiExtractorImpl) (p : Memory UInt8) (pusi : UInt8) (pos : Nat) :
    PsiExtractorImpl × List Event :=
  let reminder := tsPacketLen - pos
  if pusi = 1 then
    match x.state with
    | .waitStart =>
      let ptr := 1 + (p pos).toNat
      if ptr > reminder then
        ({ x with state := .waitStart }, [.fetch pos])
      else
        let (x', evs) := x.appendPayload p (pos + ptr)
        (x', .fetch pos :: evs)
    | .waitMore =>
      -- the bytes in front of the new section belong to the one in progress
      if 1 > reminder then
        ({ x with state := .waitStart }, [])
      else
        x.appendPayload p (pos + 1)
  else
    x.appendPayload p pos

/-- The adaptation field, whose length byte is the fifth of the packet. -/
def skipAdaptation (x : PsiExtractorImpl) (p : Memory UInt8) (pusi afc : UInt8) :
    PsiExtractorImpl × List Event :=
  if afc = 2 ∨ afc = 3 then
    let adaptLen := 1 + (p 4).toNat
    if adaptLen > tsPacketLen - 4 then
      ({ x with state := .waitStart }, [.fetch 4])
    else
      let (x', evs) := x.skipPointer p pusi (4 + adaptLen)
      (x', .fetch 4 :: evs)
  else
    x.skipPointer p pusi 4

/-- One transport packet. -/
def tsPacket (x : PsiExtractorImpl) (p : Memory UInt8) : PsiExtractorImpl × List Event :=
  let pusi := (p 1 >>> 6) &&& 1
  let afc := (p 3 >>> 4) &&& 3
  let cc := p 3 &&& 0xf
  match x.state with
  | .waitStart =>
    if pusi = 0 then
      (x, [])
    else
      { x with dataLen := 0, cc := cc }.skipAdaptation p pusi afc
  | .waitMore =>
    if (x.cc + 1) &&& 0xf ≠ cc then
      ({ x with state := .waitStart }, [])
    else
      { x with cc := (x.cc + 1) &&& 0xf }.skipAdaptation p pusi afc

end PsiExtractorImpl

/-- The effect reaches behind a buffer of `size` bytes. -/
def Event.Overruns (size : Nat) : Event → Prop
  | .fetch _ => False
  | .append dst _ bytes => size < dst + bytes.length
  | .compact src n => size < src + n
  | .sectionReady pos bytes => size < pos + bytes.length

instance (size : Nat) : DecidablePred (Event.Overruns size)
  | .fetch _ => inferInstanceAs (Decidable False)
  | .append .. => inferInstanceAs (Decidable (_ < _))
  | .compact .. => inferInstanceAs (Decidable (_ < _))
  | .sectionReady .. => inferInstanceAs (Decidable (_ < _))

/-- The sections handed to the callback in a trace. -/
def sections (evs : List Event) : List (List UInt8) :=
  evs.filterMap fun
    | .sectionReady _ bytes => some bytes
    | _ => none

end Mopa.Merger
