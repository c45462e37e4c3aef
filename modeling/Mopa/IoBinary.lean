import Mopa.IoContext

/-! Binary input and output: the classes `ibx` and `obx` of `io.cpp`, and the binary
halves of the named blocks of `ix` and `ox`. -/
namespace Mopa.Io

namespace Ibx

def uint8 (bitsize : Nat) (info : Info) : Ibx UInt8 := fun c =>
  if u32 (c.bitpos + bitsize) > c.bitlimit then
    throwX info "left %d bits, needed %d" c
  else
    .ok (c.nocheckUint8 bitsize).1 (c.nocheckUint8 bitsize).2

def uint16 (bitsize : Nat) (info : Info) : Ibx UInt16 := fun c =>
  if u32 (c.bitpos + bitsize) > c.bitlimit then
    throwX info "left %d bits, needed %d" c
  else
    .ok (c.nocheckUint16 bitsize).1 (c.nocheckUint16 bitsize).2

def uint32 (bitsize : Nat) (info : Info) : Ibx UInt32 := fun c =>
  if u32 (c.bitpos + bitsize) > c.bitlimit then
    throwX info "left %d bits, needed %d" c
  else
    .ok (c.nocheckUint32 bitsize).1 (c.nocheckUint32 bitsize).2

def blockBegin (blockLength : Nat) (info : Info) : Ibx Unit := fun c =>
  if c.bitpos % 8 ≠ 0 then
    throwX info "starting bit not byte-aligned" c
  else if u32 (c.bitpos + u32 (blockLength * 8)) > c.bitlimit then
    throwX info "block size %d exceeds available %d" c
  else
    .ok () { c with
      scopeStack := ⟨info, c.bitpos, c.bitlimit⟩ :: c.scopeStack
      bitlimit := u32 (c.bitpos + u32 (blockLength * 8)) }

def blockEnd (info : Info) : Ibx Nat := fun c =>
  match c.scopeStack with
  | [] => throwX info "unmatched named_block_end" c
  | s :: outer =>
    if c.bitpos < c.bitlimit then
      throwX info "block ends with %d bits remaining" c
    else
      let len := sub32 c.bitpos s.bitposAtEnter
      if len % 8 ≠ 0 then
        throwX info "block length not byte-aligned" c
      else
        .ok (len / 8) { c with bitlimit := s.bitlimitAtEnter, scopeStack := outer }

def blockSizeLeft : Ibx Nat := fun c => .ok (sub32 c.bitlimit c.bitpos) c

/-- `ix::named_block_begin` in binary mode. -/
def namedBlockBegin (bitsize : Nat) (info : Info) : Ibx Unit := do
  let length ← uint32 bitsize info
  blockBegin length.toNat info

end Ibx

namespace Obx

def uint8 (bitsize : Nat) (val : UInt8) (info : Info) : Obx Unit := fun c =>
  if u32 (c.bitpos + bitsize) > c.bitlimit then
    throwX info "left %d bits, needed %d" c
  else
    .ok () (c.nocheckUint8 bitsize val)

def uint16 (bitsize : Nat) (val : UInt16) (info : Info) : Obx Unit := fun c =>
  if u32 (c.bitpos + bitsize) > c.bitlimit then
    throwX info "left %d bits, needed %d" c
  else
    .ok () (c.nocheckUint16 bitsize val)

def uint32 (bitsize : Nat) (val : UInt32) (info : Info) : Obx Unit := fun c =>
  if u32 (c.bitpos + bitsize) > c.bitlimit then
    throwX info "left %d bits, needed %d" c
  else if c.bitpos % 8 + bitsize ≤ 32 then
    .ok () (c.nocheckUint32 bitsize val)
  else
    throwX info "value spans over 5 bytes" c

def blockBegin (blockSizeLimit : Nat) (info : Info) : Obx Unit := fun c =>
  let limit := u32 (blockSizeLimit * 8)
  if c.bitpos % 8 ≠ 0 then
    throwX info "starting bit not byte-aligned" c
  else
    let limit := if u32 (c.bitpos + limit) > c.bitlimit then sub32 c.bitlimit c.bitpos else limit
    .ok () { c with
      -- `ox::named_block_begin` sets the position afterwards
      scopeStack := ⟨info, c.bitpos, c.bitlimit, 0⟩ :: c.scopeStack
      bitlimit := u32 (c.bitpos + limit) }

def blockEnd (info : Info) : Obx Nat := fun c =>
  match c.scopeStack with
  | [] => throwX info "unmatched named_block_end" c
  | s :: outer =>
    let len := sub32 c.bitpos s.bitposAtEnter
    if len % 8 ≠ 0 then
      throwX info "block length not byte-aligned" c
    else
      .ok (len / 8) { c with bitlimit := s.bitlimitAtEnter, scopeStack := outer }

def blockSizeLeft : Obx Nat := fun c => .ok (sub32 c.bitlimit c.bitpos) c

def seek (pos : Nat) : Obx Unit := fun c => .ok () { c with bitpos := pos }

/-- `scope_stack.back()` -/
def back : Obx OScope := fun c =>
  match c.scopeStack with
  | [] => .error .undefined c
  | s :: _ => .ok s c

/-- `scope_stack.back().position_for_write=pos` -/
def setPositionForWrite (pos : Nat) : Obx Unit := fun c =>
  match c.scopeStack with
  | [] => .error .undefined c
  | s :: outer => .ok () { c with scopeStack := { s with positionForWrite := pos } :: outer }

/-- `ox::named_block_begin` in binary mode. The greatest length `(1<<bitsize)-1` is computed on
`int`: from 31 bits on that is undefined, and what is taken here is the value modulo 2^32. -/
def namedBlockBegin (bitsize : Nat) (info : Info) : Obx Unit := do
  let pos := (← get).bitpos
  seek (u32 (pos + bitsize))
  blockBegin (u32 (2^bitsize - 1)) info
  setPositionForWrite pos

/-- `ox::named_block_end` in binary mode. -/
def namedBlockEnd (info : Info) : Obx Nat := do
  let s ← back
  let blockLength ← blockEnd info
  let tempPos := (← get).bitpos
  let bitsize := sub32 s.bitposAtEnter s.positionForWrite
  seek s.positionForWrite
  uint32 bitsize (UInt32.ofNat blockLength) info
  seek tempPos
  return blockLength

end Obx

end Mopa.Io
