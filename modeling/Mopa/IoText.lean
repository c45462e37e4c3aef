import Mopa.IoContext
import Mopa.Lib.Numeral

/-! Text input and output: `icCtx`, `ocCtx`, `icx` and `ocx` of `io.cpp`, and the
text halves of the named blocks of `ix` and `ox`. Texts are lists of characters. -/
namespace Mopa.Io

/-- The bytes of a literal. -/
def chars (s : String) : List UInt8 := s.toList.map fun ch => UInt8.ofNat ch.toNat

/-- `std::string(scope_stack.size()*2,' ')` -/
def indent (depth : Nat) : List UInt8 := List.replicate (depth * 2) 32

namespace IcCtx

def skipBlanks : List UInt8 → List UInt8
  | [] => []
  | ch :: rest => if ch = 9 ∨ ch = 10 ∨ ch = 32 then skipBlanks rest else ch :: rest

/-- Move along as far as the text agrees with `req`; `none` behind the end of the text. -/
def follow : List UInt8 → List UInt8 → Option (List UInt8 × Bool)
  | text, [] => some (text, true)
  | [], _ :: _ => none
  | ch :: text, r :: req => if ch = r then follow text req else some (ch :: text, false)

/-- How a run of digits ends. -/
inductive Digits where
  | value (v : Nat) (rest : List UInt8)
  | exceeds (rest : List UInt8)         -- 32 bits are exceeded
  | overread
  deriving DecidableEq, Repr

/-- The loop of `read_dec`, `read_hex` and `read_bin`. -/
def readDigits (base : Nat) (digit : UInt8 → Option Nat) : Nat → List UInt8 → Digits
  | value, text =>
    if value ≥ 2^32 then
      .exceeds text
    else
      match text with
      | [] => .overread
      | ch :: rest =>
        match digit ch with
        | some d => readDigits base digit (value * base + d) rest
        | none => .value value (ch :: rest)
termination_by _ text => text.length

def decDigit (ch : UInt8) : Option Nat :=
  if 48 ≤ ch ∧ ch ≤ 57 then some (ch.toNat - 48) else none

def binDigit (ch : UInt8) : Option Nat :=
  if 48 ≤ ch ∧ ch ≤ 49 then some (ch.toNat - 48) else none

/-- A letter counts from 0 on. -/
def hexDigit (ch : UInt8) : Option Nat :=
  if 48 ≤ ch ∧ ch ≤ 57 then some (ch.toNat - 48)
  else if 65 ≤ ch ∧ ch ≤ 70 then some (ch.toNat - 65)
  else if 97 ≤ ch ∧ ch ≤ 102 then some (ch.toNat - 97)
  else none

end IcCtx

namespace Icx
open IcCtx

def skiptotoken : Icx Bool := fun c =>
  match skipBlanks c.parsePos with
  | [] => .error .undefined c
  | ch :: rest => .ok (ch ≠ 0) { c with parsePos := ch :: rest }

def expect (req : List UInt8) : Icx Bool := do
  discard skiptotoken
  fun c =>
    match follow c.parsePos req with
    | none => .error .undefined c
    | some (rest, all) => .ok all { c with parsePos := rest }

/-- `*(parse_pos+n)` -/
def charAt (n : Nat) : Icx UInt8 := fun c =>
  match c.parsePos[n]? with
  | none => .error .undefined c
  | some ch => .ok ch c

def advance (n : Nat) : Icx Unit := fun c => .ok () { c with parsePos := c.parsePos.drop n }

def readNumber (base : Nat) (digit : UInt8 → Option Nat) (message : String) (bitsize : Nat)
    (info : Info) : Icx Nat := fun c =>
  match readDigits base digit 0 c.parsePos with
  | .overread => .error .undefined c
  | .exceeds rest => throwX info "value exceeds 32 bit" { c with parsePos := rest }
  | .value v rest =>
    if v ≥ 2^bitsize then
      throwX info message { c with parsePos := rest }
    else
      .ok v { c with parsePos := rest }

def readHex (bitsize : Nat) (info : Info) : Icx Nat :=
  readNumber 16 hexDigit "value %x exceeds %d bit" bitsize info

def readBin (bitsize : Nat) (info : Info) : Icx Nat :=
  readNumber 2 binDigit "value %d exceeds %d bit" bitsize info

def readDec (bitsize : Nat) (info : Info) : Icx Nat :=
  readNumber 10 decDigit "value %d exceeds %d bits" bitsize info

def readUint (bitsize : Nat) (info : Info) : Icx Nat := do
  unless ← expect info.name do throwX info "'%s' expected"
  unless ← expect (chars ":") do throwX info "':' expected"
  discard skiptotoken
  if (← charAt 0) = 48 then
    if (← charAt 1) = 120 then
      advance 2
      return ← readHex bitsize info
    if (← charAt 1) = 98 then
      advance 2
      return ← readBin bitsize info
  readDec bitsize info

/-- `enter_scope`; a missing brace is not noticed. -/
def enterScope : Icx Unit := discard (expect (chars "\x7b"))

def leaveScope : Icx Unit := discard (expect (chars "\x7d"))

def uint (bitsize : Nat) (info : Info) : Icx UInt32 := do
  let value ← readUint bitsize info
  modify fun c => { c with bitpos := u32 (c.bitpos + bitsize) }
  return UInt32.ofNat value

def blockBegin (blockLength : Nat) (info : Info) : Icx Unit := do
  let c ← get
  if c.bitpos % 8 ≠ 0 then
    throwX info "starting bit not byte-aligned"
  else if u32 (c.bitpos + u32 (blockLength * 8)) > c.bitlimit then
    throwX info "block size %d exceeds available %d"
  else
    enterScope
    modify fun c => { c with
      scopeStack := ⟨info, c.bitpos, c.bitlimit⟩ :: c.scopeStack
      bitlimit := u32 (c.bitpos + u32 (blockLength * 8)) }

def blockEnd (info : Info) : Icx Nat := do
  match (← get).scopeStack with
  | [] => throwX info "unmatched named_block_end"
  | s :: outer =>
    leaveScope
    let c ← get
    let len := sub32 c.bitpos s.bitposAtEnter
    if len % 8 ≠ 0 then
      throwX info "block length not byte-aligned"
    else
      set { c with bitlimit := s.bitlimitAtEnter, scopeStack := outer }
      return len / 8

/-- Nothing is left in front of a closing brace or at the end of the text. -/
def blockSizeLeft : Icx Nat := do
  if ← skiptotoken then
    if (← charAt 0) = 125 then
      return 0
    let c ← get
    return sub32 c.bitlimit c.bitpos
  else
    return 0

/-- `ix::named_block_begin` in text mode. -/
def namedBlockBegin (bitsize : Nat) (info : Info) : Icx Unit := do
  let length ← uint bitsize info
  blockBegin length.toNat info

end Icx

namespace OcCtx

def append (c : OcCtx) (text : List UInt8) : OcCtx := { c with prod := c.prod ++ text }

/-- `sprintf(buf,"%d",value)` -/
def decimal (value : Nat) : List UInt8 :=
  if value < 2^31 then Numeral.text 10 10 value else 45 :: Numeral.text 10 10 (2^32 - value)

/-- `write_bin`: a set bit gives the character 0. -/
def binary (bitsize value : Nat) : List UInt8 :=
  (Bits.ofNat bitsize value).map fun b => if b then 48 else 49

def hexadecimal (value : Nat) : List UInt8 := chars "0x" ++ Numeral.text 16 8 value

/-- The number after the colon, by the format hint. -/
def number (bitsize value : Nat) (info : Info) : List UInt8 :=
  if info.hint &&& formatHintMask = formatHintHex then hexadecimal value
  else if info.hint &&& formatHintMask = formatHintBin then binary bitsize value
  else decimal value

def uintLine (depth bitsize value : Nat) (info : Info) : List UInt8 :=
  indent depth ++ info.name ++ chars ":" ++ number bitsize value info ++ chars "\n"

end OcCtx

namespace Ocx
open OcCtx

def writeUint (bitsize value : Nat) (info : Info) : Ocx Unit := fun c =>
  if bitsize < 32 ∧ value > 2^bitsize - 1 then
    throwX info "value %d exceeds %d bits" c
  else
    .ok () (c.append (uintLine c.scopeStack.length bitsize value info))

def enterScope : Ocx Unit := modify fun c => c.append (indent c.scopeStack.length ++ chars "\x7b\n")

def leaveScope : Ocx Unit := modify fun c => c.append (indent c.scopeStack.length ++ chars "\x7d\n")

def uint (bitsize : Nat) (val : UInt32) (info : Info) : Ocx Unit := do
  let c ← get
  if u32 (c.bitpos + bitsize) > c.bitlimit then
    throwX info "left %d bits, needed %d"
  else
    writeUint bitsize val.toNat info
    modify fun c => { c with bitpos := u32 (c.bitpos + bitsize) }

def blockBegin (blockSizeLimit : Nat) (info : Info) : Ocx Unit := do
  let c ← get
  let limit := u32 (blockSizeLimit * 8)
  if c.bitpos % 8 ≠ 0 then
    throwX info "block begin is not byte-aligned"
  else
    let limit := if u32 (c.bitpos + limit) > c.bitlimit then sub32 c.bitlimit c.bitpos else limit
    enterScope
    modify fun c => { c with
      -- `ox::named_block_begin` sets the position afterwards
      scopeStack := ⟨info, c.bitpos, c.bitlimit, 0⟩ :: c.scopeStack
      bitlimit := u32 (c.bitpos + limit) }

def blockEnd (info : Info) : Ocx Nat := do
  let c ← get
  match c.scopeStack with
  | [] => throw .undefined
  | s :: outer =>
    let blockLength := sub32 c.bitpos s.bitposAtEnter
    if blockLength % 8 ≠ 0 then
      throwX info "block length not byte-aligned"
    else
      set { c with bitlimit := s.bitlimitAtEnter, scopeStack := outer }
      leaveScope
      return blockLength / 8

def blockSizeLeft : Ocx Nat := fun c => .ok (sub32 c.bitlimit c.bitpos) c

/-- `scope_stack.back().position_for_write=pos` -/
def setPositionForWrite (pos : Nat) : Ocx Unit := fun c =>
  match c.scopeStack with
  | [] => .error .undefined c
  | s :: outer => .ok () { c with scopeStack := { s with positionForWrite := pos } :: outer }

/-- `ox::named_block_begin` in text mode, with the same greatest length as in binary mode. -/
def namedBlockBegin (bitsize : Nat) (info : Info) : Ocx Unit := do
  -- `uint32_t pos`: the offset wraps in texts of 4 GiB
  let pos := u32 (← get).prod.length
  modify fun c => { c with bitpos := u32 (c.bitpos + bitsize) }
  blockBegin (u32 (2^bitsize - 1)) info
  setPositionForWrite pos

/-- `ox::named_block_end` in text mode: the length line goes in front of the block. -/
def namedBlockEnd (info : Info) : Ocx Nat := do
  match (← get).scopeStack with
  | [] => throw .undefined
  | s :: _ =>
    let blockLength ← blockEnd info
    let tail := (← get).prod.drop s.positionForWrite
    modify fun c => { c with prod := c.prod.take s.positionForWrite }
    writeUint 32 blockLength s.info
    modify fun c => c.append tail
    return blockLength

end Ocx

end Mopa.Io
