import Mopa.Iox
import Mopa.Crc

/-! Strings, lists and checksums, `commontypes.cpp` and `commontypes.h`. The strings take an
`iox_info` that may be null. -/
namespace Mopa.Io

/-- `empty_info` of `Exception::Exception`, in place of a null pointer. -/
def emptyInfo : Info := ⟨chars "-unknown-", 0⟩

namespace Icx

/-- How a quoted string ends. -/
inductive Quoted where
  | closed (str rest : List UInt8)
  | refused (message : String) (rest : List UInt8)
  | overread
  deriving DecidableEq, Repr

def isOctal (ch : UInt8) : Bool := 48 ≤ ch && ch ≤ 55

/-- Characters that a backslash takes as they are: quote, backslash, CR and LF. -/
def isEscaped (ch : UInt8) : Bool := ch == 39 || ch == 92 || ch == 13 || ch == 10

def illegalChar : String := "Illegal char `\\%3.3o`"

/-- The loop of `parse_string`, behind the opening quote. -/
def unquote (s : List UInt8) : List UInt8 → Quoted
  | [] => .overread
  | ch :: text =>
    if ch = 39 then .closed s text
    else if ch = 92 then
      match text with
      | [] => .overread
      | c1 :: text =>
        if isEscaped c1 then unquote (s ++ [c1]) text
        else if !isOctal c1 then .refused illegalChar text
        else
          match text with
          | [] => .overread
          | c2 :: text =>
            if !isOctal c2 then .refused illegalChar text
            else
              match text with
              | [] => .overread
              | c3 :: text =>
                if !isOctal c3 then .refused illegalChar text
                else
                  let val := ((c1.toNat - 48) * 8 + (c2.toNat - 48)) * 8 + (c3.toNat - 48)
                  if val > 255 then .refused "Value too big" text
                  else unquote (s ++ [UInt8.ofNat val]) text
    else if 32 ≤ ch ∧ ch < 127 then unquote (s ++ [ch]) text
    else .refused illegalChar text

/-- Name, colon and opening quote are passed over where they agree with the text. Without an
`iox_info` the name is empty. -/
def parseString (info : Option Info) : Icx (List UInt8) := fun c =>
  if c.bitpos % 8 ≠ 0 then throwX (info.getD emptyInfo) "String '%s' not byte-aligned" c
  else (do
    discard (expect (info.elim [] Info.name))
    discard (expect (chars ":"))
    discard (expect (chars "'"))
    fun c =>
      match unquote [] c.parsePos with
      | .closed s rest => .ok s { c with parsePos := rest }
      | .refused message rest => throwX (info.getD emptyInfo) message { c with parsePos := rest }
      | .overread => .error .undefined c) c

end Icx

namespace OcCtx

def quoteChar (ch : UInt8) : List UInt8 :=
  if Icx.isEscaped ch then [92, ch]
  else if 32 ≤ ch ∧ ch < 127 then [ch]
  else [92, (48 : UInt8) + ((ch >>> 6) &&& 7), (48 : UInt8) + ((ch >>> 3) &&& 7), (48 : UInt8) + (ch &&& 7)]

def stringLine (depth : Nat) (str : List UInt8) (info : Info) : List UInt8 :=
  indent depth ++ info.name ++ chars ":'" ++ (str.flatMap quoteChar ++ chars "'\n")

end OcCtx

/-- The loop counts the characters in an `int`, up to a length of 32 bits. The name is read
through the pointer without a look at it. -/
def Ocx.produceString (str : List UInt8) (info : Option Info) : Ocx Unit := fun c =>
  let len := u32 str.length
  if c.bitpos % 8 ≠ 0 then throwX (info.getD emptyInfo) "String '%s' not byte-aligned" c
  else if len ≥ 2^31 then .error .undefined c
  else
    match info with
    | none => .error .undefined c
    | some info => .ok () (c.append (OcCtx.stringLine c.scopeStack.length (str.take len) info))

/-- The bytes at the position, read past without a check. -/
def Ibx.takeBytes (len : Nat) : Ibx (List UInt8) := fun c =>
  .ok (c.data.read (c.bitpos / 8) len) { c with bitpos := u32 (c.bitpos + len * 8) }

/-- The bytes go to the position, written without a check. -/
def Obx.putBytes (str : List UInt8) : Obx Unit := fun c =>
  .ok () { c with
    data := c.data.write (c.bitpos / 8) str
    bitpos := u32 (c.bitpos + u32 (str.length * 8)) }

/-- Move the position by a number of bytes, if they are within the limit. -/
def Icx.skipBytes (len : Nat) (info : Option Info) : Icx Unit := fun c =>
  if u32 (c.bitpos + len * 8) > c.bitlimit then
    throwX (info.getD emptyInfo) "String '%s' requires %d bytes length, only %d bytes available" c
  else
    .ok () { c with bitpos := u32 (c.bitpos + len * 8) }

def Ocx.skipBytes (len : Nat) : Ocx Unit := fun c =>
  .ok () { c with bitpos := u32 (c.bitpos + u32 (len * 8)) }

namespace Iox

def shortStringIo : {m : Mode} → List UInt8 → Option Info → Iox m (List UInt8)
  | .parseBinary, _, info => fun c =>
    if c.bitpos % 8 ≠ 0 then throwX (info.getD emptyInfo) "String '%s' not byte-aligned" c
    else (do
      let len ← Ibx.uint8 8 (info.getD emptyInfo)
      fun c =>
        if u32 (c.bitpos + len.toNat * 8) > c.bitlimit then
          throwX (info.getD emptyInfo) "String '%s' is %d length, only %d bits available" c
        else
          Ibx.takeBytes len.toNat c) c
  | .parseText, _, info => do
    let str ← Icx.parseString info
    Icx.skipBytes ((1 + str.length) % 256) info
    return str
  | .constructBinary, str, info => fun c =>
    let len := u32 str.length
    if c.bitpos % 8 ≠ 0 then throwX (info.getD emptyInfo) "String '%s' not byte-aligned" c
    else if len > 255 then throwX (info.getD emptyInfo) "String '%s' length %d exceeds max 255 chars" c
    else if u32 (c.bitpos + u32 ((len + 1) * 8)) > c.bitlimit then
      throwX (info.getD emptyInfo) "String '%s' requires %d bytes length, only %d bytes available" c
    else (do
      Obx.uint8 8 (UInt8.ofNat len) (info.getD emptyInfo)
      Obx.putBytes (str.take len)
      return str) c
  | .constructText, str, info => fun c =>
    let len := u32 str.length
    if len > 255 then throwX (info.getD emptyInfo) "String '%s' length %d exceeds max 255 chars" c
    else if u32 (c.bitpos + u32 ((len + 1) * 8)) > c.bitlimit then
      throwX (info.getD emptyInfo) "String '%s' requires %d bytes length, only %d bytes available" c
    else (do
      Ocx.produceString str info
      Ocx.skipBytes (len + 1)
      return str) c

/-- In binary parsing only the low byte of the number of characters counts. -/
def fixedStringIo (numChars : Nat) : {m : Mode} → List UInt8 → Option Info → Iox m (List UInt8)
  | .parseBinary, _, info => fun c =>
    let len := numChars % 256
    if c.bitpos % 8 ≠ 0 then throwX (info.getD emptyInfo) "String '%s' not byte-aligned" c
    else if u32 (c.bitpos + len * 8) > c.bitlimit then
      throwX (info.getD emptyInfo) "String '%s' is %d length, only %d bytes available" c
    else
      Ibx.takeBytes len c
  | .parseText, _, info => do
    let str ← Icx.parseString info
    Icx.skipBytes (str.length % 256) info
    return str
  | .constructBinary, str, info => fun c =>
    let len := u32 str.length
    if c.bitpos % 8 ≠ 0 then throwX (info.getD emptyInfo) "String '%s' not byte-aligned" c
    else if str.length ≠ numChars then throwX (info.getD emptyInfo) "String '%s' must be %d long" c
    else if u32 (c.bitpos + u32 (len * 8)) > c.bitlimit then
      throwX (info.getD emptyInfo) "String '%s' requires %d bytes length, only %d bytes available" c
    else (do
      Obx.putBytes (str.take len)
      return str) c
  | .constructText, str, info => fun c =>
    let len := u32 str.length
    if len ≠ numChars then throwX (info.getD emptyInfo) "String '%s' must be %d long" c
    else if u32 (c.bitpos + u32 (len * 8)) > c.bitlimit then
      throwX (info.getD emptyInfo) "String '%s' requires %d bytes length, only %d bytes available" c
    else (do
      Ocx.produceString str info
      Ocx.skipBytes str.length
      return str) c

theorem shortStringIo_named {m : Mode} (hm : m.isBinary = true) (str : List UInt8) (info : Option Info) :
    shortStringIo (m := m) str info = shortStringIo str (some (info.getD emptyInfo)) := by
  cases m with
  | parseBinary => rfl
  | constructBinary => rfl
  | parseText => cases hm
  | constructText => cases hm

/-- Read items as long as something is left in the block. An item is read into
a fresh one; the loop takes fuel. -/
def parseItems {α : Type} {m : Mode} (fresh : α) (io : α → Iox m α) : Nat → List α → Iox m (List α)
  | 0, _ => throw .fuel
  | fuel+1, list => do
    if (← blockSizeLeft) > 0 then
      let item ← io fresh
      parseItems fresh io fuel (list ++ [item])
    else
      return list

def constructItems {α : Type} {m : Mode} (io : α → Iox m α) : List α → Iox m (List α)
  | [] => return []
  | item :: list => do
    let item ← io item
    let list ← constructItems io list
    return item :: list

def vectorIo {α : Type} {m : Mode} (fuel : Nat) (fresh : α) (io : α → Iox m α) (list : List α) :
    Iox m (List α) :=
  if m.isParsing then parseItems fresh io fuel [] else constructItems io list

def crcAligned {m : Mode} (startedAt : Nat) (info : Info) : Iox m Unit := do
  if startedAt % 8 ≠ 0 then throwX info "CRC block was not started at byte aligned"
  if (← bitpos) % 8 ≠ 0 then throwX info "CRC not byte aligned"

/-- A checksum over the bytes since `startedAt`: checked in binary parsing, computed in
binary construction, and a number like any other in text modes. -/
def crcIo (startedAt : Nat) : {m : Mode} → UInt32 → Info → Iox m UInt32
  | .parseBinary, crc, info => do
    crcAligned startedAt info
    let c ← get
    let crcCalculated := dvbCrc32 (c.data.read (startedAt / 8) (sub32 c.bitpos startedAt / 8))
    let crc ← uint32 32 crc info
    if crcCalculated ≠ crc then throwX info "CRC mismatch. read=%8.8x,calculated=%8.8x"
    return crc
  | .parseText, crc, info => do
    crcAligned startedAt info
    uint32 32 crc info
  | .constructBinary, _, info => do
    crcAligned startedAt info
    let c ← get
    uint32 32 (dvbCrc32 (c.data.read (startedAt / 8) (sub32 c.bitpos startedAt / 8))) info
  | .constructText, crc, info => do
    crcAligned startedAt info
    uint32 32 crc info

/-- Compute the checksum again when the lengths in front of it are filled in. -/
def crcLateFix (startedAt crcPos : Nat) : {m : Mode} → UInt32 → Info → Iox m UInt32
  | .constructBinary, _, info => do
    crcAligned startedAt info
    let c ← get
    let crc := dvbCrc32 (c.data.read (startedAt / 8) (sub32 crcPos startedAt / 8))
    let savedPos := c.bitpos
    Obx.seek crcPos
    Obx.uint32 32 crc info
    Obx.seek savedPos
    return crc
  | .parseBinary, crc, info => do
    crcAligned startedAt info
    return crc
  | .parseText, crc, info => do
    crcAligned startedAt info
    return crc
  | .constructText, crc, info => do
    crcAligned startedAt info
    return crc

/-- `named_block_begin` and `named_block_end` around a body; the length is the one
that `named_block_end` returns. -/
def namedBlock {α : Type} {m : Mode} (bitsize : Nat) (info endInfo : Info) (body : Iox m α) :
    Iox m (Nat × α) := do
  namedBlockBegin bitsize info
  let a ← body
  let length ← namedBlockEnd endInfo
  return (length, a)

end Iox

end Mopa.Io
