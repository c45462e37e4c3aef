import Mopa.Lib.Bits
import Mopa.Lib.Outcome

/-! The contexts of `io.h` for the four modes, with the bit routines that check
nothing. Positions are `uint32_t`; int expressions are 32-bit words. -/
namespace Mopa.Io

/-- Sums and products of positions wrap. -/
def u32 (n : Nat) : Nat := n % 2^32

/-- A difference of positions wraps. -/
def sub32 (a b : Nat) : Nat := (2^32 + a - b) % 2^32

/-- `iox_info`; `file` and `line` appear in the text of exceptions only. -/
structure Info where
  name : List UInt8
  hint : Nat
  deriving DecidableEq, Repr

def formatHintMask : Nat := 0xf
def formatHintHex : Nat := 0x1
def formatHintBin : Nat := 0x2

/-- The ways in which an operation does not return. -/
inductive Halt where
  | exception (info : Info) (message : String)  -- `mopa::Exception`, message before formatting
  | undefined                                   -- behaviour that the language leaves undefined
  | fuel                                        -- more loop turns than the model was given
  deriving DecidableEq, Repr

inductive Mode where
  | parseBinary
  | parseText
  | constructBinary
  | constructText
  deriving DecidableEq, Repr

def Mode.isParsing : Mode → Bool
  | .parseBinary | .parseText => true
  | .constructBinary | .constructText => false

def Mode.isBinary : Mode → Bool
  | .parseBinary | .constructBinary => true
  | .parseText | .constructText => false

/-- `ibScope`, `icScope` -/
structure IScope where
  info : Info
  bitposAtEnter : Nat
  bitlimitAtEnter : Nat
  deriving DecidableEq, Repr

/-- `obScope`, `ocScope` -/
structure OScope where
  info : Info
  bitposAtEnter : Nat
  bitlimitAtEnter : Nat
  positionForWrite : Nat
  deriving DecidableEq, Repr

structure IbCtx where
  bitpos : Nat
  bitlimit : Nat
  data : Memory UInt8
  scopeStack : List IScope       -- innermost first

structure IcCtx where
  bitpos : Nat
  bitlimit : Nat
  scopeStack : List IScope
  parsePos : List UInt8          -- from `parse_pos` up to the terminating 0

structure ObCtx where
  bitpos : Nat
  bitlimit : Nat
  data : Memory UInt8
  scopeStack : List OScope

structure OcCtx where
  bitpos : Nat
  bitlimit : Nat
  scopeStack : List OScope
  prod : List UInt8

abbrev Ctx : Mode → Type
  | .parseBinary => IbCtx
  | .parseText => IcCtx
  | .constructBinary => ObCtx
  | .constructText => OcCtx

/-- Operations in one mode. A failed operation keeps the context it reached. -/
abbrev Iox (m : Mode) (α : Type) := EStateM Halt (Ctx m) α
abbrev Ibx (α : Type) := EStateM Halt IbCtx α
abbrev Icx (α : Type) := EStateM Halt IcCtx α
abbrev Obx (α : Type) := EStateM Halt ObCtx α
abbrev Ocx (α : Type) := EStateM Halt OcCtx α

def throwX {σ α : Type} (info : Info) (message : String) : EStateM Halt σ α := fun c =>
  .error (.exception info message) c

/-- A byte in an int expression. -/
def int8 (b : UInt8) : BitVec 32 := b.toBitVec.setWidth 32

/-- The low byte of an int expression. -/
def byte (x : BitVec 32) : UInt8 := ⟨x.setWidth 8⟩

namespace IbCtx

def nocheckUint8 (c : IbCtx) (bitsize : Nat) : UInt8 × IbCtx :=
  let i := c.bitpos / 8
  let s := c.bitpos % 8
  let val :=
    if s + bitsize ≤ 8 then
      -- fast route
      byte (((int8 (c.data i) <<< s) &&& 0xff) >>> (8 - bitsize))
    else
      byte (((((int8 (c.data i) <<< 8) ||| int8 (c.data (i+1))) <<< s) &&& 0xffff) >>> (16 - bitsize))
  (val, { c with bitpos := u32 (c.bitpos + bitsize) })

def nocheckUint16 (c : IbCtx) (bitsize : Nat) : UInt16 × IbCtx :=
  let i := c.bitpos / 8
  let s := c.bitpos % 8
  let val : BitVec 32 :=
    if s + bitsize ≤ 16 then
      -- fast route
      let tmp := (int8 (c.data i) <<< 8) ||| int8 (c.data (i+1))
      ((tmp <<< s) &&& 0xffff) >>> (16 - bitsize)
    else
      let tmp := (int8 (c.data i) <<< 16) ||| (int8 (c.data (i+1)) <<< 8) ||| int8 (c.data (i+2))
      ((tmp <<< s) &&& 0xffffff) >>> (24 - bitsize)
  (⟨val.setWidth 16⟩, { c with bitpos := u32 (c.bitpos + bitsize) })

/-- A field over five bytes is not read: the value is 0 and the position stays. -/
def nocheckUint32 (c : IbCtx) (bitsize : Nat) : UInt32 × IbCtx :=
  let i := c.bitpos / 8
  let s := c.bitpos % 8
  if s + bitsize ≤ 32 then
    -- fast route
    let tmp := (int8 (c.data i) <<< 24) ||| (int8 (c.data (i+1)) <<< 16) |||
      (int8 (c.data (i+2)) <<< 8) ||| int8 (c.data (i+3))
    (⟨(tmp <<< s) >>> (32 - bitsize)⟩, { c with bitpos := u32 (c.bitpos + bitsize) })
  else
    (0, c)

end IbCtx

namespace ObCtx

def nocheckUint8 (c : ObCtx) (bitsize : Nat) (val : UInt8) : ObCtx :=
  let i := c.bitpos / 8
  let s := c.bitpos % 8
  let data :=
    if s + bitsize ≤ 8 then
      -- fast route
      let mask : BitVec 8 := ((1#32 <<< bitsize) - 1).setWidth 8
      let lshift := 8 - s - bitsize
      c.data.write i [byte
        ((int8 (c.data i) &&& ~~~(mask.setWidth 32 <<< lshift)) ||| (int8 val <<< lshift))]
    else
      let tmp : BitVec 16 := ((int8 (c.data i) <<< 8) ||| int8 (c.data (i+1))).setWidth 16
      let mask : BitVec 16 := ((1#32 <<< bitsize) - 1).setWidth 16
      let lshift := 16 - s - bitsize
      let tmp : BitVec 16 :=
        ((tmp.setWidth 32 &&& ~~~(mask.setWidth 32 <<< lshift)) ||| (int8 val <<< lshift)).setWidth 16
      c.data.write i [byte (tmp.setWidth 32 >>> 8), byte (tmp.setWidth 32 &&& 0xff)]
  { c with data := data, bitpos := u32 (c.bitpos + bitsize) }

def nocheckUint16 (c : ObCtx) (bitsize : Nat) (val : UInt16) : ObCtx :=
  let i := c.bitpos / 8
  let s := c.bitpos % 8
  let v : BitVec 32 := val.toBitVec.setWidth 32
  let data :=
    if s + bitsize ≤ 16 then
      -- fast route
      let mask : BitVec 16 := ((1#32 <<< bitsize) - 1).setWidth 16
      let lshift := 16 - s - bitsize
      let tmp : BitVec 16 := ((int8 (c.data i) <<< 8) ||| int8 (c.data (i+1))).setWidth 16
      let tmp : BitVec 16 :=
        ((tmp.setWidth 32 &&& ~~~(mask.setWidth 32 <<< lshift)) ||| (v <<< lshift)).setWidth 16
      c.data.write i [byte (tmp.setWidth 32 >>> 8), byte (tmp.setWidth 32 &&& 0xff)]
    else
      let tmp := (int8 (c.data i) <<< 16) ||| (int8 (c.data (i+1)) <<< 8) ||| int8 (c.data (i+2))
      let mask : BitVec 32 := (1#32 <<< bitsize) - 1
      let lshift := 24 - s - bitsize
      let tmp := (tmp &&& ~~~(mask <<< lshift)) ||| (v <<< lshift)
      c.data.write i [byte (tmp >>> 16), byte (tmp >>> 8), byte (tmp &&& 0xff)]
  { c with data := data, bitpos := u32 (c.bitpos + bitsize) }

def nocheckUint32 (c : ObCtx) (bitsize : Nat) (val : UInt32) : ObCtx :=
  let i := c.bitpos / 8
  let s := c.bitpos % 8
  if s + bitsize ≤ 32 then
    -- fast route
    let mask : BitVec 32 := (2#32 <<< (bitsize - 1)) - 1
    let lshift := 32 - s - bitsize
    let tmp := (int8 (c.data i) <<< 24) ||| (int8 (c.data (i+1)) <<< 16) |||
      (int8 (c.data (i+2)) <<< 8) ||| int8 (c.data (i+3))
    let tmp := (tmp &&& ~~~(mask <<< lshift)) ||| (val.toBitVec <<< lshift)
    { c with
      data := c.data.write i [byte (tmp >>> 24), byte (tmp >>> 16), byte (tmp >>> 8), byte tmp]
      bitpos := u32 (c.bitpos + bitsize) }
  else
    c

end ObCtx

end Mopa.Io
