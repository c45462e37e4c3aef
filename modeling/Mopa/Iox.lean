import Mopa.IoBinary
import Mopa.IoText

/-! The class `iox`: one set of operations for the four modes. A variable that is
passed by reference is an argument and a result. -/
namespace Mopa.Io

def IbCtx.create (data : Memory UInt8) (size : Nat) : IbCtx where
  bitpos := 0
  bitlimit := u32 (size * 8)
  data := data
  scopeStack := []

def ObCtx.create (data : Memory UInt8) (size : Nat) : ObCtx where
  bitpos := 0
  bitlimit := u32 (size * 8)
  data := data
  scopeStack := []

def IcCtx.create (text : List UInt8) : IcCtx where
  bitpos := 0
  bitlimit := 8 * 1000000
  scopeStack := []
  parsePos := text ++ [0]

def OcCtx.create : OcCtx where
  bitpos := 0
  bitlimit := 8 * 1000000
  scopeStack := []
  prod := []

namespace Iox

def bitpos : {m : Mode} → Iox m Nat
  | .parseBinary => fun c => .ok c.bitpos c
  | .parseText => fun c => .ok c.bitpos c
  | .constructBinary => fun c => .ok c.bitpos c
  | .constructText => fun c => .ok c.bitpos c

def uint8 : {m : Mode} → Nat → UInt8 → Info → Iox m UInt8
  | .parseBinary, bitsize, _, info => Ibx.uint8 bitsize info
  | .parseText, bitsize, _, info => do return (← Icx.uint bitsize info).toUInt8
  | .constructBinary, bitsize, val, info => do
    Obx.uint8 bitsize val info
    return val
  | .constructText, bitsize, val, info => do
    Ocx.uint bitsize val.toUInt32 info
    return val

def uint16 : {m : Mode} → Nat → UInt16 → Info → Iox m UInt16
  | .parseBinary, bitsize, _, info => do return (← Ibx.uint32 bitsize info).toUInt16
  | .parseText, bitsize, _, info => do return (← Icx.uint bitsize info).toUInt16
  | .constructBinary, bitsize, val, info => do
    Obx.uint16 bitsize val info
    return val
  | .constructText, bitsize, val, info => do
    Ocx.uint bitsize val.toUInt32 info
    return val

def uint32 : {m : Mode} → Nat → UInt32 → Info → Iox m UInt32
  | .parseBinary, bitsize, _, info => Ibx.uint32 bitsize info
  | .parseText, bitsize, _, info => Icx.uint bitsize info
  | .constructBinary, bitsize, val, info => do
    Obx.uint32 bitsize val info
    return val
  | .constructText, bitsize, val, info => do
    Ocx.uint bitsize val info
    return val

/-- `uint_req`: a parsed value has to be the required one. -/
def require {α : Type} [DecidableEq α] {m : Mode} (uint : α → Iox m α) (val : α) (info : Info) :
    Iox m Unit := do
  let v ← uint val
  if m.isParsing ∧ v ≠ val then throwX info "%d read %d required"

def uintReq8 {m : Mode} (bitsize : Nat) (val : UInt8) (info : Info) : Iox m Unit :=
  require (fun v => uint8 bitsize v info) val info

def uintReq16 {m : Mode} (bitsize : Nat) (val : UInt16) (info : Info) : Iox m Unit :=
  require (fun v => uint16 bitsize v info) val info

def uintReq32 {m : Mode} (bitsize : Nat) (val : UInt32) (info : Info) : Iox m Unit :=
  require (fun v => uint32 bitsize v info) val info

/-- `uint_req` with an int. -/
def uintReq {m : Mode} (bitsize : Nat) (val : Nat) (info : Info) : Iox m Unit :=
  if bitsize ≤ 8 then uintReq8 bitsize (UInt8.ofNat val) info
  else if bitsize ≤ 16 then uintReq16 bitsize (UInt16.ofNat val) info
  else uintReq32 bitsize (UInt32.ofNat val) info

def namedBlockBegin : {m : Mode} → Nat → Info → Iox m Unit
  | .parseBinary, bitsize, info => Ibx.namedBlockBegin bitsize info
  | .parseText, bitsize, info => Icx.namedBlockBegin bitsize info
  | .constructBinary, bitsize, info => Obx.namedBlockBegin bitsize info
  | .constructText, bitsize, info => Ocx.namedBlockBegin bitsize info

def namedBlockEnd : {m : Mode} → Info → Iox m Nat
  | .parseBinary, info => Ibx.blockEnd info
  | .parseText, info => Icx.blockEnd info
  | .constructBinary, info => Obx.namedBlockEnd info
  | .constructText, info => Ocx.namedBlockEnd info

def blockSizeLeft : {m : Mode} → Iox m Nat
  | .parseBinary => Ibx.blockSizeLeft
  | .parseText => Icx.blockSizeLeft
  | .constructBinary => Obx.blockSizeLeft
  | .constructText => Ocx.blockSizeLeft

end Iox

end Mopa.Io
