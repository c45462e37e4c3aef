import Mopa.FieldAccess
import Mopa.Lib.Buffer

/-! Which bytes of the buffer the bit routines touch. They load and store as many bytes as the
variable has, also where the field has fewer bits, and the checks of `ibx` and `obx` look at
the bits of the field only. -/
namespace Mopa.Io
open Outcome Buffer

namespace IbBuffer

/-- `ibCtx::nocheck_uint8` -/
def nocheckUint8 (bitpos bitsize : Nat) : Buffer UInt8 UInt8 := do
  let i := bitpos / 8
  let s := bitpos % 8
  if s + bitsize ≤ 8 then
    -- fast route
    let d0 ← load i
    return byte (((int8 d0 <<< s) &&& 0xff) >>> (8 - bitsize))
  else
    let d0 ← load i
    let d1 ← load (i+1)
    return byte (((((int8 d0 <<< 8) ||| int8 d1) <<< s) &&& 0xffff) >>> (16 - bitsize))

/-- `ibCtx::nocheck_uint16` -/
def nocheckUint16 (bitpos bitsize : Nat) : Buffer UInt8 UInt16 := do
  let i := bitpos / 8
  let s := bitpos % 8
  if s + bitsize ≤ 16 then
    -- fast route
    let d0 ← load i
    let d1 ← load (i+1)
    let tmp := (int8 d0 <<< 8) ||| int8 d1
    return ⟨(((tmp <<< s) &&& 0xffff) >>> (16 - bitsize)).setWidth 16⟩
  else
    let d0 ← load i
    let d1 ← load (i+1)
    let d2 ← load (i+2)
    let tmp := (int8 d0 <<< 16) ||| (int8 d1 <<< 8) ||| int8 d2
    return ⟨(((tmp <<< s) &&& 0xffffff) >>> (24 - bitsize)).setWidth 16⟩

/-- `ibCtx::nocheck_uint32` -/
def nocheckUint32 (bitpos bitsize : Nat) : Buffer UInt8 UInt32 := do
  let i := bitpos / 8
  let s := bitpos % 8
  if s + bitsize ≤ 32 then
    -- fast route
    let d0 ← load i
    let d1 ← load (i+1)
    let d2 ← load (i+2)
    let d3 ← load (i+3)
    let tmp := (int8 d0 <<< 24) ||| (int8 d1 <<< 16) ||| (int8 d2 <<< 8) ||| int8 d3
    return ⟨(tmp <<< s) >>> (32 - bitsize)⟩
  else
    return 0

def nocheckUint : (var : Variable) → Nat → Nat → Buffer UInt8 var.Word
  | .uint8, bitpos, bitsize => nocheckUint8 bitpos bitsize
  | .uint16, bitpos, bitsize => nocheckUint16 bitpos bitsize
  | .uint32, bitpos, bitsize => nocheckUint32 bitpos bitsize

end IbBuffer

namespace ObBuffer

/-- `obCtx::nocheck_uint` with a `uint8_t` -/
def nocheckUint8 (bitpos bitsize : Nat) (val : UInt8) : Buffer UInt8 Unit := do
  let i := bitpos / 8
  let s := bitpos % 8
  if s + bitsize ≤ 8 then
    -- fast route
    let mask : BitVec 8 := ((1#32 <<< bitsize) - 1).setWidth 8
    let lshift := 8 - s - bitsize
    let d0 ← load i
    store i (byte ((int8 d0 &&& ~~~(mask.setWidth 32 <<< lshift)) ||| (int8 val <<< lshift)))
  else
    let d0 ← load i
    let d1 ← load (i+1)
    let tmp : BitVec 16 := ((int8 d0 <<< 8) ||| int8 d1).setWidth 16
    let mask : BitVec 16 := ((1#32 <<< bitsize) - 1).setWidth 16
    let lshift := 16 - s - bitsize
    let tmp : BitVec 16 :=
      ((tmp.setWidth 32 &&& ~~~(mask.setWidth 32 <<< lshift)) ||| (int8 val <<< lshift)).setWidth 16
    store i (byte (tmp.setWidth 32 >>> 8))
    store (i+1) (byte (tmp.setWidth 32 &&& 0xff))

/-- `obCtx::nocheck_uint` with a `uint16_t` -/
def nocheckUint16 (bitpos bitsize : Nat) (val : UInt16) : Buffer UInt8 Unit := do
  let i := bitpos / 8
  let s := bitpos % 8
  let v : BitVec 32 := val.toBitVec.setWidth 32
  if s + bitsize ≤ 16 then
    -- fast route
    let mask : BitVec 16 := ((1#32 <<< bitsize) - 1).setWidth 16
    let lshift := 16 - s - bitsize
    let d0 ← load i
    let d1 ← load (i+1)
    let tmp : BitVec 16 := ((int8 d0 <<< 8) ||| int8 d1).setWidth 16
    let tmp : BitVec 16 :=
      ((tmp.setWidth 32 &&& ~~~(mask.setWidth 32 <<< lshift)) ||| (v <<< lshift)).setWidth 16
    store i (byte (tmp.setWidth 32 >>> 8))
    store (i+1) (byte (tmp.setWidth 32 &&& 0xff))
  else
    let d0 ← load i
    let d1 ← load (i+1)
    let d2 ← load (i+2)
    let tmp := (int8 d0 <<< 16) ||| (int8 d1 <<< 8) ||| int8 d2
    let mask : BitVec 32 := (1#32 <<< bitsize) - 1
    let lshift := 24 - s - bitsize
    let tmp := (tmp &&& ~~~(mask <<< lshift)) ||| (v <<< lshift)
    store i (byte (tmp >>> 16))
    store (i+1) (byte (tmp >>> 8))
    store (i+2) (byte (tmp &&& 0xff))

/-- `obCtx::nocheck_uint` with a `uint32_t` -/
def nocheckUint32 (bitpos bitsize : Nat) (val : UInt32) : Buffer UInt8 Unit := do
  let i := bitpos / 8
  let s := bitpos % 8
  if s + bitsize ≤ 32 then
    -- fast route
    let mask : BitVec 32 := (2#32 <<< (bitsize - 1)) - 1
    let lshift := 32 - s - bitsize
    let d0 ← load i
    let d1 ← load (i+1)
    let d2 ← load (i+2)
    let d3 ← load (i+3)
    let tmp := (int8 d0 <<< 24) ||| (int8 d1 <<< 16) ||| (int8 d2 <<< 8) ||| int8 d3
    let tmp := (tmp &&& ~~~(mask <<< lshift)) ||| (val.toBitVec <<< lshift)
    store i (byte (tmp >>> 24))
    store (i+1) (byte (tmp >>> 16))
    store (i+2) (byte (tmp >>> 8))
    store (i+3) (byte tmp)
  else
    return ()

def nocheckUint : (var : Variable) → Nat → Nat → var.Word → Buffer UInt8 Unit
  | .uint8, bitpos, bitsize, val => nocheckUint8 bitpos bitsize val
  | .uint16, bitpos, bitsize, val => nocheckUint16 bitpos bitsize val
  | .uint32, bitpos, bitsize, val => nocheckUint32 bitpos bitsize val

end ObBuffer

/-- How many bytes the routine touches, from the byte of the position on. -/
def touched : Variable → Nat → Nat
  | .uint8, bits => if bits ≤ 8 then 1 else 2
  | .uint16, bits => if bits ≤ 16 then 2 else 3
  | .uint32, bits => if bits ≤ 32 then 4 else 0

section Accesses
variable {data : List UInt8} {bitpos w : Nat}

theorem read_safe (var : Variable) : Safe (IbBuffer.nocheckUint var bitpos w) data ↔
    touched var (bitpos % 8 + w) = 0 ∨ bitpos / 8 + touched var (bitpos % 8 + w) ≤ data.length := by
  cases var with
  | uint8 =>
    by_cases h : bitpos % 8 + w ≤ 8
    · simp only [IbBuffer.nocheckUint, IbBuffer.nocheckUint8, touched, if_pos h, safe_load_bind (0 : UInt8), safe_return, and_true]
      omega
    · simp only [IbBuffer.nocheckUint, IbBuffer.nocheckUint8, touched, if_neg h, safe_load_bind (0 : UInt8), safe_return, and_true]
      omega
  | uint16 =>
    by_cases h : bitpos % 8 + w ≤ 16
    · simp only [IbBuffer.nocheckUint, IbBuffer.nocheckUint16, touched, if_pos h, safe_load_bind (0 : UInt8), safe_return, and_true]
      omega
    · simp only [IbBuffer.nocheckUint, IbBuffer.nocheckUint16, touched, if_neg h, safe_load_bind (0 : UInt8), safe_return, and_true]
      omega
  | uint32 =>
    by_cases h : bitpos % 8 + w ≤ 32
    · simp only [IbBuffer.nocheckUint, IbBuffer.nocheckUint32, touched, if_pos h, safe_load_bind (0 : UInt8), safe_return, and_true]
      omega
    · simp only [IbBuffer.nocheckUint, IbBuffer.nocheckUint32, touched, if_neg h, safe_return, true_or]

theorem write_safe (var : Variable) (val : var.Word) : Safe (ObBuffer.nocheckUint var bitpos w val) data ↔
    touched var (bitpos % 8 + w) = 0 ∨ bitpos / 8 + touched var (bitpos % 8 + w) ≤ data.length := by
  cases var with
  | uint8 =>
    by_cases h : bitpos % 8 + w ≤ 8
    · simp only [ObBuffer.nocheckUint, ObBuffer.nocheckUint8, touched, if_pos h, safe_load_bind (0 : UInt8), safe_store]
      omega
    · simp only [ObBuffer.nocheckUint, ObBuffer.nocheckUint8, touched, if_neg h, safe_load_bind (0 : UInt8), safe_store_bind,
        safe_store, List.length_set]
      omega
  | uint16 =>
    by_cases h : bitpos % 8 + w ≤ 16
    · simp only [ObBuffer.nocheckUint, ObBuffer.nocheckUint16, touched, if_pos h, safe_load_bind (0 : UInt8), safe_store_bind,
        safe_store, List.length_set]
      omega
    · simp only [ObBuffer.nocheckUint, ObBuffer.nocheckUint16, touched, if_neg h, safe_load_bind (0 : UInt8), safe_store_bind,
        safe_store, List.length_set]
      omega
  | uint32 =>
    by_cases h : bitpos % 8 + w ≤ 32
    · simp only [ObBuffer.nocheckUint, ObBuffer.nocheckUint32, touched, if_pos h, safe_load_bind (0 : UInt8), safe_store_bind,
        safe_store, List.length_set]
      omega
    · simp only [ObBuffer.nocheckUint, ObBuffer.nocheckUint32, touched, if_neg h, safe_return, true_or]

end Accesses

/-- `ibx::uint8`, `ibx::uint16` and `ibx::uint32` -/
def Ibx.uint : (var : Variable) → Nat → Info → Ibx var.Word
  | .uint8, bitsize, info => Ibx.uint8 bitsize info
  | .uint16, bitsize, info => Ibx.uint16 bitsize info
  | .uint32, bitsize, info => Ibx.uint32 bitsize info

/-- `obx::uint` -/
def Obx.uint : (var : Variable) → Nat → var.Word → Info → Obx Unit
  | .uint8, bitsize, val, info => Obx.uint8 bitsize val info
  | .uint16, bitsize, val, info => Obx.uint16 bitsize val info
  | .uint32, bitsize, val, info => Obx.uint32 bitsize val info

def IbCtx.nocheckUint (c : IbCtx) : (var : Variable) → Nat → var.Word × IbCtx
  | .uint8, bitsize => c.nocheckUint8 bitsize
  | .uint16, bitsize => c.nocheckUint16 bitsize
  | .uint32, bitsize => c.nocheckUint32 bitsize

def ObCtx.nocheckUint (c : ObCtx) : (var : Variable) → Nat → var.Word → ObCtx
  | .uint8, bitsize, val => c.nocheckUint8 bitsize val
  | .uint16, bitsize, val => c.nocheckUint16 bitsize val
  | .uint32, bitsize, val => c.nocheckUint32 bitsize val

section Checked
variable {var : Variable} {w : Nat} {info : Info}

theorem ibx_uint_eq_ok {c c' : IbCtx} {v : var.Word} : Ibx.uint var w info c = .ok v c' ↔
    u32 (c.bitpos + w) ≤ c.bitlimit ∧ c.nocheckUint var w = (v, c') := by
  have hchecked : Ibx.uint var w info c = if u32 (c.bitpos + w) > c.bitlimit then
      throwX info "left %d bits, needed %d" c
    else .ok (c.nocheckUint var w).1 (c.nocheckUint var w).2 := by
    cases var with
    | uint8 => rfl
    | uint16 => rfl
    | uint32 => rfl
  rw [hchecked]
  split
  · next hlimit =>
    exact ⟨fun h => (by cases h), fun h => absurd h.1 (Nat.not_le.mpr hlimit)⟩
  · next hlimit =>
    constructor
    · intro h
      injection h with hv hc
      exact ⟨Nat.le_of_not_lt hlimit, Prod.ext hv hc⟩
    · rintro ⟨-, h⟩
      rw [h]

theorem obx_uint_ok {c c' : ObCtx} {val : var.Word} (h : Obx.uint var w val info c = .ok () c') :
    u32 (c.bitpos + w) ≤ c.bitlimit ∧ c.nocheckUint var w val = c' := by
  cases var with
  | uint8 =>
    have h : Obx.uint8 w val info c = .ok () c' := h
    unfold Obx.uint8 at h
    split at h
    · cases h
    · next hlimit =>
      injection h with _ hc
      exact ⟨Nat.le_of_not_lt hlimit, hc⟩
  | uint16 =>
    have h : Obx.uint16 w val info c = .ok () c' := h
    unfold Obx.uint16 at h
    split at h
    · cases h
    · next hlimit =>
      injection h with _ hc
      exact ⟨Nat.le_of_not_lt hlimit, hc⟩
  | uint32 =>
    have h : Obx.uint32 w val info c = .ok () c' := h
    unfold Obx.uint32 at h
    split at h
    · cases h
    · next hlimit =>
      split at h
      · injection h with _ hc
        exact ⟨Nat.le_of_not_lt hlimit, hc⟩
      · cases h

end Checked

section Agreement
variable {data : List UInt8} {w : Nat}

theorem read_inside (c : IbCtx) (var : Variable) (hc : c.data = memory 0 data)
    (h : Safe (IbBuffer.nocheckUint var c.bitpos w) data) :
    IbBuffer.nocheckUint var c.bitpos w data = some ((c.nocheckUint var w).1, data) := by
  have hin := (read_safe var).mp h
  cases var with
  | uint8 =>
    simp only [IbBuffer.nocheckUint, IbBuffer.nocheckUint8, IbCtx.nocheckUint, IbCtx.nocheckUint8, hc]
    by_cases hspan : c.bitpos % 8 + w ≤ 8
    · simp only [touched, if_pos hspan] at hin
      rw [if_pos hspan, if_pos hspan, load_bind 0 (by omega)]
      rfl
    · simp only [touched, if_neg hspan] at hin
      rw [if_neg hspan, if_neg hspan, load_bind 0 (by omega), load_bind 0 (by omega)]
      rfl
  | uint16 =>
    simp only [IbBuffer.nocheckUint, IbBuffer.nocheckUint16, IbCtx.nocheckUint, IbCtx.nocheckUint16, hc]
    by_cases hspan : c.bitpos % 8 + w ≤ 16
    · simp only [touched, if_pos hspan] at hin
      rw [if_pos hspan, if_pos hspan, load_bind 0 (by omega), load_bind 0 (by omega)]
      rfl
    · simp only [touched, if_neg hspan] at hin
      rw [if_neg hspan, if_neg hspan, load_bind 0 (by omega), load_bind 0 (by omega), load_bind 0 (by omega)]
      rfl
  | uint32 =>
    simp only [IbBuffer.nocheckUint, IbBuffer.nocheckUint32, IbCtx.nocheckUint, IbCtx.nocheckUint32, hc]
    by_cases hspan : c.bitpos % 8 + w ≤ 32
    · simp only [touched, if_pos hspan] at hin
      rw [if_pos hspan, if_pos hspan, load_bind 0 (by omega), load_bind 0 (by omega), load_bind 0 (by omega),
        load_bind 0 (by omega)]
      rfl
    · rw [if_neg hspan, if_neg hspan]
      rfl

theorem write_inside (c : ObCtx) (var : Variable) (val : var.Word) (hc : c.data = memory 0 data)
    (h : Safe (ObBuffer.nocheckUint var c.bitpos w val) data) :
    ∃ data', ObBuffer.nocheckUint var c.bitpos w val data = some ((), data') ∧
      (c.nocheckUint var w val).data = memory 0 data' := by
  have hin := (write_safe var val).mp h
  cases var with
  | uint8 =>
    simp only [ObBuffer.nocheckUint, ObBuffer.nocheckUint8, ObCtx.nocheckUint, ObCtx.nocheckUint8, hc]
    by_cases hspan : c.bitpos % 8 + w ≤ 8
    · simp only [touched, if_pos hspan] at hin
      simp only [if_pos hspan]
      rw [load_bind 0 (by omega), store_run (by omega)]
      exact ⟨_, rfl, (memory_set 0 (by omega)).symm⟩
    · simp only [touched, if_neg hspan] at hin
      simp only [if_neg hspan]
      rw [load_bind 0 (by omega), load_bind 0 (by omega), store_bind (by omega), store_run (by simp; omega)]
      refine ⟨_, rfl, ?_⟩
      rw [memory_set 0 (by simp; omega), memory_set 0 (by omega)]
      exact Memory.write_cons _ _ _ _
  | uint16 =>
    simp only [ObBuffer.nocheckUint, ObBuffer.nocheckUint16, ObCtx.nocheckUint, ObCtx.nocheckUint16, hc]
    by_cases hspan : c.bitpos % 8 + w ≤ 16
    · simp only [touched, if_pos hspan] at hin
      simp only [if_pos hspan]
      rw [load_bind 0 (by omega), load_bind 0 (by omega), store_bind (by omega), store_run (by simp; omega)]
      refine ⟨_, rfl, ?_⟩
      rw [memory_set 0 (by simp; omega), memory_set 0 (by omega)]
      exact Memory.write_cons _ _ _ _
    · simp only [touched, if_neg hspan] at hin
      simp only [if_neg hspan]
      rw [load_bind 0 (by omega), load_bind 0 (by omega), load_bind 0 (by omega), store_bind (by omega),
        store_bind (by simp; omega), store_run (by simp; omega)]
      refine ⟨_, rfl, ?_⟩
      rw [memory_set 0 (by simp; omega), memory_set 0 (by simp; omega), memory_set 0 (by omega)]
      exact (Memory.write_cons _ _ _ _).trans (Memory.write_cons _ _ _ _)
  | uint32 =>
    simp only [ObBuffer.nocheckUint, ObBuffer.nocheckUint32, ObCtx.nocheckUint, ObCtx.nocheckUint32, hc]
    by_cases hspan : c.bitpos % 8 + w ≤ 32
    · simp only [touched, if_pos hspan] at hin
      simp only [if_pos hspan]
      rw [load_bind 0 (by omega), load_bind 0 (by omega), load_bind 0 (by omega), load_bind 0 (by omega),
        store_bind (by omega), store_bind (by simp; omega), store_bind (by simp; omega), store_run (by simp; omega)]
      refine ⟨_, rfl, ?_⟩
      rw [memory_set 0 (by simp; omega), memory_set 0 (by simp; omega), memory_set 0 (by simp; omega),
        memory_set 0 (by omega)]
      exact (Memory.write_cons _ _ _ _).trans ((Memory.write_cons _ _ _ _).trans (Memory.write_cons _ _ _ _))
    · simp only [if_neg hspan]
      exact ⟨_, rfl, hc⟩

end Agreement

/-- The buffer has as many bytes as the variable from the byte of the position on, or the
field is one that is not transferred at all. -/
def Within (var : Variable) (n w bitpos : Nat) : Prop :=
  bitpos / 8 + var.width / 8 ≤ n ∨ SpansFiveBytes var w bitpos

theorem touched_within (var : Variable) {n w bitpos : Nat} (hn : n < 2^28) (hw : w < 2^31) (hpos : bitpos < 2^32)
    (hcheck : u32 (bitpos + w) ≤ 8 * n) :
    (touched var (bitpos % 8 + w) = 0 ∨ bitpos / 8 + touched var (bitpos % 8 + w) ≤ n) ↔ Within var n w bitpos := by
  unfold u32 at hcheck
  cases var with
  | uint8 =>
    simp only [touched, Within, SpansFiveBytes, Variable.width, reduceCtorEq, false_and, or_false]
    split
    · omega
    · omega
  | uint16 =>
    simp only [touched, Within, SpansFiveBytes, Variable.width, reduceCtorEq, false_and, or_false]
    split
    · omega
    · omega
  | uint32 =>
    simp only [touched, Within, SpansFiveBytes, Variable.width, true_and]
    split
    · omega
    · omega

/-- An access that passes the check stays in the buffer just if the whole variable would
fit there. -/
theorem checked_access_inside (var : Variable) (data : List UInt8) (bitpos bitlimit w : Nat) (info : Info)
    (hn : data.length < 2^28) (hw : w < 2^31) (hpos : bitpos < 2^32) (hlimit : bitlimit ≤ 8 * data.length) :
    (∀ scopes v c', Ibx.uint var w info ⟨bitpos, bitlimit, memory 0 data, scopes⟩ = .ok v c' →
      (IbBuffer.nocheckUint var bitpos w data = some (v, data) ↔ Within var data.length w bitpos)) ∧
    (∀ scopes val c', Obx.uint var w val info ⟨bitpos, bitlimit, memory 0 data, scopes⟩ = .ok () c' →
      ((∃ data', ObBuffer.nocheckUint var bitpos w val data = some ((), data') ∧ c'.data = memory 0 data') ↔
        Within var data.length w bitpos)) := by
  constructor
  · intro scopes v c' h
    obtain ⟨hcheck, hval⟩ := ibx_uint_eq_ok.mp h
    have hv : (IbCtx.nocheckUint ⟨bitpos, bitlimit, memory 0 data, scopes⟩ var w).1 = v := congrArg Prod.fst hval
    rw [← touched_within var hn hw hpos (hcheck.trans hlimit), ← read_safe var]
    constructor
    · intro hread
      exact Option.isSome_of_eq_some hread
    · intro hsafe
      rw [← hv]
      exact read_inside ⟨bitpos, bitlimit, memory 0 data, scopes⟩ var rfl hsafe
  · intro scopes val c' h
    obtain ⟨hcheck, hval⟩ := obx_uint_ok h
    rw [← touched_within var hn hw hpos (hcheck.trans hlimit), ← write_safe var val]
    constructor
    · rintro ⟨data', hwrite, -⟩
      exact Option.isSome_of_eq_some hwrite
    · intro hsafe
      rw [← hval]
      exact write_inside ⟨bitpos, bitlimit, memory 0 data, scopes⟩ var val rfl hsafe

theorem checked_access_inside_two_bytes :
    (∀ scopes v c', Ibx.uint .uint16 8 ⟨[], 0⟩ ⟨0, 16, memory 0 [1, 2], scopes⟩ = .ok v c' →
      (IbBuffer.nocheckUint .uint16 0 8 [1, 2] = some (v, [1, 2]) ↔ Within .uint16 2 8 0)) ∧
    (∀ scopes val c', Obx.uint .uint16 8 val ⟨[], 0⟩ ⟨0, 16, memory 0 [1, 2], scopes⟩ = .ok () c' →
      ((∃ data', ObBuffer.nocheckUint .uint16 0 8 val [1, 2] = some ((), data') ∧ c'.data = memory 0 data') ↔
        Within .uint16 2 8 0)) :=
  checked_access_inside .uint16 [1, 2] 0 16 8 ⟨[], 0⟩ (by decide) (by decide) (by decide) (by decide)

/-- Eight bits of a 16-bit variable, in a buffer of one byte: the check passes, and the second
byte is touched. -/
theorem uint16_leaves_buffer :
    ((∃ v c', Ibx.uint .uint16 8 ⟨[], 0⟩ ⟨0, 8, memory 0 [0xff], []⟩ = .ok v c') ∧
      ¬ Safe (IbBuffer.nocheckUint .uint16 0 8) [0xff]) ∧
    ((∃ c', Obx.uint .uint16 8 (0 : UInt16) ⟨[], 0⟩ ⟨0, 8, memory 0 [0xff], []⟩ = .ok () c') ∧
      ¬ Safe (ObBuffer.nocheckUint .uint16 0 8 (0 : UInt16)) [0xff]) := by
  refine ⟨⟨⟨_, _, rfl⟩, ?_⟩, ⟨_, rfl⟩, ?_⟩
  · rw [read_safe]
    decide
  · rw [write_safe]
    decide

end Mopa.Io
