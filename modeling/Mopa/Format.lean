import Mopa.BinaryInput

/-! Formats: trees of fields, strings, named blocks and lists, run through `iox` in
any mode. A format stands for the `io` method of a struct; its values stand for the
struct, with the lengths that `named_block_end` returns. -/
namespace Mopa.Io
open Bits Outcome

/-- The variable of a field. -/
inductive Variable where
  | uint8
  | uint16
  | uint32
  deriving DecidableEq, Repr

namespace Variable

def width : Variable → Nat
  | uint8 => 8
  | uint16 => 16
  | uint32 => 32

theorem width_le (var : Variable) : var.width ≤ 32 := by
  cases var <;> decide

abbrev Word : Variable → Type
  | uint8 => UInt8
  | uint16 => UInt16
  | uint32 => UInt32

def toNat : {var : Variable} → var.Word → Nat
  | uint8, val => UInt8.toNat val
  | uint16, val => UInt16.toNat val
  | uint32, val => UInt32.toNat val

instance : (var : Variable) → DecidableEq var.Word
  | uint8 => inferInstanceAs (DecidableEq UInt8)
  | uint16 => inferInstanceAs (DecidableEq UInt16)
  | uint32 => inferInstanceAs (DecidableEq UInt32)

end Variable

def Iox.uint {m : Mode} : (var : Variable) → Nat → var.Word → Info → Iox m var.Word
  | .uint8, bitsize, val, info => Iox.uint8 bitsize val info
  | .uint16, bitsize, val, info => Iox.uint16 bitsize val info
  | .uint32, bitsize, val, info => Iox.uint32 bitsize val info

inductive Format where
  | empty
  | uint (var : Variable) (w : Nat) (info : Info)
  | required (var : Variable) (w : Nat) (val : var.Word) (info : Info)
  | shortString (info : Info)
  | fixedString (numChars : Nat) (info : Info)
  | select (w : Nat) (info : Info) (cases : UInt8 → Format)   -- what follows depends on a field
  | block (b : Nat) (info endInfo : Info) (body : Format)
  | listBlock (b : Nat) (info endInfo : Info) (body item : Format)
  | seq (f g : Format)

namespace Format

/-- The length of a block is part of its value. -/
@[reducible] def Value : Format → Type
  | empty => Unit
  | uint var _ _ => var.Word
  | required .. => Unit
  | shortString _ => List UInt8
  | fixedString .. => List UInt8
  | select _ _ cases => (n : UInt8) × (cases n).Value
  | block _ _ _ body => Nat × body.Value
  | listBlock _ _ _ body item => Nat × body.Value × List item.Value
  | seq f g => f.Value × g.Value

/-- A value of zeros and empty strings and lists. -/
def zero : (f : Format) → f.Value
  | empty => ()
  | uint .uint8 _ _ => (0 : UInt8)
  | uint .uint16 _ _ => (0 : UInt16)
  | uint .uint32 _ _ => (0 : UInt32)
  | required .. => ()
  | shortString _ => []
  | fixedString .. => []
  | select _ _ cases => ⟨0, (cases 0).zero⟩
  | block _ _ _ body => (0, body.zero)
  | listBlock _ _ _ body _ => (0, body.zero, [])
  | seq f g => (f.zero, g.zero)

/-- The format run on a value, or into it. Items are read into fresh values. -/
def io (fresh : (f : Format) → f.Value) (fuel : Nat) {m : Mode} : (f : Format) → f.Value → Iox m f.Value
  | empty, _ => return ()
  | uint var w info, val => Iox.uint var w val info
  | required var w val info, _ => Iox.require (fun v => Iox.uint var w v info) val info
  | shortString info, str => Iox.shortStringIo str info
  | fixedString numChars info, str => Iox.fixedStringIo numChars str info
  | select w info cases, ⟨n, v⟩ => do
    let n' ← Iox.uint8 w n info
    let v' ← io fresh fuel (cases n') (if h : n = n' then h ▸ v else fresh (cases n'))
    return ⟨n', v'⟩
  | block b info endInfo body, v => Iox.namedBlock b info endInfo (io fresh fuel body v.2)
  | listBlock b info endInfo body item, v => Iox.namedBlock b info endInfo do
    let head ← io fresh fuel body v.2.1
    let list ← Iox.vectorIo fuel (fresh item) (io fresh fuel item) v.2.2
    return (head, list)
  | seq f g, v => do
    let a ← io fresh fuel f v.1
    let b ← io fresh fuel g v.2
    return (a, b)

/-- The number of bits of a value. -/
def size : (f : Format) → f.Value → Nat
  | empty, _ => 0
  | uint _ w _, _ => w
  | required _ w _ _, _ => w
  | shortString _, str => 8 + 8 * str.length
  | fixedString numChars _, _ => 8 * numChars
  | select w _ cases, v => w + (cases v.1).size v.2
  | block b _ _ body, v => b + body.size v.2
  | listBlock b _ _ body item, v => b + (body.size v.2.1 + (v.2.2.map item.size).sum)
  | seq f g, v => f.size v.1 + g.size v.2

/-- The value with the lengths of its blocks filled in. -/
def close : (f : Format) → f.Value → f.Value
  | empty, v => v
  | uint .., v => v
  | required .., v => v
  | shortString _, v => v
  | fixedString .., v => v
  | select _ _ cases, v => ⟨v.1, (cases v.1).close v.2⟩
  | block _ _ _ body, v => (body.size v.2 / 8, body.close v.2)
  | listBlock _ _ _ body item, v =>
    ((body.size v.2.1 + (v.2.2.map item.size).sum) / 8, body.close v.2.1, v.2.2.map item.close)
  | seq f g, v => (f.close v.1, g.close v.2)

/-- Widths are those of the variables, and an item of a list takes at least one bit. -/
def Wf : Format → Prop
  | empty => True
  | uint var w _ => 1 ≤ w ∧ w ≤ var.width
  | required var w val _ => 1 ≤ w ∧ w ≤ var.width ∧ Variable.toNat val < 2^w
  | shortString _ => True
  | fixedString numChars _ => numChars ≤ 255
  | select w _ cases => (1 ≤ w ∧ w ≤ 8) ∧ ∀ n, (cases n).Wf
  | block b _ _ body => (1 ≤ b ∧ b ≤ 16) ∧ body.Wf
  | listBlock b _ _ body item => (1 ≤ b ∧ b ≤ 16) ∧ body.Wf ∧ item.Wf ∧ ∀ v, 1 ≤ item.size v
  | seq f g => f.Wf ∧ g.Wf

/-- From offset `p` in a byte on, strings and the contents of blocks begin and end with
bytes, no 32-bit variable spans five bytes, and the format ends at offset `q`. -/
def Aligned : Format → Nat → Nat → Prop
  | empty, p, q => q % 8 = p % 8
  | uint var w _, p, q => (var = .uint32 → p % 8 + w ≤ 32) ∧ q % 8 = (p + w) % 8
  | required var w _ _, p, q => (var = .uint32 → p % 8 + w ≤ 32) ∧ q % 8 = (p + w) % 8
  | shortString _, p, q => p % 8 = 0 ∧ q % 8 = 0
  | fixedString .., p, q => p % 8 = 0 ∧ q % 8 = 0
  | select w _ cases, p, q => ∀ n, (cases n).Aligned (p + w) q
  | block b _ _ body, p, q => (p + b) % 8 = 0 ∧ body.Aligned (p + b) 0 ∧ q % 8 = 0
  | listBlock b _ _ body item, p, q => (p + b) % 8 = 0 ∧ (body.Aligned (p + b) 0 ∧ item.Aligned 0 0) ∧ q % 8 = 0
  | seq f g, p, q => ∃ r, f.Aligned p r ∧ g.Aligned r q

/-- The fields fit their widths, and no string is longer than the 32-bit sums allow. -/
def Fits : (f : Format) → f.Value → Prop
  | empty, _ => True
  | uint _ w _, val => Variable.toNat val < 2^w
  | required .., _ => True
  | shortString _, str => str.length < 2^28
  | fixedString .., str => str.length < 2^28
  | select w _ cases, v => v.1.toNat < 2^w ∧ (cases v.1).Fits v.2
  | block _ _ _ body, v => body.Fits v.2
  | listBlock _ _ _ body item, v => body.Fits v.2.1 ∧ ∀ x ∈ v.2.2, item.Fits x
  | seq f g, v => f.Fits v.1 ∧ g.Fits v.2

instance decidableFits : (f : Format) → (v : f.Value) → Decidable (f.Fits v)
  | empty, _ => isTrue trivial
  | uint _ w _, val => Nat.decLt (Variable.toNat val) (2^w)
  | required .., _ => isTrue trivial
  | shortString _, str => Nat.decLt (List.length str) (2^28)
  | fixedString .., str => Nat.decLt (List.length str) (2^28)
  | select w _ cases, v =>
    have := decidableFits (cases v.1) v.2
    inferInstanceAs (Decidable (v.1.toNat < 2^w ∧ (cases v.1).Fits v.2))
  | block _ _ _ body, v => decidableFits body v.2
  | listBlock _ _ _ body item, v =>
    have := decidableFits body v.2.1
    have := decidableFits item
    inferInstanceAs (Decidable (body.Fits v.2.1 ∧ ∀ x ∈ v.2.2, item.Fits x))
  | seq f g, v =>
    have := decidableFits f v.1
    have := decidableFits g v.2
    inferInstanceAs (Decidable (f.Fits v.1 ∧ g.Fits v.2))

/-- Strings have lengths of their formats, and the contents of blocks lengths of their
length fields. -/
def Small : (f : Format) → f.Value → Prop
  | empty, _ => True
  | uint .., _ => True
  | required .., _ => True
  | shortString _, str => str.length ≤ 255
  | fixedString numChars _, str => str.length = numChars
  | select _ _ cases, v => (cases v.1).Small v.2
  | block b _ _ body, v => body.size v.2 ≤ 8 * (2^b - 1) ∧ body.Small v.2
  | listBlock b _ _ body item, v =>
    body.size v.2.1 + (v.2.2.map item.size).sum ≤ 8 * (2^b - 1) ∧ body.Small v.2.1 ∧ ∀ x ∈ v.2.2, item.Small x
  | seq f g, v => f.Small v.1 ∧ g.Small v.2

/-- A field. From the first bit of its first byte to its end, a field in a 32-bit variable
spans at most `span` bits. -/
def encodeUint (span : Nat) (var : Variable) (w : Nat) (val : var.Word) : Encoder var.Word :=
  Encoder.field (fun p => Variable.toNat val < 2^w ∧ (var = .uint32 → p % 8 + w ≤ span))
    (ofNat w (Variable.toNat val)) val

/-- The bits of a value. Binary modes do without spans over 32 bits, text modes take any. -/
def encode (span : Nat) : (f : Format) → f.Value → Encoder f.Value
  | empty, _ => return ()
  | uint var w _, val => encodeUint span var w val
  | required var w val _, _ => do
    let _ ← encodeUint span var w val
    return ()
  | shortString _, str => encodeShortString str
  | fixedString numChars _, str => encodeFixedString numChars str
  | select w _ cases, v => do
    let _ ← encodeUint span .uint8 w v.1
    let a ← (cases v.1).encode span v.2
    return ⟨v.1, a⟩
  | block b _ _ body, v => Encoder.block b (body.encode span v.2)
  | listBlock b _ _ body item, v => Encoder.block b do
    let head ← body.encode span v.2.1
    let list ← Encoder.items (item.encode span) v.2.2
    return (head, list)
  | seq f g, v => do
    let a ← f.encode span v.1
    let b ← g.encode span v.2
    return (a, b)

end Format

section Map
variable {m : Mode} {α β : Type} {view : β → α} {io : α → Iox m α} {io' : β → Iox m β} {fresh : α} {fresh' : β}

theorem constructItems_map {list : List β} (h : ∀ b ∈ list, io (view b) = view <$> io' b) :
    Iox.constructItems io (list.map view) = List.map view <$> Iox.constructItems io' list := by
  induction list with
  | nil => rfl
  | cons b list ih =>
    have hb := h b List.mem_cons_self
    have ih := ih fun b hb => h b (List.mem_cons_of_mem _ hb)
    show (do
      let item ← io (view b)
      let list ← Iox.constructItems io (list.map view)
      return item :: list) = List.map view <$> (do
      let item ← io' b
      let list ← Iox.constructItems io' list
      return item :: list)
    rw [hb, ih]
    simp only [map_eq_pure_bind, bind_assoc, pure_bind, List.map_cons]

theorem parseItems_map (h : io fresh = view <$> io' fresh') (fuel : Nat) (acc : List β) :
    Iox.parseItems fresh io fuel (acc.map view) = List.map view <$> Iox.parseItems fresh' io' fuel acc := by
  induction fuel generalizing acc with
  | zero => rfl
  | succ fuel ih =>
    show (do
      if (← Iox.blockSizeLeft) > 0 then
        let item ← io fresh
        Iox.parseItems fresh io fuel (acc.map view ++ [item])
      else
        return acc.map view) = List.map view <$> (do
      if (← Iox.blockSizeLeft) > 0 then
        let item ← io' fresh'
        Iox.parseItems fresh' io' fuel (acc ++ [item])
      else
        return acc)
    rw [h]
    simp only [map_eq_pure_bind, bind_assoc, pure_bind]
    refine bind_congr fun n => ?_
    split
    · simp only [bind_assoc]
      refine bind_congr fun b => ?_
      have hb := ih (acc ++ [b])
      rw [List.map_append, List.map_singleton, map_eq_pure_bind] at hb
      exact hb
    · simp only [pure_bind]

theorem vectorIo_map {fuel : Nat} {list : List β} (hp : m.isParsing = true → io fresh = view <$> io' fresh')
    (hc : m.isParsing = false → ∀ b ∈ list, io (view b) = view <$> io' b) :
    Iox.vectorIo fuel fresh io (list.map view) = List.map view <$> Iox.vectorIo fuel fresh' io' list := by
  unfold Iox.vectorIo
  split
  · next h => exact parseItems_map (hp h) fuel []
  · next h => exact constructItems_map (hc (Bool.not_eq_true _ ▸ h))

theorem namedBlock_map {b : Nat} {info endInfo : Info} {x : Iox m α} {y : Iox m β} (h : x = view <$> y) :
    Iox.namedBlock b info endInfo x = (fun r => (r.1, view r.2)) <$> Iox.namedBlock b info endInfo y := by
  rw [h]
  unfold Iox.namedBlock
  simp only [map_eq_pure_bind, bind_assoc, pure_bind]

end Map

theorem uint_parsing {m : Mode} (hm : m.isParsing = true) (var : Variable) {w : Nat} {info : Info} (v v' : var.Word) :
    Iox.uint (m := m) var w v info = Iox.uint var w v' info := by
  cases m with
  | parseBinary => cases var <;> rfl
  | parseText => cases var <;> rfl
  | constructBinary => cases hm
  | constructText => cases hm

theorem uint8_constructing {α : Type} {m : Mode} (hm : m.isParsing = false) (w : Nat) (n : UInt8) (info : Info)
    (k : UInt8 → Iox m α) : (Iox.uint8 w n info >>= k) = Iox.uint8 w n info >>= fun _ => k n := by
  cases m with
  | parseBinary => cases hm
  | parseText => cases hm
  | constructBinary =>
    show (Obx.uint8 w n info >>= fun _ => pure n) >>= k = (Obx.uint8 w n info >>= fun _ => pure n) >>= fun _ => k n
    simp only [bind_assoc, pure_bind]
  | constructText =>
    show (Ocx.uint w n.toUInt32 info >>= fun _ => pure n) >>= k =
      (Ocx.uint w n.toUInt32 info >>= fun _ => pure n) >>= fun _ => k n
    simp only [bind_assoc, pure_bind]

namespace Format

theorem io_parsing {m : Mode} (hm : m.isParsing = true) (fresh : (f : Format) → f.Value) (fuel : Nat) (f : Format)
    (v v' : f.Value) : f.io fresh fuel (m := m) v = f.io fresh fuel v' := by
  induction f with
  | empty => rfl
  | uint var w info => exact uint_parsing hm var v v'
  | required var w val info => rfl
  | shortString info => cases m <;> first | rfl | cases hm
  | fixedString numChars info => cases m <;> first | rfl | cases hm
  | select w info cases ih =>
    obtain ⟨n, v⟩ := v
    obtain ⟨n', v'⟩ := v'
    show (do
      let k ← Iox.uint .uint8 w n info
      let a ← (cases k).io fresh fuel (if h : n = k then h ▸ v else fresh (cases k))
      return (⟨k, a⟩ : (select w info cases).Value)) = (do
      let k ← Iox.uint .uint8 w n' info
      let a ← (cases k).io fresh fuel (if h : n' = k then h ▸ v' else fresh (cases k))
      return ⟨k, a⟩)
    rw [uint_parsing hm .uint8 n n']
    refine bind_congr fun k => ?_
    rw [ih k _ (if h : n' = k then h ▸ v' else fresh (cases k))]
  | block b info endInfo body ih => exact congrArg (Iox.namedBlock b info endInfo) (ih v.2 v'.2)
  | listBlock b info endInfo body item ihb ihi =>
    have hlist : Iox.vectorIo fuel (fresh item) (item.io fresh fuel (m := m)) v.2.2 =
        Iox.vectorIo fuel (fresh item) (item.io fresh fuel) v'.2.2 := by
      rw [Iox.vectorIo, Iox.vectorIo, if_pos hm, if_pos hm]
    show Iox.namedBlock b info endInfo (do
      let head ← body.io fresh fuel v.2.1
      let list ← Iox.vectorIo fuel (fresh item) (item.io fresh fuel) v.2.2
      return (head, list)) = _
    rw [ihb v.2.1 v'.2.1, hlist]
    rfl
  | seq f g ihf ihg =>
    show (do
      let a ← f.io fresh fuel v.1
      let b ← g.io fresh fuel v.2
      return (a, b)) = _
    rw [ihf v.1 v'.1, ihg v.2 v'.2]
    rfl

theorem listBlock_map {m : Mode} {α : Type} {values : (f : Format) → f.Value} {fuel : Nat} (b n : Nat) (info endInfo : Info)
    {item : Format} {x : Iox m (List α)} {view : item.Value → α} {list : List item.Value}
    (h : x = List.map view <$> Iox.vectorIo fuel (values item) (item.io values fuel) list) :
    Iox.namedBlock b info endInfo x =
      (fun r => (r.1, r.2.2.map view)) <$> (listBlock b info endInfo empty item).io values fuel (n, (), list) := by
  have hx : x = (fun r : Unit × List item.Value => r.2.map view) <$> (do
      let head ← empty.io values fuel ()
      let list ← Iox.vectorIo fuel (values item) (item.io values fuel) list
      return (head, list)) := by
    rw [h]
    simp only [map_eq_pure_bind, Format.io, bind_assoc, pure_bind]
  exact namedBlock_map hx

theorem select_map {m : Mode} {γ : Type} {values : (f : Format) → f.Value} {fuel w : Nat} {info : Info}
    (cases : UInt8 → Format) (g : (n : UInt8) × (cases n).Value → γ) (n : UInt8) (v : (cases n).Value) :
    g <$> (select w info cases).io values fuel ⟨n, v⟩ = Iox.uint8 (m := m) w n info >>= fun k =>
      (fun a => g ⟨k, a⟩) <$> (cases k).io values fuel (if h : n = k then h ▸ v else values (cases k)) := by
  simp only [map_eq_pure_bind, Format.io, bind_assoc, pure_bind]

theorem select_map_constructing {m : Mode} (hm : m.isParsing = false) {γ : Type} {values : (f : Format) → f.Value}
    {fuel w : Nat} {info : Info} (cases : UInt8 → Format) (g : (n : UInt8) × (cases n).Value → γ) (n : UInt8)
    (v : (cases n).Value) :
    g <$> (select w info cases).io values fuel ⟨n, v⟩ =
      Iox.uint8 (m := m) w n info >>= fun _ => (fun a => g ⟨n, a⟩) <$> (cases n).io values fuel v := by
  rw [select_map, uint8_constructing hm, dif_pos rfl]

end Format

end Mopa.Io
