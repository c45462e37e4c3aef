import Mathlib.Algebra.Order.BigOperators.Group.List
import Mopa.TextConstruction

/-! The texts of formats. Construction in text mode prints the text of a value and moves on
by its size; what it prints has an encoding. -/
namespace Mopa.Io
open Bits Outcome OcCtx

namespace OcCtx

def print (c : OcCtx) (size : Nat) (text : List UInt8) : OcCtx :=
  { c with bitpos := c.bitpos + size, prod := c.prod ++ text }

theorem print_zero (c : OcCtx) : c.print 0 [] = c := by simp [print]

theorem print_print (c : OcCtx) (s t : Nat) (xs ys : List UInt8) :
    (c.print s xs).print t ys = c.print (s + t) (xs ++ ys) := by simp [print, Nat.add_assoc]

def enter (c : OcCtx) (b : Nat) (info : Info) : OcCtx where
  bitpos := c.bitpos + b
  bitlimit := innerLimit c.bitlimit (c.bitpos + b) b
  scopeStack := ⟨info, c.bitpos + b, c.bitlimit, c.prod.length⟩ :: c.scopeStack
  prod := c.prod ++ (indent c.scopeStack.length ++ chars "\x7b\n")

def blockText (depth length : Nat) (info : Info) (body : List UInt8) : List UInt8 :=
  uintLine depth 32 length info ++ (indent depth ++ chars "\x7b\n" ++ body ++ (indent depth ++ chars "\x7d\n"))

end OcCtx

/-- What is said of each item of a list and of the offset in the text where it begins. -/
def Seats {α : Type} (text : α → List UInt8) (seated : α → Nat → Prop) : List α → Nat → Prop
  | [], _ => True
  | a :: list, offset => seated a offset ∧ Seats text seated list (offset + (text a).length)

/-- Where the program does not throw, no position wraps and each block begins at an offset of
32 bits, it prints the text and leaves the scopes as they were; the encoder has bits for what it
has printed. -/
def Prints {α : Type} (x : Ocx α) (e : Encoder α) (size : Nat) (text : Nat → List UInt8)
    (seated : Nat → Nat → Prop) : Prop :=
  ∀ c a c', c.bitpos + size < 2^32 → seated c.scopeStack.length c.prod.length → x c = .ok a c' →
    (∃ bits, e c.bitpos = some (a, bits) ∧ bits.length = size) ∧ c' = c.print size (text c.scopeStack.length)

section Prints
variable {α β : Type} {x : Ocx α} {e : Encoder α} {s s' : Nat} {t t' : Nat → List UInt8} {r r' : Nat → Nat → Prop}
  {c c' : OcCtx} {info endInfo : Info}

protected theorem Prints.pure (a : α) : Prints (pure a) (pure a) 0 (fun _ => []) fun _ _ => True := by
  intro c a' c' _ _ h
  cases h
  exact ⟨⟨[], rfl, rfl⟩, (print_zero c).symm⟩

protected theorem Prints.bind {f : α → Ocx β} {g : α → Encoder β} (hx : Prints x e s t r)
    (hf : ∀ a, Prints (f a) (g a) s' t' r') : Prints (x >>= f) (e >>= g) (s + s') (fun depth => t depth ++ t' depth)
      fun depth offset => r depth offset ∧ r' depth (offset + (t depth).length) := by
  intro c b c' hc hr h
  obtain ⟨a, c1, h1, h2⟩ := bind_eq_ok.mp h
  obtain ⟨⟨as, he, hs⟩, rfl⟩ := hx c a c1 (by omega) hr.1 h1
  have hpos : (c.print s (t c.scopeStack.length)).bitpos = c.bitpos + as.length := congrArg (c.bitpos + ·) hs.symm
  have hoffset : (c.print s (t c.scopeStack.length)).prod.length = c.prod.length + (t c.scopeStack.length).length :=
    List.length_append
  obtain ⟨⟨bs, hg, hs'⟩, rfl⟩ := hf a _ b c' (by rw [hpos]; omega) (hoffset ▸ hr.2) h2
  rw [hpos] at hg
  exact ⟨⟨as ++ bs, Encoder.bind_eq_some.mpr ⟨a, as, bs, he, hg, rfl⟩, by rw [List.length_append, hs, hs']⟩, print_print ..⟩

theorem Prints.bind_pure {f : α → Ocx β} {g : α → β} (hx : Prints x e s t r) (hf : ∀ a, f a = pure (g a)) :
    Prints (x >>= f) (e >>= fun a => pure (g a)) s t r := by
  have h := hx.bind fun a => (hf a ▸ Prints.pure (g a) : Prints (f a) (pure (g a)) 0 _ _)
  simpa only [Nat.add_zero, List.append_nil, and_true] using h

theorem Prints.items {io : α → Ocx α} {e : α → Encoder α} {size : α → Nat} {text : α → Nat → List UInt8}
    {seated : α → Nat → Nat → Prop} {list : List α}
    (h : ∀ a ∈ list, Prints (io a) (e a) (size a) (text a) (seated a)) :
    Prints (Iox.constructItems (m := .constructText) io list) (Encoder.items e list) (list.map size).sum
      (fun depth => list.flatMap (text · depth)) fun depth => Seats (text · depth) (seated · depth) list := by
  induction list with
  | nil => exact Prints.pure []
  | cons a list ih =>
    exact (h a List.mem_cons_self).bind fun a' =>
      (ih fun b hb => h b (List.mem_cons_of_mem a hb)).bind_pure fun as => rfl

theorem ocx_uint_print {w : Nat} {val : UInt32} {u : Unit} (hc : c.bitpos + w < 2^32) (h : Ocx.uint w val info c = .ok u c') :
    c' = c.print w (uintLine c.scopeStack.length w val.toNat info) := by
  rw [ocx_uint_apply, u32_of_lt hc] at h
  split at h
  · cases h
  · split at h
    · cases h
    · cases h
      rfl

theorem Prints.uint {var : Variable} {w : Nat} {val : var.Word} (hw : w ≤ var.width) (hv : Variable.toNat val < 2^w) :
    Prints (Iox.uint (m := .constructText) var w val info) (Format.encodeUint 40 var w val) w
      (fun depth => uintLine depth w (Variable.toNat val) info) fun _ _ => True := by
  intro c a c' hc _ h
  have hspan : var = .uint32 → c.bitpos % 8 + w ≤ 40 := by
    rintro rfl
    have : w ≤ 32 := hw
    omega
  have hencode : Format.encodeUint 40 var w val c.bitpos = some (val, ofNat w (Variable.toNat val)) :=
    if_pos ⟨hv, hspan⟩
  cases var with
  | uint8 =>
    obtain ⟨u, c1, h1, hr⟩ := bind_eq_ok.mp h
    cases hr
    exact ⟨⟨_, hencode, length_ofNat _ _⟩, (ocx_uint_print hc h1).trans (by rw [UInt8.toNat_toUInt32]; rfl)⟩
  | uint16 =>
    obtain ⟨u, c1, h1, hr⟩ := bind_eq_ok.mp h
    cases hr
    exact ⟨⟨_, hencode, length_ofNat _ _⟩, (ocx_uint_print hc h1).trans (by rw [UInt16.toNat_toUInt32]; rfl)⟩
  | uint32 =>
    obtain ⟨u, c1, h1, hr⟩ := bind_eq_ok.mp h
    cases hr
    exact ⟨⟨_, hencode, length_ofNat _ _⟩, ocx_uint_print hc h1⟩

theorem Prints.shortString {str : List UInt8} (hlen : str.length < 2^28) :
    Prints (Iox.shortStringIo (m := .constructText) str info) (encodeShortString str) (8 + 8 * str.length)
      (fun depth => stringLine depth str info) fun _ _ => True := by
  intro c a c' hc _ h
  rw [ocx_shortString_apply, u32_of_lt (n := str.length) (by omega), u32_of_lt (n := (str.length + 1) * 8) (by omega),
    u32_of_lt (by omega)] at h
  split at h
  · cases h
  · next hshort =>
    split at h
    · cases h
    · split at h
      · cases h
      · next hal =>
        cases h
        refine ⟨⟨_, encodeShortString_eq_some.mpr ⟨rfl, ⟨not_not.mp hal, not_lt.mp hshort⟩, rfl⟩, ?_⟩, ?_⟩
        · rw [List.length_append, length_ofNat, length_ofBytes]
        · rw [show c.bitpos + (str.length + 1) * 8 = c.bitpos + (8 + 8 * str.length) by ring, List.take_length]
          rfl

theorem Prints.fixedString {n : Nat} {str : List UInt8} (hlen : str.length < 2^28) :
    Prints (Iox.fixedStringIo n (m := .constructText) str info) (encodeFixedString n str) (8 * n)
      (fun depth => stringLine depth str info) fun _ _ => True := by
  intro c a c' hc _ h
  rw [ocx_fixedString_apply, u32_of_lt (n := str.length) (by omega), u32_of_lt (n := str.length * 8) (by omega)] at h
  split at h
  · cases h
  · next hn =>
    obtain rfl := not_not.mp hn
    rw [u32_of_lt (by omega)] at h
    split at h
    · cases h
    · split at h
      · cases h
      · next hal =>
        rw [if_neg (by omega), List.take_length] at h
        cases h
        refine ⟨⟨_, encodeFixedString_eq_some.mpr ⟨rfl, ⟨not_not.mp hal, rfl⟩, rfl⟩, length_ofBytes _⟩, ?_⟩
        rw [Nat.mul_comm]
        rfl

theorem ocx_namedBlockBegin_enter {b : Nat} {u : Unit} (hc : c.bitpos + b < 2^32) (hseat : c.prod.length < 2^32)
    (h : Ocx.namedBlockBegin b info c = .ok u c') : (c.bitpos + b) % 8 = 0 ∧ c' = c.enter b info := by
  rw [ocx_namedBlockBegin_apply, u32_of_lt hc, u32_of_lt hseat] at h
  split at h
  · cases h
  · next hal =>
    cases h
    exact ⟨not_not.mp hal, rfl⟩

theorem ocx_namedBlockEnd_close {b n size : Nat} {text : List UInt8} (hc : c.bitpos + b + size < 2^32)
    (h : Ocx.namedBlockEnd endInfo ((c.enter b info).print size text) = .ok n c') :
    size = 8 * n ∧ c' = c.print (b + size) (blockText c.scopeStack.length n info text) := by
  have hlength : sub32 (c.bitpos + b + size) (c.bitpos + b) = size := by
    rw [sub32_of_le (by omega) hc]
    omega
  rw [ocx_namedBlockEnd_apply (c := (c.enter b info).print size text) rfl] at h
  split at h
  · cases h
  · next hbytes =>
    have hbytes : ¬ sub32 (c.bitpos + b + size) (c.bitpos + b) % 8 ≠ 0 := hbytes
    cases h
    rw [hlength] at hbytes
    have hn : sub32 (c.bitpos + b + size) (c.bitpos + b) / 8 = size / 8 := by rw [hlength]
    refine ⟨?_, ?_⟩
    · show size = 8 * (sub32 (c.bitpos + b + size) (c.bitpos + b) / 8)
      omega
    · simp [print, enter, withLength, blockText, List.append_assoc, Nat.add_assoc]

theorem Prints.block {b : Nat} (hx : Prints x e s t r) (hs : s ≤ 8 * (2^b - 1)) :
    Prints (Iox.namedBlock (m := .constructText) b info endInfo x) (Encoder.block b e) (b + s)
      (fun depth => blockText depth (s / 8) info (t (depth + 1)))
      fun depth offset => offset < 2^32 ∧ r (depth + 1) (offset + (indent depth ++ chars "\x7b\n").length) := by
  intro c r c' hc hseat h
  obtain ⟨u, c1, h1, h⟩ := bind_eq_ok.mp h
  obtain ⟨a, c2, h2, h⟩ := bind_eq_ok.mp h
  obtain ⟨n, c3, h3, h⟩ := bind_eq_ok.mp h
  cases h
  obtain ⟨hal, rfl⟩ := ocx_namedBlockBegin_enter (by omega) hseat.1 h1
  have hoffset : (c.enter b info).prod.length = c.prod.length + (indent c.scopeStack.length ++ chars "\x7b\n").length :=
    List.length_append
  have hroom : (c.enter b info).bitpos + s < 2^32 := by
    show c.bitpos + b + s < 2^32
    omega
  obtain ⟨⟨bits, he, hbits⟩, rfl⟩ := hx _ _ _ hroom (hoffset ▸ hseat.2) h2
  obtain ⟨hn, rfl⟩ := ocx_namedBlockEnd_close hroom h3
  have hpow := Nat.two_pow_pos b
  refine ⟨⟨_, Encoder.block_eq_some.mpr ⟨hal, bits, he, hbits.trans hn, by omega, rfl⟩, ?_⟩, ?_⟩
  · rw [List.length_append, length_ofNat, hbits]
  · rw [hn, Nat.mul_div_cancel_left n (by decide)]
    rfl

end Prints

namespace Format

def text : (f : Format) → f.Value → Nat → List UInt8
  | empty, _, _ => []
  | uint _ w info, val, depth => uintLine depth w (Variable.toNat val) info
  | required _ w val info, _, depth => uintLine depth w (Variable.toNat val) info
  | shortString info, str, depth => stringLine depth str info
  | fixedString _ info, str, depth => stringLine depth str info
  | select w info cases, v, depth => uintLine depth w v.1.toNat info ++ (cases v.1).text v.2 depth
  | block _ info _ body, v, depth => blockText depth (body.size v.2 / 8) info (body.text v.2 (depth + 1))
  | listBlock _ info _ body item, v, depth =>
    blockText depth ((body.size v.2.1 + (v.2.2.map item.size).sum) / 8) info
      (body.text v.2.1 (depth + 1) ++ v.2.2.flatMap (item.text · (depth + 1)))
  | seq f g, v, depth => f.text v.1 depth ++ g.text v.2 depth

/-- Each block begins at an offset of 32 bits in the text printed before it: the lines of the
lengths of the blocks around it are not there yet. -/
def Seated : (f : Format) → f.Value → Nat → Nat → Prop
  | empty, _, _, _ => True
  | uint .., _, _, _ => True
  | required .., _, _, _ => True
  | shortString _, _, _, _ => True
  | fixedString .., _, _, _ => True
  | select w info cases, v, depth, offset =>
    (cases v.1).Seated v.2 depth (offset + (uintLine depth w v.1.toNat info).length)
  | block _ _ _ body, v, depth, offset =>
    offset < 2^32 ∧ body.Seated v.2 (depth + 1) (offset + (indent depth ++ chars "\x7b\n").length)
  | listBlock _ _ _ body item, v, depth, offset =>
    offset < 2^32 ∧ body.Seated v.2.1 (depth + 1) (offset + (indent depth ++ chars "\x7b\n").length) ∧
      Seats (item.text · (depth + 1)) (item.Seated · (depth + 1)) v.2.2
        (offset + (indent depth ++ chars "\x7b\n").length + (body.text v.2.1 (depth + 1)).length)
  | seq f g, v, depth, offset => f.Seated v.1 depth offset ∧ g.Seated v.2 depth (offset + (f.text v.1 depth).length)

def Bounded : (f : Format) → f.Value → Prop
  | empty, _ => True
  | uint .., _ => True
  | required .., _ => True
  | shortString _, _ => True
  | fixedString .., _ => True
  | select _ _ cases, v => (cases v.1).Bounded v.2
  | block b _ _ body, v => body.size v.2 ≤ 8 * (2^b - 1) ∧ body.Bounded v.2
  | listBlock b _ _ body item, v =>
    body.size v.2.1 + (v.2.2.map item.size).sum ≤ 8 * (2^b - 1) ∧ body.Bounded v.2.1 ∧ ∀ x ∈ v.2.2, item.Bounded x
  | seq f g, v => f.Bounded v.1 ∧ g.Bounded v.2

theorem Seats.of_short {α : Type} {text : α → List UInt8} {seated : α → Nat → Prop} {list : List α} {offset : Nat}
    (h : ∀ a ∈ list, ∀ offset, offset + (text a).length < 2^32 → seated a offset)
    (hs : offset + (list.flatMap text).length < 2^32) : Seats text seated list offset := by
  induction list generalizing offset with
  | nil => trivial
  | cons a list ih =>
    rw [List.flatMap_cons, List.length_append, ← Nat.add_assoc] at hs
    exact ⟨h a List.mem_cons_self offset (by omega), ih (fun b hb => h b (List.mem_cons_of_mem a hb)) hs⟩

theorem seated_of_short {f : Format} {v : f.Value} {depth offset : Nat} (h : offset + (f.text v depth).length < 2^32) :
    f.Seated v depth offset := by
  induction f generalizing depth offset with
  | empty => trivial
  | uint var w info => trivial
  | required var w val info => trivial
  | shortString info => trivial
  | fixedString numChars info => trivial
  | select w info cases ih =>
    simp only [text, List.length_append] at h
    refine ih v.1 ?_
    omega
  | block b info endInfo body ih =>
    simp only [text, blockText, List.length_append] at h
    refine ⟨by omega, ih ?_⟩
    rw [List.length_append]
    omega
  | listBlock b info endInfo body item ihb ihi =>
    simp only [text, blockText, List.length_append] at h
    refine ⟨by omega, ihb ?_, Seats.of_short (fun x _ offset hx => ihi hx) ?_⟩
    · rw [List.length_append]
      omega
    · rw [List.length_append]
      omega
  | seq f g ihf ihg =>
    simp only [text, List.length_append] at h
    exact ⟨ihf (by omega), ihg (by omega)⟩

/-- Names have at most that many letters, and no fixed string is empty. -/
def Brief (m : Nat) : Format → Prop
  | empty => True
  | uint _ _ info => info.name.length ≤ m
  | required _ _ _ info => info.name.length ≤ m
  | shortString info => info.name.length ≤ m
  | fixedString numChars info => 1 ≤ numChars ∧ info.name.length ≤ m
  | select _ info cases => info.name.length ≤ m ∧ ∀ n, (cases n).Brief m
  | block _ info _ body => info.name.length ≤ m ∧ body.Brief m
  | listBlock _ info _ body item => info.name.length ≤ m ∧ body.Brief m ∧ item.Brief m
  | seq f g => f.Brief m ∧ g.Brief m

theorem length_uintLine_le {w : Nat} (hw : w ≤ 32) (depth n : Nat) (info : Info) :
    (uintLine depth w n info).length ≤ 2 * depth + info.name.length + 34 := by
  have hnumber : (number w n info).length ≤ 32 := by
    have hten := Numeral.length_text_le 10 10
    have height := Numeral.length_text_le 16 8 n
    unfold number
    split
    · rw [hexadecimal, List.length_append, show (chars "0x").length = 2 from rfl]
      omega
    · split
      · rw [binary, List.length_map, length_ofNat]
        exact hw
      · unfold decimal
        split
        · exact (hten n).trans (by decide)
        · exact (Nat.succ_le_succ (hten _)).trans (by decide)
  unfold uintLine indent
  simp only [List.length_append, List.length_replicate, show (chars ":").length = 1 from rfl,
    show (chars "\n").length = 1 from rfl]
  omega

theorem length_stringLine_le (depth : Nat) (str : List UInt8) (info : Info) :
    (stringLine depth str info).length ≤ 2 * depth + info.name.length + 4 + 4 * str.length := by
  have hquoted : (str.flatMap quoteChar).length ≤ 4 * str.length := by
    induction str with
    | nil => exact le_rfl
    | cons ch str ih =>
      have hchar : (quoteChar ch).length ≤ 4 := by
        unfold quoteChar
        split
        · exact (by decide : 2 ≤ 4)
        · split
          · exact (by decide : 1 ≤ 4)
          · exact le_rfl
      rw [List.flatMap_cons, List.length_append, List.length_cons]
      omega
  unfold stringLine indent
  simp only [List.length_append, List.length_replicate, show (chars ":'").length = 2 from rfl,
    show (chars "'\n").length = 2 from rfl]
  omega

theorem length_blockText_le {d m depth n k s : Nat} {info : Info} {body : List UInt8} (hd : depth ≤ d)
    (hinfo : info.name.length ≤ m) (hbody : body.length ≤ k * s) (hk : 3 * (2 * d + m + 34) ≤ k) {b : Nat} (hb : 1 ≤ b) :
    (blockText depth n info body).length ≤ k * (b + s) := by
  have hline : (uintLine depth 32 n info).length ≤ 2 * depth + info.name.length + 34 := length_uintLine_le le_rfl depth n info
  have hhead : k ≤ k * b := Nat.le_mul_of_pos_right k hb
  unfold blockText indent
  simp only [List.length_append, List.length_replicate, show (chars "\x7b\n").length = 2 from rfl,
    show (chars "\x7d\n").length = 2 from rfl]
  rw [Nat.mul_add]
  omega

theorem length_items_le {α : Type} {text : α → List UInt8} {size : α → Nat} {k : Nat} {list : List α}
    (h : ∀ a ∈ list, (text a).length ≤ k * size a) : (list.flatMap text).length ≤ k * (list.map size).sum := by
  induction list with
  | nil => exact Nat.zero_le _
  | cons a list ih =>
    rw [List.flatMap_cons, List.length_append, List.map_cons, List.sum_cons, Nat.mul_add]
    exact Nat.add_le_add (h a List.mem_cons_self) (ih fun b hb => h b (List.mem_cons_of_mem a hb))

/-- A bit gives at most three lines: there are no more blocks around a field than bits of
their lengths. -/
theorem length_text_le {m d : Nat} {f : Format} (hf : f.Wf) (hm : f.Brief m) {v : f.Value} (hv : f.Small v) {depth : Nat}
    (hd : depth + f.size v ≤ d) : (f.text v depth).length ≤ 3 * (2 * d + m + 34) * f.size v := by
  have hk (s : Nat) (hs : 1 ≤ s) : 3 * (2 * d + m + 34) ≤ 3 * (2 * d + m + 34) * s := Nat.le_mul_of_pos_right _ hs
  induction f generalizing depth with
  | empty => exact Nat.zero_le _
  | uint var w info =>
    have hk := hk w hf.1
    have hline := length_uintLine_le (hf.2.trans var.width_le) depth (Variable.toNat v) info
    simp only [Brief, size] at hm hd
    simp only [text, size]
    omega
  | required var w val info =>
    have hk := hk w hf.1
    have hline := length_uintLine_le (hf.2.1.trans var.width_le) depth (Variable.toNat val) info
    simp only [Brief, size] at hm hd
    simp only [text, size]
    omega
  | shortString info =>
    have hline := length_stringLine_le depth v info
    simp only [Brief, size] at hm hd
    simp only [text, size]
    calc
      _ ≤ 3 * (2 * d + m + 34) + 3 * (2 * d + m + 34) * (8 * v.length) := by
        have hlen : 8 * v.length ≤ 3 * (2 * d + m + 34) * (8 * v.length) := Nat.le_mul_of_pos_left _ (by omega)
        omega
      _ ≤ 3 * (2 * d + m + 34) * 8 + 3 * (2 * d + m + 34) * (8 * v.length) := by omega
      _ = 3 * (2 * d + m + 34) * (8 + 8 * v.length) := (Nat.mul_add ..).symm
  | fixedString numChars info =>
    have hline := length_stringLine_le depth v info
    rw [show v.length = numChars from hv] at hline
    simp only [Brief, size] at hm hd
    simp only [text, size]
    calc
      _ ≤ 3 * (2 * d + m + 34) + 4 * numChars := by omega
      _ ≤ 3 * (2 * d + m + 34) * numChars + 3 * (2 * d + m + 34) * numChars :=
        Nat.add_le_add (hk _ hm.1) (Nat.mul_le_mul_right _ (by omega))
      _ ≤ 3 * (2 * d + m + 34) * (8 * numChars) := by
        rw [← Nat.mul_add]
        exact Nat.mul_le_mul_left _ (by omega)
  | select w info cases ih =>
    have hk := hk w hf.1.1
    have hline := length_uintLine_le (hf.1.2.trans (by decide)) depth v.1.toNat info
    simp only [size] at hd
    have hrest := @ih v.1 (hf.2 v.1) (hm.2 v.1) _ hv depth (by omega)
    have hname := hm.1
    simp only [text, size, List.length_append]
    rw [Nat.mul_add]
    omega
  | block b info endInfo body ih =>
    have hb := hf.1.1
    simp only [size] at hd
    exact length_blockText_le (by omega) hm.1 (ih hf.2 hm.2 hv.2 (by omega)) le_rfl hb
  | listBlock b info endInfo body item ihb ihi =>
    have hb := hf.1.1
    simp only [size] at hd
    refine length_blockText_le (by omega) hm.1 ?_ le_rfl hb
    rw [List.length_append, Nat.mul_add]
    refine Nat.add_le_add (ihb hf.2.1 hm.2.1 hv.2.1 (by omega)) (length_items_le fun x hx => ?_)
    have hx' : item.size x ≤ (v.2.2.map item.size).sum := List.le_sum_of_mem (List.mem_map_of_mem hx)
    exact ihi hf.2.2.1 hm.2.2 (hv.2.2 x hx) (by omega)
  | seq f g ihf ihg =>
    simp only [size] at hd
    simp only [text, size, List.length_append]
    rw [Nat.mul_add]
    exact Nat.add_le_add (ihf hf.1 hm.1 hv.1 (by omega)) (ihg hf.2 hm.2 hv.2 (by omega))

theorem prints_select {α : Type} {w : Nat} {info : Info} {n : UInt8} {k : UInt8 → Ocx α} {e : Encoder α} {s : Nat}
    {t : Nat → List UInt8} {r : Nat → Nat → Prop} (hw : w ≤ 8) (hn : n.toNat < 2^w) (hk : Prints (k n) e s t r) :
    Prints (Iox.uint8 (m := .constructText) w n info >>= k) (encodeUint 40 .uint8 w n >>= fun _ => e) (w + s)
      (fun depth => uintLine depth w n.toNat info ++ t depth)
      fun depth offset => r depth (offset + (uintLine depth w n.toNat info).length) := by
  rw [uint8_constructing rfl]
  have hwidth : w ≤ Variable.uint8.width := hw
  intro c a c' hc hr h
  exact ((Prints.uint hwidth hn).bind fun _ => hk) c a c' hc ⟨trivial, hr⟩ h

/-- Construction in text mode prints the text of the value. -/
theorem prints (values : (f : Format) → f.Value) (fuel : Nat) {f : Format} (hf : f.Wf) {v : f.Value} (hv : f.Fits v)
    (hb : f.Bounded v) :
    Prints (f.io values fuel (m := .constructText) v) (f.encode 40 v) (f.size v) (f.text v) (f.Seated v) := by
  induction f with
  | empty => exact .pure ()
  | uint var w info => exact .uint hf.2 hv
  | required var w val info =>
    refine (Prints.uint hf.2.1 hf.2.2).bind_pure fun a => ?_
    exact if_neg fun h => by cases h.1
  | shortString info => exact .shortString hv
  | fixedString numChars info => exact .fixedString hv
  | select w info cases ih =>
    obtain ⟨n, v⟩ := v
    refine prints_select hf.1.2 hv.1 ?_
    rw [dif_pos rfl]
    exact (ih n (hf.2 n) hv.2 hb).bind_pure fun a => rfl
  | block b info endInfo body ih => exact (ih hf.2 hv hb.2).block hb.1
  | listBlock b info endInfo body item ihb ihi =>
    obtain ⟨-, hbody, hitem, -⟩ := hf
    have hlist := (ihb hbody hv.1 hb.2.1).bind fun head =>
      (Prints.items fun x hx => ihi hitem (hv.2 x hx) (hb.2.2 x hx)).bind_pure fun list =>
        (rfl : _ = pure (head, list))
    exact hlist.block hb.1
  | seq f g ihf ihg => exact (ihf hf.1 hv.1 hb.1).bind fun a => (ihg hf.2 hv.2 hb.2).bind_pure fun b => rfl

theorem small_of_encode {span p : Nat} {f : Format} {v v' : f.Value} {bits : List Bool}
    (h : f.encode span v p = some (v', bits)) : f.Small v := by
  induction f generalizing p bits with
  | empty => trivial
  | uint var w info => trivial
  | required var w val info => trivial
  | shortString info => exact (encodeShortString_eq_some.mp h).2.1.2
  | fixedString numChars info => exact (encodeFixedString_eq_some.mp h).2.1.2
  | select w info cases ih =>
    obtain ⟨n, as, _, h1, hrest, rfl⟩ := Encoder.bind_eq_some.mp h
    obtain ⟨a, bs, _, h2, -, -⟩ := Encoder.bind_eq_some.mp hrest
    exact ih v.1 h2
  | block b info endInfo body ih =>
    obtain ⟨n, a⟩ := v'
    obtain ⟨-, as, h1, hlen, hn, -⟩ := Encoder.block_eq_some.mp h
    obtain ⟨-, hsize⟩ := encode_eq_some h1
    exact ⟨by omega, ih h1⟩
  | listBlock b info endInfo body item ihb ihi =>
    obtain ⟨n, a⟩ := v'
    obtain ⟨-, bits, h1, hlen, hn, -⟩ := Encoder.block_eq_some.mp h
    obtain ⟨head, as, _, h2, hrest, rfl⟩ := Encoder.bind_eq_some.mp h1
    obtain ⟨list, bs, _, h3, hpure, rfl⟩ := Encoder.bind_eq_some.mp hrest
    obtain ⟨-, rfl⟩ := Encoder.pure_eq_some.mp hpure
    obtain ⟨-, hsize⟩ := encode_eq_some h2
    have hsizes : bs.length = (v.2.2.map item.size).sum :=
      (items_eq_some (fun x _ p a' bits hx => encode_eq_some hx) h3).2
    rw [List.append_nil, List.length_append] at hlen
    refine ⟨by omega, ihb h2, fun x hx => ?_⟩
    obtain ⟨q, a', cs, hx'⟩ := items_forall h3 x hx
    exact ihi hx'
  | seq f g ihf ihg =>
    obtain ⟨a, as, _, h1, hrest, -⟩ := Encoder.bind_eq_some.mp h
    obtain ⟨b, bs, _, h2, -, -⟩ := Encoder.bind_eq_some.mp hrest
    exact ⟨ihf h1, ihg h2⟩

theorem Small.bounded {f : Format} {v : f.Value} (h : f.Small v) : f.Bounded v := by
  induction f with
  | empty => trivial
  | uint var w info => trivial
  | required var w val info => trivial
  | shortString info => trivial
  | fixedString numChars info => trivial
  | select w info cases ih => exact ih v.1 h
  | block b info endInfo body ih => exact ⟨h.1, ih h.2⟩
  | listBlock b info endInfo body item ihb ihi => exact ⟨h.1, ihb h.2.1, fun x hx => ihi (h.2.2 x hx)⟩
  | seq f g ihf ihg => exact ⟨ihf h.1, ihg h.2⟩

end Format

/-- Where the first program does not throw, the second does not either, and both are in the same
places of the same blocks. -/
def Simulated {α β : Type} (x : Obx α) (y : Ocx β) : Prop :=
  ∀ o a o' t, Simulates o t → x o = .ok a o' → ∃ b t', y t = .ok b t' ∧ Simulates o' t'

section Simulated
variable {α β γ δ : Type} {x : Obx α} {y : Ocx β}

protected theorem Simulated.pure (a : α) (b : β) : Simulated (pure a) (pure b) := by
  intro o a' o' t h ho
  cases ho
  exact ⟨b, t, rfl, h⟩

protected theorem Simulated.bind {f : α → Obx γ} {g : β → Ocx δ} (hx : Simulated x y) (hf : ∀ a b, Simulated (f a) (g b)) :
    Simulated (x >>= f) (y >>= g) := by
  intro o c o' t h ho
  obtain ⟨a, o1, h1, h2⟩ := bind_eq_ok.mp ho
  obtain ⟨b, t1, ht1, hsim⟩ := hx o a o1 t h h1
  obtain ⟨d, t', ht', hsim'⟩ := hf a b o1 c o' t1 hsim h2
  exact ⟨d, t', (bind_ok ht1).trans ht', hsim'⟩

theorem Simulated.uint {var : Variable} {w : Nat} {val : var.Word} {info : Info} (hw : Variable.toNat val < 2^w) :
    Simulated (Iox.uint (m := .constructBinary) var w val info) (Iox.uint (m := .constructText) var w val info) := by
  intro o a o' t h ho
  obtain ⟨t', ht', hsim⟩ := uint_simulates h hw ho
  exact ⟨a, t', ht', hsim⟩

theorem Simulated.block {b : Nat} {info endInfo : Info} (hx : Simulated x y) :
    Simulated (Iox.namedBlock (m := .constructBinary) b info endInfo x) (Iox.namedBlock (m := .constructText) b info endInfo y) := by
  refine Simulated.bind (fun o u o' t h ho => ?_) fun _ _ => hx.bind fun _ _ => Simulated.bind (fun o n o' t h ho => ?_)
    fun _ _ => .pure _ _
  · obtain ⟨t', ht', hsim⟩ := namedBlockBegin_simulates h ho
    exact ⟨(), t', ht', hsim⟩
  · obtain ⟨t', ht', hsim⟩ := namedBlockEnd_simulates h ho
    exact ⟨n, t', ht', hsim⟩

theorem Simulated.items {io : α → Obx α} {io' : α → Ocx α} {list : List α} (h : ∀ a ∈ list, Simulated (io a) (io' a)) :
    Simulated (Iox.constructItems (m := .constructBinary) io list) (Iox.constructItems (m := .constructText) io' list) := by
  induction list with
  | nil => exact .pure [] []
  | cons a list ih =>
    exact (h a List.mem_cons_self).bind fun _ _ => (ih fun b hb => h b (List.mem_cons_of_mem a hb)).bind fun _ _ => .pure _ _

end Simulated

theorem Format.simulated (values : (f : Format) → f.Value) (fuel : Nat) {f : Format} (hf : f.Wf) {v : f.Value} (hv : f.Fits v) :
    Simulated (f.io values fuel (m := .constructBinary) v) (f.io values fuel (m := .constructText) v) := by
  induction f with
  | empty => exact .pure () ()
  | uint var w info => exact .uint hv
  | required var w val info =>
    refine (Simulated.uint hf.2.2).bind fun a b => ?_
    rw [if_neg (by rintro ⟨⟨⟩, -⟩), if_neg (by rintro ⟨⟨⟩, -⟩)]
    exact .pure () ()
  | shortString info =>
    intro o a o' t h ho
    obtain ⟨t', ht', hsim⟩ := shortString_simulates h hv ho
    exact ⟨v, t', ht', hsim⟩
  | fixedString numChars info =>
    intro o a o' t h ho
    obtain ⟨t', ht', hsim⟩ := fixedString_simulates h hv ho
    exact ⟨v, t', ht', hsim⟩
  | select w info cases ih =>
    obtain ⟨n, v⟩ := v
    have hfield : Simulated (Iox.uint (m := .constructBinary) .uint8 w n info) (Iox.uint (m := .constructText) .uint8 w n info) :=
      .uint hv.1
    show Simulated (Iox.uint8 (m := .constructBinary) w n info >>= _) (Iox.uint8 (m := .constructText) w n info >>= _)
    rw [uint8_constructing (m := .constructBinary) rfl, uint8_constructing (m := .constructText) rfl, dif_pos rfl]
    exact hfield.bind fun _ _ => (ih n (hf.2 n) hv.2).bind fun _ _ => .pure _ _
  | block b info endInfo body ih => exact (ih hf.2 hv).block
  | listBlock b info endInfo body item ihb ihi =>
    obtain ⟨-, hbody, hitem, -⟩ := hf
    exact ((ihb hbody hv.1).bind fun _ _ => (Simulated.items fun x hx => ihi hitem (hv.2 x hx)).bind fun _ _ => .pure _ _).block
  | seq f g ihf ihg => exact (ihf hf.1 hv.1).bind fun _ _ => (ihg hf.2 hv.2).bind fun _ _ => .pure _ _

theorem Format.simulated_prints (values : (f : Format) → f.Value) (fuel : Nat) {f : Format} (hf : f.Wf) {v a : f.Value}
    (hv : f.Fits v) (hb : f.Bounded v) {o o' : ObCtx} {t : OcCtx} (h : Simulates o t) (hroom : o.bitpos + f.size v < 2^32)
    (hseat : f.Seated v t.scopeStack.length t.prod.length)
    (ho : f.io values fuel (m := .constructBinary) v o = .ok a o') :
    ∃ b bits, f.io values fuel (m := .constructText) v t = .ok b (t.print (f.size v) (f.text v t.scopeStack.length)) ∧
      Simulates o' (t.print (f.size v) (f.text v t.scopeStack.length)) ∧
      f.encode 40 v o.bitpos = some (b, bits) ∧ bits.length = f.size v := by
  obtain ⟨b, t', ht', hsim⟩ := simulated values fuel hf hv o a o' t h ho
  obtain ⟨⟨bits, he, hbits⟩, rfl⟩ := prints values fuel hf hv hb t b t' (by rwa [h.bitpos]) hseat ht'
  rw [h.bitpos] at he
  exact ⟨b, bits, ht', hsim, he, hbits⟩

end Mopa.Io
