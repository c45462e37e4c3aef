import Mopa.TextNumerals
import Mopa.TextRoundTrip
import Mopa.TextSyntax

/-! The texts of a value, whoever has written them. Blanks, notations of numbers, escapes in
strings and the lengths of blocks, as far as these are not too small, may differ from what text
construction prints; parsing reads all of them. -/
namespace Mopa.Io
open Outcome IcCtx OcCtx

namespace Syntax

/-- The numerals of a number: decimal and binary ones, and hexadecimal ones without letters.
Leading zeros do not count. -/
inductive NumeralOf : Nat → List UInt8 → Prop
  | dec {s : List UInt8} : s ≠ [] → (∀ ch ∈ s, (decDigit ch).isSome) → NumeralOf (Numeral.value 10 0 (s.map Icx.decValue)) s
  | hex {s : List UInt8} : s ≠ [] → (∀ ch ∈ s, (decDigit ch).isSome) →
      NumeralOf (Numeral.value 16 0 (s.map Icx.decValue)) (chars "0x" ++ s)
  | bin {s : List UInt8} : s ≠ [] → (∀ ch ∈ s, (binDigit ch).isSome) →
      NumeralOf (Numeral.value 2 0 (s.map Icx.decValue)) (chars "0b" ++ s)

instance (ch : UInt8) : Decidable (IsBlank ch) := inferInstanceAs (Decidable (_ ∨ _))

def Blanks (s : List UInt8) : Prop := ∀ ch ∈ s, IsBlank ch

instance (s : List UInt8) : Decidable (Blanks s) := List.decidableBAll _ s

/-- A name, a colon and a numeral of the number, with a blank behind it. -/
def NumberOf (info : Info) (n : Nat) (s : List UInt8) : Prop := ∃ name colon blanks num ch trail,
  Token info.name name ∧ Token (chars ":") colon ∧ Blanks blanks ∧ NumeralOf n num ∧ Blanks (ch :: trail) ∧
    s = name ++ (colon ++ (blanks ++ (num ++ ch :: trail)))

def StringOf (info : Info) (str s : List UInt8) : Prop := ∃ name colon quote body trail,
  Token info.name name ∧ Token (chars ":") colon ∧ Token (chars "'") quote ∧ Denotes body str ∧ Blanks trail ∧
    s = name ++ (colon ++ (quote ++ (body ++ 39 :: trail)))

def BlockOf (info : Info) (n : Nat) (contents : List UInt8 → Prop) (s : List UInt8) : Prop :=
  ∃ number left blanks body right trail, NumberOf info n number ∧ Token (chars "\x7b") left ∧ Blanks blanks ∧ contents body ∧
    Token (chars "\x7d") right ∧ Blanks trail ∧ s = number ++ (left ++ (blanks ++ (body ++ (right ++ trail))))

/-- Items one behind the other, each in the room that those in front of it have left. -/
def ItemsOf {α : Type} (item : α → Nat → List UInt8 → Prop) (size : α → Nat) : List α → Nat → List UInt8 → Prop
  | [], _, s => s = []
  | a :: list, room, s => ∃ s1 s2, item a room s1 ∧ ItemsOf item size list (room - size a) s2 ∧ s = s1 ++ s2

end Syntax

namespace Format
open Syntax

/-- The texts of a value in a room of so many bits. The length in front of a block need not be
the right one; it is the room for the contents. -/
def Written : (f : Format) → f.Value → Nat → List UInt8 → Prop
  | empty, _, _, s => s = []
  | uint _ w info, val, room, s => w ≤ room ∧ NumberOf info (Variable.toNat val) s
  | required _ w val info, _, room, s => w ≤ room ∧ NumberOf info (Variable.toNat val) s
  | shortString info, str, room, s => 8 + 8 * str.length ≤ room ∧ StringOf info str s
  | fixedString numChars info, str, room, s => 8 * numChars ≤ room ∧ StringOf info str s
  | select w info cases, v, room, s => w ≤ room ∧ ∃ s1 s2, NumberOf info v.1.toNat s1 ∧
      (cases v.1).Written v.2 (room - w) s2 ∧ s = s1 ++ s2
  | block b info _ body, v, room, s => ∃ n, n < 2^b ∧ b + 8 * n ≤ room ∧ BlockOf info n (body.Written v.2 (8 * n)) s
  | listBlock b info _ body item, v, room, s => ∃ n, n < 2^b ∧ b + 8 * n ≤ room ∧ BlockOf info n (fun t => ∃ t1 t2,
      body.Written v.2.1 (8 * n) t1 ∧ ItemsOf item.Written item.size v.2.2 (8 * n - body.size v.2.1) t2 ∧ t = t1 ++ t2) s
  | seq f g, v, room, s => ∃ s1 s2, f.Written v.1 room s1 ∧ g.Written v.2 (room - f.size v.1) s2 ∧ s = s1 ++ s2

end Format

theorem skipBlanks_blanks {blanks : List UInt8} (h : Syntax.Blanks blanks) (text : List UInt8) :
    skipBlanks (blanks ++ text) = skipBlanks text := by
  induction blanks with
  | nil => rfl
  | cons ch blanks ih =>
    obtain ⟨hch, hblanks⟩ := List.forall_mem_cons.mp h
    exact (if_pos hch).trans (ih hblanks)

theorem skipBlanks_token {t s : List UInt8} (h : Syntax.Token t s) (rest : List UInt8) :
    skipBlanks (s ++ rest) = skipBlanks (t ++ rest) := by
  obtain ⟨blanks, hblanks, rfl⟩ := h
  rw [List.append_assoc]
  exact skipBlanks_blanks hblanks (t ++ rest)

theorem digit_not_blank {ch : UInt8} (h : (decDigit ch).isSome) : ¬ Blank ch := by
  rintro (rfl | rfl | rfl) <;> exact absurd h (by decide)

theorem decDigit_blank {ch : UInt8} (h : Blank ch) : decDigit ch = none := by
  rcases h with rfl | rfl | rfl <;> decide

namespace Icx
variable {c : IcCtx} {info : Info} {s t rest : List UInt8} {n w : Nat} {ch : UInt8}

theorem expect_token {req : List UInt8} (h : Syntax.Token (ch :: req) s) (hch : ¬ Blank ch) (hnext : c.Next (s ++ rest)) :
    expect (ch :: req) c = .ok true { c with parsePos := rest } :=
  expect_next (hnext.trans (skipBlanks_token h rest)) hch

theorem expect_named {name : List UInt8} (hname : Identifier name) (h : Syntax.Token name s) (hnext : c.Next (s ++ rest)) :
    expect name c = .ok true { c with parsePos := rest } := by
  obtain ⟨ch, req, rfl, hletter⟩ := hname.begins
  exact expect_token h (letter_not_blank hletter) hnext

theorem readNumeral_blanks (h : skipBlanks c.parsePos = ch :: rest) (hch : ¬ Blank ch) :
    readNumeral w info c = readNumeral w info { c with parsePos := ch :: rest } := by
  have hhere : discard skiptotoken { c with parsePos := ch :: rest } = .ok () { c with parsePos := ch :: rest } :=
    discard_skiptotoken_here rfl hch
  unfold readNumeral
  rw [bind_ok (discard_skiptotoken h), bind_ok hhere]

theorem readNumeral_bin (h : c.parsePos = 48 :: 98 :: rest) :
    readNumeral w info c = readBin w info { c with parsePos := rest } := by
  refine (bind_ok (discard_skiptotoken_here h (by decide))).trans ((bind_ok (charAt_zero h)).trans ?_)
  rw [if_pos rfl]
  refine (bind_ok (charAt_one h)).trans ?_
  rw [if_neg (by decide)]
  refine (bind_ok (charAt_one h)).trans ?_
  rw [if_pos rfl]
  have hadvance : advance 2 c = .ok () { c with parsePos := rest } := by
    unfold advance
    rw [h]
    rfl
  exact bind_ok hadvance

theorem readNumeral_numeral {num : List UInt8} (h : Syntax.NumeralOf n num) (hch : Blank ch) (hn : n < 2^w) (hw : w ≤ 32)
    (hpos : c.parsePos = num ++ ch :: rest) : readNumeral w info c = .ok n { c with parsePos := ch :: rest } := by
  cases h with
  | @dec s hne hs =>
    obtain ⟨d, ds, rfl⟩ := List.exists_cons_of_ne_nil hne
    obtain ⟨hd, hds⟩ := List.forall_mem_cons.mp hs
    -- the second character is a digit or the blank, no prefix
    obtain ⟨ch1, rest', htext, hch1⟩ : ∃ ch1 rest', (d :: ds) ++ ch :: rest = d :: ch1 :: rest' ∧
        ((decDigit ch1).isSome ∨ Blank ch1) := by
      cases ds with
      | nil => exact ⟨ch, rest, rfl, .inr hch⟩
      | cons d1 ds => exact ⟨d1, ds ++ ch :: rest, rfl, .inl (hds d1 List.mem_cons_self)⟩
    have hx : ch1 ≠ 120 ∧ ch1 ≠ 98 := by
      constructor <;> rintro rfl <;> revert hch1 <;> decide
    have hread : ReadsNumeral (readDec w info) w (Numeral.value 10 0 ((d :: ds).map decValue)) info c (ch :: rest) :=
      readDec_run hs (decDigit_blank hch) hw hpos
    exact (readNumeral_decimal (hpos.trans htext) (digit_not_blank hd) hx.1 hx.2).trans ((if_pos hn).mp hread)
  | @hex s hne hs =>
    have hdigit : ∀ x ∈ s, hexDigit x = some (decValue x) := by
      intro x hx
      have hx := hs x hx
      unfold decDigit at hx
      unfold hexDigit
      split at hx
      · next hrange =>
        rw [if_pos hrange]
        rfl
      · cases hx
    have hnone : hexDigit ch = none := by
      rcases hch with rfl | rfl | rfl <;> decide
    have hread : ReadsNumeral (readHex w info) w (Numeral.value 16 0 (s.map decValue)) info
        { c with parsePos := s ++ ch :: rest } (ch :: rest) := readNumber_run hdigit (by decide) hnone hw rfl
    exact (readNumeral_hexadecimal hpos).trans ((if_pos hn).mp hread)
  | @bin s hne hs =>
    have hnone : binDigit ch = none := by
      rcases hch with rfl | rfl | rfl <;> decide
    have hread : ReadsNumeral (readBin w info) w (Numeral.value 2 0 (s.map decValue)) info
        { c with parsePos := s ++ ch :: rest } (ch :: rest) := readBin_run hs hnone hw rfl
    exact (readNumeral_bin hpos).trans ((if_pos hn).mp hread)

theorem numeral_begins {num : List UInt8} (h : Syntax.NumeralOf n num) : ∃ ch s, num = ch :: s ∧ ¬ Blank ch := by
  cases h with
  | dec hne hs =>
    obtain ⟨d, ds, rfl⟩ := List.exists_cons_of_ne_nil hne
    exact ⟨d, ds, rfl, digit_not_blank (hs d List.mem_cons_self)⟩
  | hex => exact ⟨48, _, rfl, by decide⟩
  | bin => exact ⟨48, _, rfl, by decide⟩

theorem uint_number (hname : Identifier info.name) (h : Syntax.NumberOf info n s) (hn : n < 2^w) (hw : w ≤ 32)
    (hnext : c.Next (s ++ rest)) : ∃ trail, Syntax.Blanks trail ∧
      uint w info c = .ok (UInt32.ofNat n) { c with parsePos := trail ++ rest, bitpos := u32 (c.bitpos + w) } := by
  obtain ⟨name, colon, blanks, num, ch, trail, hnamed, hcolon, hblanks, hnum, htrail, rfl⟩ := h
  simp only [List.append_assoc, List.cons_append] at hnext
  have hfound := expect_named hname hnamed hnext
  have hcolon := expect_token (c := { c with parsePos := colon ++ (blanks ++ (num ++ ch :: (trail ++ rest))) }) hcolon (by decide) rfl
  obtain ⟨d, ds, rfl, hd⟩ := numeral_begins hnum
  have hskip : skipBlanks (blanks ++ (d :: ds ++ ch :: (trail ++ rest))) = d :: (ds ++ ch :: (trail ++ rest)) :=
    (skipBlanks_blanks hblanks _).trans (skipBlanks_cons hd _)
  have hread : readUint w info c = .ok n { c with parsePos := ch :: (trail ++ rest) } := by
    rw [readUint_eq]
    refine (bind_ok hfound).trans ?_
    rw [if_pos rfl]
    refine (bind_ok hcolon).trans ?_
    rw [if_pos rfl]
    exact (readNumeral_blanks (c := { c with parsePos := blanks ++ (d :: ds ++ ch :: (trail ++ rest)) }) hskip hd).trans
      (readNumeral_numeral hnum (htrail ch List.mem_cons_self) hn hw rfl)
  exact ⟨ch :: trail, htrail, icx_uint_of_ok hread⟩

theorem parseString_written {str : List UInt8} (hname : Identifier info.name) (h : Syntax.StringOf info str s)
    (hal : c.bitpos % 8 = 0) (hnext : c.Next (s ++ rest)) :
    ∃ trail, Syntax.Blanks trail ∧ parseString info c = .ok str { c with parsePos := trail ++ rest } := by
  obtain ⟨name, colon, quote, body, trail, hnamed, hcolon, hquote, hbody, htrail, rfl⟩ := h
  simp only [List.append_assoc, List.cons_append] at hnext
  have hfound := expect_named hname hnamed hnext
  have hcolon := expect_token (c := { c with parsePos := colon ++ (quote ++ (body ++ 39 :: (trail ++ rest))) }) hcolon (by decide) rfl
  have hquote := expect_token (c := { c with parsePos := quote ++ (body ++ 39 :: (trail ++ rest)) }) hquote (by decide) rfl
  have hopen : openQuote info c = .ok () { c with parsePos := body ++ 39 :: (trail ++ rest) } :=
    (bind_ok (discard_ok hfound)).trans ((bind_ok (discard_ok hcolon)).trans (discard_ok hquote))
  have hclosed : unquote [] (body ++ 39 :: (trail ++ rest)) = .closed str (trail ++ rest) :=
    unquote_denotes hbody [] (trail ++ rest)
  exact ⟨trail, htrail, by rw [parseString_open hal hopen, hclosed]⟩

end Icx

/-- With so much room at offset `p` in a byte, the program reads the text up to the rest, gives
what is stated and moves by the size. -/
def Takes {α : Type} (x : Icx α) (post : α → Prop) (p size room : Nat) (text rest : List UInt8) : Prop :=
  ∀ c, c.Next (text ++ rest) → c.bitpos % 8 = p % 8 → c.bitpos + room ≤ c.bitlimit → c.bitlimit < 2^32 →
    ∃ a c', x c = .ok a c' ∧ post a ∧ c.Passed c' size rest

section Takes
variable {α β : Type} {x : Icx α} {post post' : α → Prop} {goal : β → Prop} {p s s' room : Nat} {t t' rest : List UInt8}
  {c c' : IcCtx} {info endInfo : Info}

protected theorem Takes.pure {a : α} (ha : post a) : Takes (pure a) post p 0 room [] rest := fun c hnext _ _ _ =>
  ⟨a, c, rfl, ha, hnext, rfl, rfl, Nat.le_refl _, rfl⟩

protected theorem Takes.bind {f : α → Icx β} (hs : s ≤ room) (hx : Takes x post p s room t (t' ++ rest))
    (hf : ∀ a, post a → Takes (f a) goal (p + s) s' (room - s) t' rest) : Takes (x >>= f) goal p (s + s') room (t ++ t') rest := by
  intro c hnext hp hroom hl
  rw [List.append_assoc] at hnext
  obtain ⟨a, c1, h1, ha, h⟩ := hx c hnext hp hroom hl
  have hoffset := h.offset
  have hwithin := h.within
  obtain ⟨b, c2, h2, hb, h'⟩ := hf a ha c1 h.next (by omega) (by rw [h.limit]; omega) (h.limit ▸ hl)
  have hoffset' := h'.offset
  have hwithin' := h'.within
  exact ⟨b, c2, (bind_ok h1).trans h2, hb, h'.next, h'.stack.trans h.stack, h'.limit.trans h.limit, by omega, by omega⟩

theorem Takes.bind_pure {f : α → Icx β} (hx : Takes x post p s room t rest) (hf : ∀ a, post a → ∃ b, f a = pure b ∧ goal b) :
    Takes (x >>= f) goal p s room t rest := by
  intro c hnext hp hroom hl
  obtain ⟨a, c1, h1, ha, h⟩ := hx c hnext hp hroom hl
  obtain ⟨b, hb, hgoal⟩ := hf a ha
  exact ⟨b, c1, (bind_ok h1).trans (by rw [hb]; rfl), hgoal, h⟩

theorem Takes.pair {y : Icx β} (hs : s ≤ room) (hx : Takes x post p s room t (t' ++ rest))
    (hy : Takes y goal (p + s) s' (room - s) t' rest) :
    Takes (do
      let a ← x
      let b ← y
      return (a, b)) (fun r => post r.1 ∧ goal r.2) p (s + s') room (t ++ t') rest :=
  hx.bind hs fun a ha => hy.bind_pure fun b hb => ⟨(a, b), rfl, ha, hb⟩

theorem Takes.mono (hx : Takes x post p s room t rest) (h : ∀ a, post a → post' a) : Takes x post' p s room t rest := by
  intro c hnext hp hroom hl
  obtain ⟨a, c1, h1, ha, hpassed⟩ := hx c hnext hp hroom hl
  exact ⟨a, c1, h1, h a ha, hpassed⟩

theorem Takes.uint {var : Variable} {w : Nat} {val into : var.Word} (hw : w ≤ var.width) (hv : Variable.toNat val < 2^w)
    (hname : Identifier info.name) (hroom : w ≤ room) (ht : Syntax.NumberOf info (Variable.toNat val) t) :
    Takes (Iox.uint (m := .parseText) var w into info) (· = val) p w room t rest := by
  intro c hnext _ hlimit hl
  have hw32 : w ≤ 32 := hw.trans (by cases var <;> decide)
  obtain ⟨trail, htrail, hread⟩ := Icx.uint_number hname ht hv hw32 hnext
  rw [u32_of_lt (by omega)] at hread
  have hpassed : c.Passed { c with parsePos := trail ++ rest, bitpos := c.bitpos + w } w rest :=
    ⟨skipBlanks_blanks htrail rest, rfl, rfl, Nat.le_refl _, rfl⟩
  cases var with
  | uint8 => exact ⟨_, _, bind_ok hread, by simp [Variable.toNat], hpassed⟩
  | uint16 => exact ⟨_, _, bind_ok hread, by simp [Variable.toNat], hpassed⟩
  | uint32 => exact ⟨_, _, hread, by simp [Variable.toNat], hpassed⟩

theorem Takes.string {str : List UInt8} (size : List UInt8 → Nat) (hname : Identifier info.name) (hp : p % 8 = 0)
    (hn : 8 * size str ≤ s) (hs : s % 8 = 0) (hroom : s ≤ room) (ht : Syntax.StringOf info str t) :
    Takes (do
      let str ← Icx.parseString info
      Icx.skipBytes (size str) info
      return str) (· = str) p s room t rest := by
  intro c hnext hc hlimit hl
  obtain ⟨trail, htrail, hread⟩ := Icx.parseString_written hname ht (by omega) hnext
  have hskip : Icx.skipBytes (size str) info { c with parsePos := trail ++ rest } =
      .ok () { c with parsePos := trail ++ rest, bitpos := c.bitpos + 8 * size str } := by
    unfold Icx.skipBytes
    dsimp only
    rw [u32_of_lt (by omega), if_neg (by omega), Nat.mul_comm]
  exact ⟨str, _, (bind_ok hread).trans ((bind_ok hskip).trans rfl), rfl, skipBlanks_blanks htrail rest, rfl, rfl,
    Nat.add_le_add_left hn _, by
    show (c.bitpos + 8 * size str) % 8 = _
    omega⟩

theorem Takes.shortString {str into : List UInt8} (hname : Identifier info.name) (hp : p % 8 = 0)
    (hroom : 8 + 8 * str.length ≤ room) (ht : Syntax.StringOf info str t) :
    Takes (Iox.shortStringIo (m := .parseText) into info) (· = str) p (8 + 8 * str.length) room t rest :=
  .string (fun str => (1 + str.length) % 256) hname hp (by omega) (by omega) hroom ht

theorem Takes.fixedString {str into : List UInt8} {n : Nat} (hname : Identifier info.name) (hp : p % 8 = 0)
    (hroom : 8 * str.length ≤ room) (ht : Syntax.StringOf info str t) :
    Takes (Iox.fixedStringIo n (m := .parseText) into info) (· = str) p (8 * str.length) room t rest :=
  .string (fun str => str.length % 256) hname hp (by omega) (by omega) hroom ht

theorem blockBegin_written {b n : Nat} {number left : List UInt8} (hname : Identifier info.name) (hb : b ≤ 16) (hn : n < 2^b)
    (hnumber : Syntax.NumberOf info n number) (hleft : Syntax.Token (chars "\x7b") left)
    (hnext : c.Next (number ++ (left ++ t))) (hal : (c.bitpos + b) % 8 = 0) (hroom : c.bitpos + b + 8 * n ≤ c.bitlimit)
    (hl : c.bitlimit < 2^32) :
    Icx.namedBlockBegin b info c = .ok ()
      ⟨c.bitpos + b, c.bitpos + b + 8 * n, ⟨info, c.bitpos + b, c.bitlimit⟩ :: c.scopeStack, t⟩ := by
  obtain ⟨trail, htrail, hread⟩ := Icx.uint_number hname hnumber hn (hb.trans (by decide)) hnext
  have hn16 : n < 2^16 := hn.trans_le (Nat.pow_le_pow_right (by decide) hb)
  have hlength : (UInt32.ofNat n).toNat = n := Nat.mod_eq_of_lt (by omega)
  refine (bind_ok hread).trans ?_
  rw [hlength, u32_of_lt (by omega)]
  unfold Icx.blockBegin
  rw [get_bind]
  dsimp only
  rw [if_neg (not_not.mpr hal), u32_of_lt (n := n * 8) (by omega), u32_of_lt (by omega), if_neg (by omega)]
  have hbrace : Icx.enterScope ⟨c.bitpos + b, c.bitlimit, c.scopeStack, trail ++ (left ++ t)⟩ =
      .ok () ⟨c.bitpos + b, c.bitlimit, c.scopeStack, t⟩ :=
    Icx.discard_ok (Icx.expect_token hleft (by decide) (skipBlanks_blanks htrail _))
  refine (bind_ok hbrace).trans ?_
  show EStateM.Result.ok () (IcCtx.mk (c.bitpos + b) (u32 (c.bitpos + b + n * 8)) _ _) = _
  rw [u32_of_lt (by omega), Nat.mul_comm n 8]

theorem Takes.block {b n : Nat} {contents : List UInt8 → Prop} (hname : Identifier info.name) (hb : b ≤ 16) (hn : n < 2^b)
    (hp : (p + b) % 8 = 0) (hs : s % 8 = 0) (hroom : b + 8 * n ≤ room)
    (ht : Syntax.BlockOf info n contents t)
    (hx : ∀ body rest, contents body → Begins 125 rest → Takes x post (p + b) s (8 * n) body rest) :
    Takes (Iox.namedBlock (m := .parseText) b info endInfo x) (fun r => post r.2) p (b + s) room t rest := by
  obtain ⟨number, left, blanks, body, right, trail, hnumber, hleft, hblanks, hbody, hright, htrail, rfl⟩ := ht
  intro c hnext hc hlimit hl
  simp only [List.append_assoc] at hnext
  have hbegin := blockBegin_written hname hb hn hnumber hleft hnext (by omega) (by omega) hl
  have hcloses : Begins 125 (right ++ (trail ++ rest)) :=
    ⟨trail ++ rest, (skipBlanks_token hright _).trans (skipBlanks_cons (by decide) _)⟩
  obtain ⟨a, c1, h1, ha, hpassed⟩ := hx body (right ++ (trail ++ rest)) hbody hcloses
    ⟨c.bitpos + b, c.bitpos + b + 8 * n, ⟨info, c.bitpos + b, c.bitlimit⟩ :: c.scopeStack,
      blanks ++ (body ++ (right ++ (trail ++ rest)))⟩ (skipBlanks_blanks hblanks _)
    (show (c.bitpos + b) % 8 = _ by omega) (Nat.le_refl _) (show c.bitpos + b + 8 * n < 2^32 by omega)
  have hoffset : c1.bitpos % 8 = (c.bitpos + b + s) % 8 := hpassed.offset
  have hwithin : c1.bitpos ≤ c.bitpos + b + s := hpassed.within
  have hleave : Icx.leaveScope c1 = .ok () { c1 with parsePos := trail ++ rest } :=
    Icx.discard_ok (Icx.expect_token hright (by decide) hpassed.next)
  have hend : Icx.blockEnd endInfo c1 = _ := icx_blockEnd_apply hpassed.stack hleave (by
    show sub32 c1.bitpos (c.bitpos + b) % 8 = 0
    unfold sub32
    omega)
  exact ⟨_, _, (bind_ok hbegin).trans ((bind_ok h1).trans ((bind_ok hend).trans rfl)), ha, skipBlanks_blanks htrail rest, rfl, rfl,
    by show c1.bitpos ≤ _; omega, by show c1.bitpos % 8 = _; omega⟩

theorem Takes.items {γ : Type} {io : α → Icx α} {fresh : α} {e : α → Encoder α} {item : α → Nat → List UInt8 → Prop}
    {size : α → Nat} {view : α → γ} {list list' : List α} {bits : List Bool} {fuel : Nat}
    (hitem : ∀ a ∈ list, ∀ p a' as room t, e a p = some (a', as) → item a room t →
      size a = as.length ∧ 1 ≤ as.length ∧ as.length ≤ room ∧ (∃ ch, isLetter ch ∧ ∀ rest, Begins ch (t ++ rest)) ∧
        ∀ rest, Takes (io fresh) (view · = view a) p as.length room t rest)
    (he : Encoder.items e list p = some (list', bits)) (ht : Syntax.ItemsOf item size list room t) (hrest : Begins 125 rest)
    (hfuel : bits.length < fuel) (acc : List α) :
    Takes (Iox.parseItems (m := .parseText) fresh io fuel acc) (fun l => l.map view = acc.map view ++ list.map view) p
      bits.length room t rest := by
  induction list generalizing p list' bits room t fuel acc with
  | nil =>
    cases he
    obtain rfl : t = [] := ht
    intro c hnext _ _ _
    obtain ⟨fuel, rfl⟩ := Nat.exists_eq_succ_of_ne_zero (by omega : fuel ≠ 0)
    obtain ⟨r, hleft, hnext'⟩ := blockSizeLeft_closes (show c.Next rest from hnext) hrest
    refine ⟨acc, _, (bind_ok hleft).trans ?_, by rw [List.map_nil, List.append_nil], hnext', rfl, rfl, Nat.le_refl _, rfl⟩
    rw [if_neg (Nat.lt_irrefl 0)]
    rfl
  | cons a list ih =>
    obtain ⟨a', as, _, h1, htail, rfl⟩ := Encoder.bind_eq_some.mp he
    obtain ⟨list'', bs, _, h2, hpure, rfl⟩ := Encoder.bind_eq_some.mp htail
    obtain ⟨-, rfl⟩ := Encoder.pure_eq_some.mp hpure
    obtain ⟨s1, s2, hs1, hs2, rfl⟩ := ht
    obtain ⟨hsize, hsome, hle, ⟨ch, hletter, hbegins⟩, htakes⟩ := hitem a List.mem_cons_self p a' as room s1 h1 hs1
    rw [List.append_nil] at *
    rw [List.length_append] at *
    rw [hsize] at hs2
    obtain ⟨fuel, rfl⟩ := Nat.exists_eq_succ_of_ne_zero (by omega : fuel ≠ 0)
    have hrun : Takes (io fresh >>= fun item => Iox.parseItems (m := .parseText) fresh io fuel (acc ++ [item]))
        (fun l => l.map view = acc.map view ++ (a :: list).map view) p (as.length + bs.length) room (s1 ++ s2) rest := by
      refine (htakes _).bind hle fun item hview => ?_
      refine (ih (fun x hx => hitem x (List.mem_cons_of_mem a hx)) h2 hs2 (by omega) (acc ++ [item])).mono fun l hl => ?_
      rw [hl, List.map_append, List.map_singleton, hview, List.append_assoc]
      rfl
    intro c hnext hp hroom hl
    obtain ⟨r, hleft, hnext'⟩ := blockSizeLeft_letter hnext (by rw [List.append_assoc]; exact hbegins _) hletter
    obtain ⟨l, c', hio, hl', hpassed⟩ := hrun { c with parsePos := ch :: r } hnext' hp hroom hl
    refine ⟨l, c', (bind_ok hleft).trans ?_, hl', hpassed.next, hpassed.stack, hpassed.limit, hpassed.within, hpassed.offset⟩
    have hpos : sub32 c.bitlimit c.bitpos > 0 := by
      rw [sub32_of_le (by omega) hl]
      omega
    rw [if_pos hpos]
    exact hio

end Takes

namespace Format
open Syntax

theorem size_le_of_items {α : Type} (item : α → Nat → List UInt8 → Prop) {size : α → Nat}
    (h : ∀ a room s, item a room s → size a ≤ room) {list : List α} {room : Nat} {s : List UInt8}
    (hs : ItemsOf item size list room s) : (list.map size).sum ≤ room := by
  induction list generalizing room s with
  | nil => exact Nat.zero_le _
  | cons a list ih =>
    obtain ⟨s1, s2, hs1, hs2, rfl⟩ := hs
    have hsize := h a room s1 hs1
    have hsizes := ih hs2
    rw [List.map_cons, List.sum_cons]
    omega

theorem size_le_of_written {f : Format} {v : f.Value} {room : Nat} {s : List UInt8} (h : f.Written v room s) : f.size v ≤ room := by
  induction f generalizing room s with
  | empty => exact Nat.zero_le _
  | uint var w info => exact h.1
  | required var w val info => exact h.1
  | shortString info => exact h.1
  | fixedString numChars info => exact h.1
  | select w info cases ih =>
    obtain ⟨hw, s1, s2, -, hs2, rfl⟩ := h
    have hcase := ih v.1 hs2
    show w + _ ≤ room
    omega
  | block b info endInfo body ih =>
    obtain ⟨n, -, hroom, _, _, _, t, _, _, -, -, -, ht, -, -, rfl⟩ := h
    have hbody := ih ht
    show b + _ ≤ room
    omega
  | listBlock b info endInfo body item ihb ihi =>
    obtain ⟨n, -, hroom, _, _, _, t, _, _, -, -, -, ⟨t1, t2, ht1, ht2, rfl⟩, -, -, rfl⟩ := h
    have hbody := ihb ht1
    have hitems := size_le_of_items item.Written (fun _ _ _ => ihi) ht2
    show b + (_ + _) ≤ room
    omega
  | seq f g ihf ihg =>
    obtain ⟨s1, s2, hs1, hs2, rfl⟩ := h
    have hf := ihf hs1
    have hg := ihg hs2
    show _ + _ ≤ room
    omega

theorem numberOf_begins {info : Info} {n : Nat} {s : List UInt8} (hname : Identifier info.name) (h : NumberOf info n s) :
    ∃ ch, isLetter ch ∧ ∀ rest, Begins ch (s ++ rest) := by
  obtain ⟨ch, req, hinfo, hletter⟩ := hname.begins
  obtain ⟨name, colon, blanks, num, _, _, hnamed, -, -, -, -, rfl⟩ := h
  refine ⟨ch, hletter, fun rest => ?_⟩
  rw [List.append_assoc, Begins, skipBlanks_token hnamed, hinfo]
  exact ⟨_, skipBlanks_cons (letter_not_blank hletter) _⟩

theorem stringOf_begins {info : Info} {str s : List UInt8} (hname : Identifier info.name) (h : StringOf info str s) :
    ∃ ch, isLetter ch ∧ ∀ rest, Begins ch (s ++ rest) := by
  obtain ⟨ch, req, hinfo, hletter⟩ := hname.begins
  obtain ⟨name, colon, quote, body, _, hnamed, -, -, -, -, rfl⟩ := h
  refine ⟨ch, hletter, fun rest => ?_⟩
  rw [List.append_assoc, Begins, skipBlanks_token hnamed, hinfo]
  exact ⟨_, skipBlanks_cons (letter_not_blank hletter) _⟩

theorem blockOf_begins {info : Info} {n : Nat} {contents : List UInt8 → Prop} {s : List UInt8} (hname : Identifier info.name)
    (h : BlockOf info n contents s) : ∃ ch, isLetter ch ∧ ∀ rest, Begins ch (s ++ rest) := by
  obtain ⟨number, left, _, body, right, _, hnumber, -, -, -, -, -, rfl⟩ := h
  exact begins_append (numberOf_begins hname hnumber) _

theorem written_begins {f : Format} (hn : f.Called) {v : f.Value} {room : Nat} {s : List UInt8} (h : f.Written v room s) :
    (s = [] ∧ f.size v = 0) ∨ ∃ ch, isLetter ch ∧ ∀ rest, Begins ch (s ++ rest) := by
  induction f generalizing room s with
  | empty => exact .inl ⟨h, rfl⟩
  | uint var w info => exact .inr (numberOf_begins hn h.2)
  | required var w val info => exact .inr (numberOf_begins hn h.2)
  | shortString info => exact .inr (stringOf_begins hn h.2)
  | fixedString numChars info => exact .inr (stringOf_begins hn h.2)
  | select w info cases ih =>
    obtain ⟨-, s1, s2, hs1, -, rfl⟩ := h
    exact .inr (begins_append (numberOf_begins hn.1 hs1) _)
  | block b info endInfo body ih =>
    obtain ⟨n, -, -, h⟩ := h
    exact .inr (blockOf_begins hn.1.name h)
  | listBlock b info endInfo body item ihb ihi =>
    obtain ⟨n, -, -, h⟩ := h
    exact .inr (blockOf_begins hn.1.name h)
  | seq f g ihf ihg =>
    obtain ⟨s1, s2, hs1, hs2, rfl⟩ := h
    rcases ihf hn.1 hs1 with ⟨rfl, hsize⟩ | hf
    · rcases ihg hn.2 hs2 with ⟨rfl, hsize'⟩ | hg
      · refine .inl ⟨rfl, ?_⟩
        show f.size v.1 + g.size v.2 = 0
        rw [hsize, hsize']
      · exact .inr hg
    · exact .inr (begins_append hf _)

/-- Parsing in text mode reads the texts of a value, whatever it is read into. -/
theorem takes (values : (f : Format) → f.Value) {fuel : Nat} {f : Format} (hf : f.Wf) (hn : f.Called) {v v' : f.Value}
    {p room : Nat} {bits : List Bool} {s : List UInt8} (he : f.encode 40 v p = some (v', bits)) (hfuel : bits.length < fuel)
    (hs : f.Written v room s) (rest : List UInt8) (into : f.Value) :
    Takes (f.io values fuel (m := .parseText) into) (f.contents · = f.contents v) p bits.length room s rest := by
  induction f generalizing p bits room s rest with
  | empty =>
    cases he
    obtain rfl : s = [] := hs
    exact .pure rfl
  | uint var w info =>
    obtain ⟨-, ⟨hv, -⟩, rfl⟩ := encodeUint_eq_some.mp he
    rw [Bits.length_ofNat]
    exact .uint hf.2 hv hn hs.1 hs.2
  | required var w val info =>
    obtain ⟨val', as, bs, h1, hpure, rfl⟩ := Encoder.bind_eq_some.mp he
    obtain ⟨-, rfl⟩ := Encoder.pure_eq_some.mp hpure
    obtain ⟨-, ⟨hv, -⟩, rfl⟩ := encodeUint_eq_some.mp h1
    rw [List.append_nil, Bits.length_ofNat]
    have hfield : Takes (Iox.uint (m := .parseText) var w val info) (· = val) p w room s rest :=
      .uint hf.2.1 hv hn hs.1 hs.2
    exact hfield.bind_pure fun a ha => ⟨(), if_neg fun h => h.2 ha, rfl⟩
  | shortString info =>
    obtain ⟨-, ⟨hp, hlen⟩, rfl⟩ := encodeShortString_eq_some.mp he
    rw [List.length_append, Bits.length_ofNat, Bits.length_ofBytes]
    exact .shortString hn hp hs.1 hs.2
  | fixedString numChars info =>
    obtain ⟨-, ⟨hp, hlen⟩, rfl⟩ := encodeFixedString_eq_some.mp he
    rw [Bits.length_ofBytes]
    exact .fixedString hn hp (hlen.symm ▸ hs.1) hs.2
  | select w info cases ih =>
    obtain ⟨n, as, _, h1, hrest, rfl⟩ := Encoder.bind_eq_some.mp he
    obtain ⟨a, bs, _, h2, hpure, rfl⟩ := Encoder.bind_eq_some.mp hrest
    obtain ⟨rfl, rfl⟩ := Encoder.pure_eq_some.mp hpure
    obtain ⟨-, ⟨hv, -⟩, rfl⟩ := encodeUint_eq_some.mp h1
    obtain ⟨hw, s1, s2, hs1, hs2, rfl⟩ := hs
    rw [List.append_nil] at *
    rw [List.length_append, Bits.length_ofNat] at *
    have h8 : Takes (Iox.uint (m := .parseText) .uint8 w into.1 info) (· = v.1) p w room s1 (s2 ++ rest) :=
      .uint hf.1.2 hv hn.1 hw hs1
    refine h8.bind hw fun n hn' => ?_
    subst hn'
    exact (ih v.1 (hf.2 v.1) (hn.2 v.1) h2 (by omega) hs2 rest _).bind_pure fun a ha =>
      ⟨⟨v.1, a⟩, rfl, congrArg (Sigma.mk v.1) ha⟩
  | block b info endInfo body ih =>
    obtain ⟨n, a⟩ := v'
    obtain ⟨hp, as, h1, hlen, hnb, rfl⟩ := Encoder.block_eq_some.mp he
    obtain ⟨k, hk, hroom, hs⟩ := hs
    rw [List.length_append, Bits.length_ofNat] at *
    have hblock : Takes (Iox.namedBlock (m := .parseText) b info endInfo _) _ p _ room s rest :=
      .block hn.1.name hf.1.2 hk hp (by omega) hroom hs fun t rest ht _ => ih hf.2 hn.2 h1 (by omega) ht rest into.2
    exact hblock.mono fun r hr => congrArg (Prod.mk 0) hr
  | listBlock b info endInfo body item ihb ihi =>
    obtain ⟨hb, hwb, hwi, hsome⟩ := hf
    obtain ⟨n, a⟩ := v'
    obtain ⟨hp, bits, h1, hlen, hnb, rfl⟩ := Encoder.block_eq_some.mp he
    obtain ⟨head, as, _, h2, htail, rfl⟩ := Encoder.bind_eq_some.mp h1
    obtain ⟨list, bs, _, h3, hpure, rfl⟩ := Encoder.bind_eq_some.mp htail
    obtain ⟨rfl, rfl⟩ := Encoder.pure_eq_some.mp hpure
    obtain ⟨k, hk, hroom, hs⟩ := hs
    simp only [List.append_nil, List.length_append, Bits.length_ofNat] at hfuel hlen ⊢
    have hsize := (encode_eq_some h2).2
    have hsizes : bs.length = (v.2.2.map item.size).sum :=
      (items_eq_some (fun x _ p a' bits hx => encode_eq_some hx) h3).2
    have hitem : ∀ x ∈ v.2.2, ∀ q a' cs room' t, item.encode 40 x q = some (a', cs) → item.Written x room' t →
        item.size x = cs.length ∧ 1 ≤ cs.length ∧ cs.length ≤ room' ∧ (∃ ch, isLetter ch ∧ ∀ rest, Begins ch (t ++ rest)) ∧
          ∀ rest, Takes (item.io values fuel (m := .parseText) (values item)) (item.contents · = item.contents x) q cs.length
            room' t rest := by
      intro x hx q a' cs room' t hx' ht
      have hcs := (encode_eq_some hx').2
      have hsome := hsome x
      have hle : item.size x ≤ (v.2.2.map item.size).sum := List.le_sum_of_mem (List.mem_map_of_mem hx)
      rcases written_begins hn.2.2 ht with ⟨-, hzero⟩ | hbegins
      · omega
      · exact ⟨hcs.symm, by omega, hcs ▸ size_le_of_written ht, hbegins, fun rest => ihi hwi hn.2.2 hx' (by omega) ht rest _⟩
    have hcontents (t rest : List UInt8) (ht : ∃ t1 t2, body.Written v.2.1 (8 * k) t1 ∧
        ItemsOf item.Written item.size v.2.2 (8 * k - body.size v.2.1) t2 ∧ t = t1 ++ t2) (hcloses : Begins 125 rest) :
        Takes (do
          let head ← body.io values fuel (m := .parseText) into.2.1
          let list ← Iox.vectorIo (m := .parseText) fuel (values item) (item.io values fuel) into.2.2
          return (head, list))
          (fun r => body.contents r.1 = body.contents v.2.1 ∧ r.2.map item.contents = v.2.2.map item.contents) (p + b)
          (as.length + bs.length) (8 * k) t rest := by
      obtain ⟨t1, t2, ht1, ht2, rfl⟩ := ht
      have hlist : Takes (Iox.vectorIo (m := .parseText) fuel (values item) (item.io values fuel) into.2.2)
          (fun l => l.map item.contents = v.2.2.map item.contents) (p + b + as.length) bs.length (8 * k - as.length) t2 rest :=
        Takes.items hitem h3 (hsize ▸ ht2) hcloses (by omega) []
      exact (ihb hwb hn.2.1 h2 (by omega) ht1 _ into.2.1).pair (hsize ▸ size_le_of_written ht1) hlist
    have hblock : Takes (Iox.namedBlock (m := .parseText) b info endInfo _) _ p _ room s rest :=
      .block hn.1.name hb.2 hk hp (by omega) hroom hs hcontents
    exact hblock.mono fun r hr => congrArg (Prod.mk 0) (congrArg₂ Prod.mk hr.1 hr.2)
  | seq f g ihf ihg =>
    obtain ⟨a, as, _, h1, hrest, rfl⟩ := Encoder.bind_eq_some.mp he
    obtain ⟨b, bs, _, h2, hpure, rfl⟩ := Encoder.bind_eq_some.mp hrest
    obtain ⟨rfl, rfl⟩ := Encoder.pure_eq_some.mp hpure
    obtain ⟨s1, s2, hs1, hs2, rfl⟩ := hs
    rw [List.append_nil] at *
    rw [List.length_append] at *
    have hsize := (encode_eq_some h1).2
    have hpair := (ihf hf.1 hn.1 h1 (by omega) hs1 (s2 ++ rest) into.1).pair (hsize ▸ size_le_of_written hs1)
      (ihg hf.2 hn.2 h2 (by omega) (hsize ▸ hs2) rest into.2)
    exact hpair.mono fun r hr => congrArg₂ Prod.mk hr.1 hr.2

theorem text_digits {base len n : Nat} (hlen : 1 ≤ len) (hn : n < base^len) (h : ∀ d ∈ Numeral.digits base len n, d < 10) :
    Numeral.text base len n ≠ [] ∧ (∀ ch ∈ Numeral.text base len n, (decDigit ch).isSome) ∧
      Numeral.value base 0 ((Numeral.text base len n).map Icx.decValue) = n := by
  refine ⟨fun hnil => Numeral.digits_ne_nil n hlen (List.map_eq_nil_iff.mp hnil), fun ch hch => ?_, ?_⟩
  · obtain ⟨d, hd, rfl⟩ := List.mem_map.mp hch
    rw [Icx.decDigit_char (h d hd)]
    rfl
  · have hvalue : (Numeral.text base len n).map Icx.decValue = Numeral.digits base len n := by
      rw [Numeral.text, List.map_map]
      refine (List.map_congr_left fun d hd => ?_).trans (List.map_id _)
      show (Numeral.char d).toNat - 48 = d
      rw [Numeral.char_toNat (h d hd), Nat.add_sub_cancel_left]
    rw [hvalue, Numeral.digits_value hn]

theorem numeralOf_number {w n : Nat} {info : Info} (hr : OcCtx.Readable n info) (h32 : n < 2^32) :
    NumeralOf n (OcCtx.number w n info) := by
  unfold OcCtx.Readable at hr
  unfold OcCtx.number
  split at hr
  · next hhex =>
    rw [if_pos hhex]
    obtain ⟨hne, hdec, hvalue⟩ := text_digits (by decide) (show n < 16^8 from h32) hr
    have hnumeral := NumeralOf.hex hne hdec
    rwa [hvalue] at hnumeral
  · next hhex =>
    rw [if_neg hhex, if_neg hr.1, decimal, if_pos hr.2]
    obtain ⟨hne, hdec, hvalue⟩ := text_digits (by decide) (show n < 10^10 from h32.trans (by decide))
      fun d hd => Numeral.digits_lt (by decide) hd
    have hnumeral := NumeralOf.dec hne hdec
    rwa [hvalue] at hnumeral

theorem blanks_indent (depth : Nat) : Blanks (indent depth) := fun _ hch => by
  rw [List.eq_of_mem_replicate hch]
  exact .inr (.inr rfl)

theorem blanks_newline : Blanks [10] := fun _ hch => .inr (.inl (List.mem_singleton.mp hch))

theorem token_indent (depth : Nat) (t : List UInt8) : Token t (indent depth ++ t) := ⟨indent depth, blanks_indent depth, rfl⟩

theorem token_self (t : List UInt8) : Token t t := ⟨[], nofun, rfl⟩

theorem token_behind {t s : List UInt8} (blanks : List UInt8) (hb : Blanks blanks) (hs : s = blanks ++ t) : Token t s :=
  ⟨blanks, hb, hs⟩

theorem numberOf_uintLine {depth w n : Nat} {info : Info} (hr : OcCtx.Readable n info) (h32 : n < 2^32) :
    NumberOf info n (uintLine depth w n info) :=
  ⟨_, _, [], _, 10, [], token_indent depth info.name, token_self _, nofun, numeralOf_number hr h32, blanks_newline, by
    unfold uintLine
    simp only [List.append_assoc, List.nil_append]
    rfl⟩

theorem stringOf_stringLine (depth : Nat) (str : List UInt8) (info : Info) : StringOf info str (stringLine depth str info) := by
  refine ⟨_, _, _, _, [10], token_indent depth info.name, token_self _, token_self _, denotes_quoted str, blanks_newline, ?_⟩
  unfold stringLine
  simp only [List.append_assoc]
  rfl

theorem blockOf_braces {n : Nat} {info : Info} {contents : List UInt8 → Prop} {number t : List UInt8} (hn : NumberOf info n number)
    (depth : Nat) (ht : contents t) :
    BlockOf info n contents (number ++ (indent depth ++ chars "\x7b\n" ++ t ++ (indent depth ++ chars "\x7d\n"))) := by
  refine ⟨number, indent depth ++ chars "\x7b", [10], t, indent depth ++ chars "\x7d", [10],
    hn, token_indent depth _, blanks_newline, ht, token_indent depth _, blanks_newline, ?_⟩
  simp only [List.append_assoc]
  rfl

theorem itemsOf_flatMap {α : Type} {item : α → Nat → List UInt8 → Prop} {size : α → Nat} {text : α → List UInt8} {list : List α}
    (h : ∀ a ∈ list, ∀ room, size a ≤ room → item a room (text a)) {room : Nat} (hroom : (list.map size).sum ≤ room) :
    ItemsOf item size list room (list.flatMap text) := by
  induction list generalizing room with
  | nil => rfl
  | cons a list ih =>
    rw [List.map_cons, List.sum_cons] at hroom
    exact ⟨text a, list.flatMap text, h a List.mem_cons_self room (by omega),
      ih (fun b hb => h b (List.mem_cons_of_mem a hb)) (by omega), List.flatMap_cons⟩

theorem encodes_item {α : Type} {e : α → Encoder α} {list list' : List α} {p : Nat} {bits : List Bool}
    (h : Encoder.items e list p = some (list', bits)) {a : α} (ha : a ∈ list) : ∃ q a' as, e a q = some (a', as) := by
  induction list generalizing p list' bits with
  | nil => cases ha
  | cons b list ih =>
    obtain ⟨b', bs, _, h1, hrest, rfl⟩ := Encoder.bind_eq_some.mp h
    obtain ⟨rest, cs, _, h2, -, -⟩ := Encoder.bind_eq_some.mp hrest
    rcases List.mem_cons.mp ha with rfl | ha
    · exact ⟨p, b', bs, h1⟩
    · exact ih h2 ha

/-- A text of the value, with lines of the given kind for its numbers. -/
def textWith (line : Nat → Nat → Nat → Info → List UInt8) : (f : Format) → f.Value → Nat → List UInt8
  | empty, _, _ => []
  | uint _ w info, val, depth => line depth w (Variable.toNat val) info
  | required _ w val info, _, depth => line depth w (Variable.toNat val) info
  | shortString info, str, depth => stringLine depth str info
  | fixedString _ info, str, depth => stringLine depth str info
  | select w info cases, v, depth => line depth w v.1.toNat info ++ (cases v.1).textWith line v.2 depth
  | block _ info _ body, v, depth => line depth 32 (body.size v.2 / 8) info ++
      (indent depth ++ chars "\x7b\n" ++ body.textWith line v.2 (depth + 1) ++ (indent depth ++ chars "\x7d\n"))
  | listBlock _ info _ body item, v, depth => line depth 32 ((body.size v.2.1 + (v.2.2.map item.size).sum) / 8) info ++
      (indent depth ++ chars "\x7b\n" ++ (body.textWith line v.2.1 (depth + 1) ++ v.2.2.flatMap (item.textWith line · (depth + 1))) ++
        (indent depth ++ chars "\x7d\n"))
  | seq f g, v, depth => f.textWith line v.1 depth ++ g.textWith line v.2 depth

theorem textWith_uintLine (f : Format) (v : f.Value) (depth : Nat) : f.textWith uintLine v depth = f.text v depth := by
  induction f generalizing depth with
  | empty | uint | required | shortString | fixedString => rfl
  | select w info cases ih => exact congrArg (uintLine depth w v.1.toNat info ++ ·) (ih v.1 v.2 depth)
  | block b info endInfo body ih =>
    unfold textWith text blockText
    rw [ih]
  | listBlock b info endInfo body item ihb ihi =>
    unfold textWith text blockText
    simp only [ihb, ihi]
  | seq f g ihf ihg => exact congrArg₂ (· ++ ·) (ihf v.1 depth) (ihg v.2 depth)

theorem textWith_written {line : Nat → Nat → Nat → Info → List UInt8} {ok : Nat → Info → Prop}
    (hline : ∀ depth w n info, ok n info → n < 2^32 → NumberOf info n (line depth w n info))
    (hplain : ∀ n info, info.Plain → n < 2^31 → ok n info) {f : Format} (hf : f.Wf) (hn : f.Called) {v v' : f.Value}
    (hr : f.Fields ok v) {p : Nat} {bits : List Bool} (he : f.encode 40 v p = some (v', bits)) {room : Nat}
    (hroom : f.size v ≤ room) (depth : Nat) : f.Written v room (f.textWith line v depth) := by
  have hlt {var : Variable} {w : Nat} (hw : w ≤ var.width) {val : var.Word} (hv : Variable.toNat val < 2^w) :
      Variable.toNat val < 2^32 :=
    hv.trans_le (Nat.pow_le_pow_right (by decide) (hw.trans (by cases var <;> decide)))
  induction f generalizing p bits room depth with
  | empty => rfl
  | uint var w info =>
    obtain ⟨-, ⟨hv, -⟩, rfl⟩ := encodeUint_eq_some.mp he
    exact ⟨hroom, hline depth w _ info hr (hlt hf.2 hv)⟩
  | required var w val info =>
    obtain ⟨val', as, bs, h1, hpure, rfl⟩ := Encoder.bind_eq_some.mp he
    obtain ⟨-, ⟨hv, -⟩, rfl⟩ := encodeUint_eq_some.mp h1
    exact ⟨hroom, hline depth w _ info hr (hlt hf.2.1 hv)⟩
  | shortString info => exact ⟨hroom, stringOf_stringLine depth v info⟩
  | fixedString numChars info => exact ⟨hroom, stringOf_stringLine depth v info⟩
  | select w info cases ih =>
    obtain ⟨n, as, _, h1, hrest, rfl⟩ := Encoder.bind_eq_some.mp he
    obtain ⟨a, bs, _, h2, hpure, rfl⟩ := Encoder.bind_eq_some.mp hrest
    obtain ⟨-, ⟨hv, -⟩, rfl⟩ := encodeUint_eq_some.mp h1
    have hroom : w + (cases v.1).size v.2 ≤ room := hroom
    exact ⟨by omega, _, _, hline depth w _ info hr.1 (@hlt .uint8 _ hf.1.2 _ hv),
      ih v.1 (hf.2 v.1) (hn.2 v.1) hr.2 h2 (by omega) depth, rfl⟩
  | block b info endInfo body ih =>
    obtain ⟨n, a⟩ := v'
    obtain ⟨hp, as, h1, hlen, hnb, rfl⟩ := Encoder.block_eq_some.mp he
    have hsize := (encode_eq_some h1).2
    have hroom : b + body.size v.2 ≤ room := hroom
    have hn8 : body.size v.2 / 8 = n := by omega
    have hlt := length_lt hf.1.2 hnb
    refine ⟨n, hnb, by omega, ?_⟩
    show BlockOf info n _ (line depth 32 (body.size v.2 / 8) info ++ _)
    rw [hn8]
    exact blockOf_braces (hline depth 32 n info (hplain n info hn.1 hlt) (by omega)) depth
      (ih hf.2 hn.2 hr h1 (by omega) (depth + 1))
  | listBlock b info endInfo body item ihb ihi =>
    obtain ⟨hb, hwb, hwi, hsome⟩ := hf
    obtain ⟨n, a⟩ := v'
    obtain ⟨hp, bits, h1, hlen, hnb, rfl⟩ := Encoder.block_eq_some.mp he
    obtain ⟨head, as, _, h2, htail, rfl⟩ := Encoder.bind_eq_some.mp h1
    obtain ⟨list, bs, _, h3, hpure, rfl⟩ := Encoder.bind_eq_some.mp htail
    obtain ⟨rfl, rfl⟩ := Encoder.pure_eq_some.mp hpure
    simp only [List.append_nil, List.length_append] at hlen
    have hsize := (encode_eq_some h2).2
    have hsizes : bs.length = (v.2.2.map item.size).sum :=
      (items_eq_some (fun x _ p a' bits hx => encode_eq_some hx) h3).2
    have hroom : b + (body.size v.2.1 + (v.2.2.map item.size).sum) ≤ room := hroom
    have hn8 : (body.size v.2.1 + (v.2.2.map item.size).sum) / 8 = n := by omega
    have hlt := length_lt hb.2 hnb
    refine ⟨n, hnb, by omega, ?_⟩
    show BlockOf info n _ (line depth 32 ((body.size v.2.1 + (v.2.2.map item.size).sum) / 8) info ++ _)
    rw [hn8]
    refine blockOf_braces (hline depth 32 n info (hplain n info hn.1 hlt) (by omega)) depth
      ⟨_, _, ihb hwb hn.2.1 hr.1 h2 (by omega) (depth + 1), ?_, rfl⟩
    refine itemsOf_flatMap (fun x hx room hroom => ?_) (by omega)
    obtain ⟨q, x', cs, hx'⟩ := encodes_item h3 hx
    exact ihi hwi hn.2.2 (hr.2 x hx) hx' hroom (depth + 1)
  | seq f g ihf ihg =>
    obtain ⟨a, as, _, h1, hrest, rfl⟩ := Encoder.bind_eq_some.mp he
    obtain ⟨b, bs, _, h2, hpure, rfl⟩ := Encoder.bind_eq_some.mp hrest
    have hroom : f.size v.1 + g.size v.2 ≤ room := hroom
    exact ⟨_, _, ihf hf.1 hn.1 hr.1 h1 (by omega) depth, ihg hf.2 hn.2 hr.2 h2 (by omega) depth, rfl⟩

/-- What text construction prints is one of the texts of the value. -/
theorem text_written {f : Format} (hf : f.Wf) (hn : f.Called) {v v' : f.Value} (hr : f.Fields OcCtx.Readable v) {p : Nat}
    {bits : List Bool} (he : f.encode 40 v p = some (v', bits)) {room : Nat} (hroom : f.size v ≤ room) (depth : Nat) :
    f.Written v room (f.text v depth) := by
  rw [← textWith_uintLine]
  exact textWith_written (fun depth w n info => numberOf_uintLine) (fun n info h => h.readable) hf hn hr he hroom depth

/-- Every text of a value is parsed, and gives back its fields, strings and lists; the rest of
the text is next. -/
theorem parse_written {f : Format} (hf : f.Wf) (hn : f.Called) (values : (f : Format) → f.Value) {fuel : Nat}
    (hfuel : 8 * 1000000 < fuel) {v v' : f.Value} {bits : List Bool} (he : f.encode 40 v 0 = some (v', bits)) {s : List UInt8}
    (hs : f.Written v (8 * 1000000) s) (tail : List UInt8) (into : f.Value) :
    ∃ a d, f.io values fuel (m := .parseText) into (IcCtx.create (s ++ tail)) = .ok a d ∧ f.contents a = f.contents v ∧
      d.Next (tail ++ [0]) := by
  have hsize := (encode_eq_some he).2
  have hle := size_le_of_written hs
  have hnext : (IcCtx.create (s ++ tail)).Next (s ++ (tail ++ [0])) := by
    rw [← List.append_assoc]
    rfl
  have hshort : bits.length < fuel := by omega
  obtain ⟨a, d, hio, ha, hpassed⟩ := takes values hf hn he hshort hs (tail ++ [0]) into (IcCtx.create (s ++ tail)) hnext rfl
    (show 0 + 8 * 1000000 ≤ 8 * 1000000 by decide) (show 8 * 1000000 < 2^32 by decide)
  exact ⟨a, d, hio, ha, hpassed.next⟩

/-- A text with other blanks, notations and escapes than the printed one, and with room for more
in its block. -/
def sampleText : List UInt8 := chars "  a : 0x005\nb:0b10001\t len:0200 \x7bc:70000 s:'x\\171'\n\ns :'' \x7d"

theorem sampleText_written : sample.Written sampleValue (8 * 1000000) sampleText := by
  refine ⟨chars "  a : 0x005\n", chars "b:0b10001\t len:0200 \x7bc:70000 s:'x\\171'\n\ns :'' \x7d", ⟨by decide, ?_⟩,
    ⟨chars "b:0b10001\t", chars " len:0200 \x7bc:70000 s:'x\\171'\n\ns :'' \x7d", ⟨by decide, ?_⟩, ⟨200, by decide, by decide, ?_⟩,
      rfl⟩, rfl⟩
  · exact ⟨chars "  a", chars " :", chars " ", chars "0x005", 10, [], token_behind (chars "  ") (by decide) rfl,
      token_behind (chars " ") (by decide) rfl, by decide,
      .hex (s := chars "005") (by decide) (List.all_eq_true.mp (by decide)), by decide, rfl⟩
  · exact ⟨chars "b", chars ":", [], chars "0b10001", 9, [], token_self _, token_self _, by decide,
      .bin (s := chars "10001") (by decide) (List.all_eq_true.mp (by decide)), by decide, rfl⟩
  · refine ⟨chars " len:0200 ", chars "\x7b", [], chars "c:70000 s:'x\\171'\n\ns :''", chars " \x7d", [], ?_, token_self _, by decide,
      ⟨chars "c:70000 ", chars "s:'x\\171'\n\ns :''", ⟨by decide, ?_⟩,
        ⟨chars "s:'x\\171'\n\n", chars "s :''", ⟨by decide, ?_⟩, ⟨chars "s :''", [], ⟨by decide, ?_⟩, rfl, rfl⟩, rfl⟩, rfl⟩,
      token_behind (chars " ") (by decide) rfl, by decide, rfl⟩
    · exact ⟨chars " len", chars ":", [], chars "0200", 32, [], token_behind (chars " ") (by decide) rfl, token_self _, by decide,
        .dec (s := chars "0200") (by decide) (List.all_eq_true.mp (by decide)), by decide, rfl⟩
    · exact ⟨chars "c", chars ":", [], chars "70000", 32, [], token_self _, token_self _, by decide,
        .dec (s := chars "70000") (by decide) (List.all_eq_true.mp (by decide)), by decide, rfl⟩
    · exact ⟨chars "s", chars ":", chars "'", chars "x\\171", [10, 10], token_self _, token_self _, token_self _,
        .plain (by decide) (by decide) (by decide) (by decide)
          (.octal (a := 1) (b := 7) (c := 1) (by decide) (by decide) (by decide) (by decide) .nil), by decide, rfl⟩
    · exact ⟨chars "s", chars " :", chars "'", [], [], token_self _, token_behind (chars " ") (by decide) rfl, token_self _, .nil,
        by decide, rfl⟩

theorem parse_written_sample : ∃ a d,
    sample.io zero (8 * 1000000 + 1) (m := .parseText) (zero sample) (IcCtx.create (sampleText ++ chars "more")) = .ok a d ∧
    sample.contents a = sample.contents sampleValue ∧ d.Next (chars "more" ++ [0]) := by
  obtain ⟨bits, he⟩ : ∃ bits, sample.encode 40 sampleValue 0 = some (sample.close sampleValue, bits) := ⟨_, rfl⟩
  exact parse_written sample_wf (called_of_plain sample_plain) zero (Nat.lt_succ_self _) he sampleText_written (chars "more") _

end Format

end Mopa.Io
