import Mopa.FormatText
import Mopa.QuotedStrings

/-! Text parsing of what text construction prints: tokens, numbers and quoted strings are
read back, and with them programs that read one after the other. -/
namespace Mopa.Io
open Outcome IcCtx OcCtx

namespace OcCtx

/-- A number that is read back as it is printed: a decimal one that is not negative, or a
hexadecimal one without letters. -/
def Readable (value : Nat) (info : Info) : Prop :=
  if info.hint &&& formatHintMask = formatHintHex then ∀ d ∈ Numeral.digits 16 8 value, d < 10
  else info.hint &&& formatHintMask ≠ formatHintBin ∧ value < 2^31

end OcCtx

def IcCtx.Next (c : IcCtx) (text : List UInt8) : Prop := skipBlanks c.parsePos = skipBlanks text

def Begins (ch : UInt8) (text : List UInt8) : Prop := ∃ rest, skipBlanks text = ch :: rest

def Blank (ch : UInt8) : Prop := ch = 9 ∨ ch = 10 ∨ ch = 32

instance (ch : UInt8) : Decidable (Blank ch) := inferInstanceAs (Decidable (_ ∨ _))

def isLetter (ch : UInt8) : Bool := 97 ≤ ch && ch ≤ 122 || 65 ≤ ch && ch ≤ 90 || ch == 95

def Identifier : List UInt8 → Prop
  | [] => False
  | ch :: rest => isLetter ch ∧ ∀ ch ∈ rest, isLetter ch ∨ (decDigit ch).isSome

instance : (name : List UInt8) → Decidable (Identifier name)
  | [] => inferInstanceAs (Decidable False)
  | ch :: rest => @instDecidableAnd (isLetter ch) _ _ (List.decidableBAll _ rest)

theorem Identifier.begins {name : List UInt8} (h : Identifier name) : ∃ ch rest, name = ch :: rest ∧ isLetter ch := by
  cases name with
  | nil => cases h
  | cons ch rest => exact ⟨ch, rest, rfl, h.1⟩

def BlankName : List UInt8 → Prop
  | [] => False
  | ch :: _ => Blank ch

instance : (name : List UInt8) → Decidable (BlankName name)
  | [] => inferInstanceAs (Decidable False)
  | ch :: _ => inferInstanceAs (Decidable (Blank ch))

theorem letter_not_blank {ch : UInt8} (h : isLetter ch) : ¬ Blank ch := by
  rintro (rfl | rfl | rfl) <;> cases h

theorem Identifier.not_blank {name : List UInt8} (h : Identifier name) : ¬ BlankName name := by
  obtain ⟨ch, rest, rfl, hletter⟩ := h.begins
  exact letter_not_blank hletter

theorem skipBlanks_cons {ch : UInt8} (h : ¬ Blank ch) (text : List UInt8) : skipBlanks (ch :: text) = ch :: text := if_neg h

theorem skipBlanks_newline (text : List UInt8) : skipBlanks (10 :: text) = skipBlanks text := if_pos (by decide)

theorem skipBlanks_indent (depth : Nat) (text : List UInt8) : skipBlanks (indent depth ++ text) = skipBlanks text := by
  unfold indent
  induction depth * 2 with
  | zero => rfl
  | succ n ih => exact (if_pos (by decide)).trans ih

theorem begins_behind (text : List UInt8) {ch : UInt8} (hch : ¬ Blank ch) (rest : List UInt8) :
    ∃ ch' rest', skipBlanks (text ++ ch :: rest) = ch' :: rest' ∧ ¬ Blank ch' := by
  induction text with
  | nil => exact ⟨ch, rest, skipBlanks_cons hch rest, hch⟩
  | cons ch' text ih =>
    rw [List.cons_append, skipBlanks]
    split
    · exact ih
    · next h => exact ⟨ch', _, rfl, h⟩

theorem follow_append (req rest : List UInt8) : follow (req ++ rest) req = some (rest, true) := by
  induction req with
  | nil => cases rest <;> rfl
  | cons ch req ih => exact (if_pos rfl).trans ih

namespace IcCtx.Next
variable {c c' : IcCtx} {text rest : List UInt8}

theorem indent (depth : Nat) : c.Next (indent depth ++ text) ↔ c.Next text := by
  unfold Next
  rw [skipBlanks_indent]

theorem begins {ch : UInt8} (h : c.Next (ch :: rest)) (hch : ¬ Blank ch) : skipBlanks c.parsePos = ch :: rest :=
  h.trans (skipBlanks_cons hch rest)

end IcCtx.Next

namespace Icx
variable {c : IcCtx} {ch : UInt8} {req text rest : List UInt8} {info : Info}

theorem discard_ok {α : Type} {x : Icx α} {a : α} {c' : IcCtx} (h : x c = .ok a c') : discard x c = .ok () c' :=
  map_ok _ h

theorem discard_skiptotoken (h : skipBlanks c.parsePos = ch :: rest) :
    discard skiptotoken c = .ok () { c with parsePos := ch :: rest } := by
  have hskip : skiptotoken c = .ok (decide (ch ≠ 0)) { c with parsePos := ch :: rest } := by
    unfold skiptotoken
    rw [h]
  exact discard_ok hskip

theorem expect_next (h : c.Next (ch :: (req ++ rest))) (hch : ¬ Blank ch) :
    expect (ch :: req) c = .ok true { c with parsePos := rest } := by
  refine (bind_ok (discard_skiptotoken (h.begins hch))).trans ?_
  have hfollow := follow_append (ch :: req) rest
  rw [List.cons_append] at hfollow
  dsimp only
  rw [hfollow]

theorem expect_char (ch : UInt8) (rest : List UInt8) (h : c.Next (ch :: rest)) (hch : ¬ Blank ch) :
    expect [ch] c = .ok true { c with parsePos := rest } := expect_next h hch

theorem expect_other {ch' : UInt8} (h : skipBlanks c.parsePos = ch' :: rest) (hne : ch' ≠ ch) :
    discard (expect [ch]) c = .ok () { c with parsePos := ch' :: rest } := by
  have hexpect : expect [ch] c = .ok false { c with parsePos := ch' :: rest } := by
    refine (bind_ok (discard_skiptotoken h)).trans ?_
    dsimp only
    rw [follow, if_neg hne]
  exact discard_ok hexpect

theorem leaveScope_ok (h : skipBlanks c.parsePos = ch :: rest) :
    ∃ text, leaveScope c = .ok () { c with parsePos := text } := by
  by_cases hch : ch = 125
  · subst hch
    exact ⟨rest, discard_ok (expect_char 125 rest (h.trans (skipBlanks_cons (by decide) rest).symm) (by decide))⟩
  · exact ⟨ch :: rest, expect_other h hch⟩

theorem readDigits_run {base : Nat} (v : Nat) (rest : List UInt8) {digit : UInt8 → Option Nat} {val : UInt8 → Nat}
    {s : List UInt8} (hdigit : ∀ x ∈ s, digit x = some (val x)) (hb : 1 ≤ base) (hch : digit ch = none) :
    if Numeral.value base v (s.map val) < 2^32 then
      readDigits base digit v (s ++ ch :: rest) = .value (Numeral.value base v (s.map val)) (ch :: rest)
    else ∃ text, readDigits base digit v (s ++ ch :: rest) = .exceeds text := by
  induction s generalizing v with
  | nil =>
    rw [List.map_nil, Numeral.value, List.nil_append, readDigits]
    split
    · next hv =>
      rw [if_neg (not_le.mpr hv)]
      simp only [hch]
    · next hv => exact ⟨_, if_pos (not_lt.mp hv)⟩
  | cons x s ih =>
    rw [List.map_cons, Numeral.value, List.cons_append, readDigits]
    by_cases hv : v < 2^32
    · rw [if_neg (not_le.mpr hv)]
      simp only [hdigit x List.mem_cons_self]
      exact ih _ fun y hy => hdigit y (List.mem_cons_of_mem x hy)
    · have hle : v ≤ Numeral.value base (v * base + val x) (s.map val) :=
        (Nat.le_mul_of_pos_right v hb).trans ((Nat.le_add_right _ _).trans (Numeral.le_value hb _ _))
      rw [if_neg (not_lt.mpr ((not_lt.mp hv).trans hle)), if_pos (not_lt.mp hv)]
      exact ⟨_, rfl⟩

theorem readNumber_run {base w : Nat} {digit : UInt8 → Option Nat} {val : UInt8 → Nat} {message : String} {s : List UInt8}
    (hdigit : ∀ x ∈ s, digit x = some (val x)) (hb : 1 ≤ base) (hch : digit ch = none) (hw : w ≤ 32)
    (h : c.parsePos = s ++ ch :: rest) :
    if Numeral.value base 0 (s.map val) < 2^w then
      readNumber base digit message w info c = .ok (Numeral.value base 0 (s.map val)) { c with parsePos := ch :: rest }
    else ∃ message' c', readNumber base digit message w info c = .error (.exception info message') c' := by
  have hpow : 2^w ≤ 2^32 := Nat.pow_le_pow_right (by decide) hw
  have hread := readDigits_run 0 rest hdigit hb hch
  unfold readNumber
  rw [h]
  split at hread
  · rw [hread]
    dsimp only
    split
    · next hfit => rw [if_neg (not_le.mpr hfit)]
    · next hfit =>
      rw [if_pos (not_lt.mp hfit)]
      exact ⟨_, _, rfl⟩
  · next hexceeds =>
    obtain ⟨text, hread⟩ := hread
    rw [hread, if_neg fun hfit => hexceeds (hfit.trans_le hpow)]
    exact ⟨_, _, rfl⟩

theorem readNumber_digits {base len n w : Nat} {digit : UInt8 → Option Nat} {message : String}
    (hdigit : ∀ d ∈ Numeral.digits base len n, digit (Numeral.char d) = some d) (hb : 1 ≤ base) (hn : n < base^len)
    (hn32 : n < 2^32) (hw : n < 2^w) (hch : digit ch = none) (h : c.parsePos = Numeral.text base len n ++ ch :: rest) :
    readNumber base digit message w info c = .ok n { c with parsePos := ch :: rest } := by
  have hval : (Numeral.text base len n).map (fun x => (digit x).getD 0) = Numeral.digits base len n := by
    rw [Numeral.text, List.map_map]
    refine (List.map_congr_left fun d hd => ?_).trans (List.map_id _)
    show (digit (Numeral.char d)).getD 0 = d
    rw [hdigit d hd]
    rfl
  have hall : ∀ x ∈ Numeral.text base len n, digit x = some ((digit x).getD 0) := by
    intro x hx
    obtain ⟨d, hd, rfl⟩ := List.mem_map.mp hx
    rw [hdigit d hd]
    rfl
  have hread := readDigits_run 0 rest hall hb hch
  rw [hval, Numeral.digits_value hn, if_pos hn32] at hread
  unfold readNumber
  rw [h, hread]
  exact if_neg (not_le.mpr hw)

theorem char_range {d : Nat} (hd : d < 10) : (48 : UInt8) ≤ Numeral.char d ∧ Numeral.char d ≤ 57 := by
  rw [UInt8.le_iff_toNat_le, UInt8.le_iff_toNat_le, Numeral.char_toNat hd]
  exact ⟨Nat.le_add_right 48 d, show 48 + d ≤ 57 by omega⟩

theorem decDigit_char {d : Nat} (hd : d < 10) : decDigit (Numeral.char d) = some d := by
  rw [decDigit, if_pos (char_range hd), Numeral.char_toNat hd, Nat.add_sub_cancel_left]

theorem hexDigit_char {d : Nat} (hd : d < 10) : hexDigit (Numeral.char d) = some d := by
  rw [hexDigit, if_pos (char_range hd), Numeral.char_toNat hd, Nat.add_sub_cancel_left]

theorem char_not_blank {d : Nat} (hd : d < 10) : ¬ Blank (Numeral.char d) := by
  have h := UInt8.le_iff_toNat_le.mp (char_range hd).1
  rintro (hb | hb | hb) <;> rw [hb] at h <;> revert h <;> decide

theorem charAt_zero (h : c.parsePos = ch :: rest) : charAt 0 c = .ok ch c := by
  unfold charAt
  rw [h]
  rfl

theorem charAt_one {ch1 : UInt8} (h : c.parsePos = ch :: ch1 :: rest) : charAt 1 c = .ok ch1 c := by
  unfold charAt
  rw [h]
  rfl

theorem discard_skiptotoken_here (h : c.parsePos = ch :: rest) (hch : ¬ Blank ch) : discard skiptotoken c = .ok () c := by
  obtain ⟨pos, limit, stack, text⟩ := c
  obtain rfl : text = ch :: rest := h
  exact discard_skiptotoken (skipBlanks_cons hch rest)

theorem readNumeral_decimal {ch1 : UInt8} {w : Nat} (h : c.parsePos = ch :: ch1 :: rest) (hch : ¬ Blank ch) (hx : ch1 ≠ 120)
    (hb : ch1 ≠ 98) : readNumeral w info c = readDec w info c := by
  refine (bind_ok (discard_skiptotoken_here h hch)).trans ((bind_ok (charAt_zero h)).trans ?_)
  by_cases hzero : ch = 48
  · rw [if_pos hzero]
    refine (bind_ok (charAt_one h)).trans ?_
    rw [if_neg hx]
    refine (bind_ok (charAt_one h)).trans ?_
    rw [if_neg hb]
  · rw [if_neg hzero]

theorem readNumeral_hexadecimal {w : Nat} (h : c.parsePos = 48 :: 120 :: rest) :
    readNumeral w info c = readHex w info { c with parsePos := rest } := by
  refine (bind_ok (discard_skiptotoken_here h (by decide))).trans ((bind_ok (charAt_zero h)).trans ?_)
  rw [if_pos rfl]
  refine (bind_ok (charAt_one h)).trans ?_
  rw [if_pos rfl]
  have hadvance : advance 2 c = .ok () { c with parsePos := rest } := by
    unfold advance
    rw [h]
    rfl
  exact bind_ok hadvance

theorem decimal_begins (n : Nat) (rest : List UInt8) : ∃ d ch1 rest', d < 10 ∧
    Numeral.text 10 10 n ++ 10 :: rest = Numeral.char d :: ch1 :: rest' ∧ ch1 ≠ 120 ∧ ch1 ≠ 98 := by
  have hlt {d : Nat} (hd : d ∈ Numeral.digits 10 10 n) : d < 10 := Numeral.digits_lt (by decide) hd
  unfold Numeral.text
  cases hds : Numeral.digits 10 10 n with
  | nil => exact absurd hds (Numeral.digits_ne_nil n (by decide))
  | cons d ds =>
    have hd : d < 10 := hlt (hds ▸ List.mem_cons_self)
    cases ds with
    | nil => exact ⟨d, 10, rest, hd, rfl, by decide, by decide⟩
    | cons d1 ds =>
      have hd1 : d1 < 10 := hlt (hds ▸ List.mem_cons_of_mem _ List.mem_cons_self)
      have hle := UInt8.le_iff_toNat_le.mp (char_range hd1).2
      refine ⟨d, Numeral.char d1, _, hd, rfl, ?_, ?_⟩ <;> rintro heq <;> rw [heq] at hle <;> revert hle <;> decide

theorem readNumeral_number {w w' n : Nat} (hr : Readable n info) (hw : n < 2^w) (h32 : n < 2^32)
    (h : c.parsePos = OcCtx.number w' n info ++ 10 :: rest) :
    readNumeral w info c = .ok n { c with parsePos := 10 :: rest } := by
  unfold Readable at hr
  unfold OcCtx.number at h
  split at hr
  · next hhex =>
    rw [if_pos hhex] at h
    exact (readNumeral_hexadecimal h).trans
      (readNumber_digits (fun d hd => hexDigit_char (hr d hd)) (by decide) h32 h32 hw rfl rfl)
  · next hhex =>
    rw [if_neg hhex, if_neg hr.1, decimal, if_pos hr.2] at h
    obtain ⟨d, ch1, rest', hd, htext, hx, hb⟩ := decimal_begins n rest
    refine (readNumeral_decimal (h.trans htext) (char_not_blank hd) hx hb).trans ?_
    exact readNumber_digits (fun d hd => decDigit_char (Numeral.digits_lt (by decide) hd)) (by decide)
      (h32.trans (by decide)) h32 hw rfl h

theorem expect_name {name text : List UInt8} (hname : ¬ BlankName name) (h : c.Next (name ++ chars ":" ++ text)) :
    expect name c = .ok true { c with parsePos := chars ":" ++ text } := by
  rw [List.append_assoc] at h
  cases name with
  | nil => exact (bind_ok (discard_skiptotoken (h.begins (by decide)))).trans rfl
  | cons ch req => exact expect_next h hname

theorem readUint_line {w : Nat} {num : List UInt8} (hname : ¬ BlankName info.name)
    (h : c.Next (info.name ++ chars ":" ++ num)) : readUint w info c = readNumeral w info { c with parsePos := num } := by
  have hfound := expect_name hname h
  have hcolon : expect (chars ":") { c with parsePos := chars ":" ++ num } = .ok true { c with parsePos := num } :=
    expect_char 58 num rfl (by decide)
  rw [readUint_eq]
  refine (bind_ok hfound).trans ?_
  rw [if_pos rfl]
  refine (bind_ok hcolon).trans ?_
  rw [if_pos rfl]

theorem readUint_missing {w : Nat} {b ch : UInt8} {req : List UInt8} (hinfo : info.name = b :: req)
    (h : skipBlanks c.parsePos = ch :: rest) (hne : ch ≠ b) :
    readUint w info c = .error (.exception info "'%s' expected") { c with parsePos := ch :: rest } := by
  have hmissing : expect (b :: req) c = .ok false { c with parsePos := ch :: rest } := by
    refine (bind_ok (discard_skiptotoken h)).trans ?_
    dsimp only
    rw [follow, if_neg hne]
  rw [readUint_eq, hinfo]
  refine (bind_ok hmissing).trans ?_
  rw [if_neg Bool.false_ne_true]
  rfl

theorem readUint_blank {w : Nat} {num : List UInt8} (hname : BlankName info.name)
    (h : c.Next (info.name ++ chars ":" ++ num)) :
    ∃ c', readUint w info c = .error (.exception info "'%s' expected") c' := by
  cases hinfo : info.name with
  | nil =>
    rw [hinfo] at hname
    cases hname
  | cons b req =>
    rw [hinfo] at hname
    rw [List.append_assoc] at h
    obtain ⟨ch', rest', hskip, hch'⟩ := begins_behind info.name (show ¬ Blank 58 by decide) num
    have hne : ch' ≠ b := by
      rintro rfl
      exact hch' hname
    exact ⟨_, readUint_missing hinfo (h.trans hskip) hne⟩

theorem uint_line {depth w w' n : Nat} (hname : Identifier info.name) (hr : Readable n info) (hw : n < 2^w) (h32 : n < 2^32)
    (h : c.Next (uintLine depth w' n info ++ rest)) :
    uint w info c = .ok (UInt32.ofNat n) { c with parsePos := 10 :: rest, bitpos := u32 (c.bitpos + w) } := by
  unfold uintLine at h
  simp only [List.append_assoc, IcCtx.Next.indent] at h
  rw [← List.append_assoc info.name] at h
  have hread : readUint w info c = .ok n { c with parsePos := 10 :: rest } :=
    (readUint_line hname.not_blank h).trans (readNumeral_number hr hw h32 rfl)
  exact icx_uint_of_ok hread

theorem parseString_line {depth : Nat} {str : List UInt8} (hname : ¬ BlankName info.name) (hal : c.bitpos % 8 = 0)
    (h : c.Next (stringLine depth str info ++ rest)) : parseString info c = .ok str { c with parsePos := 10 :: rest } := by
  have hnext : c.Next (info.name ++ chars ":" ++ (chars "'" ++ (str.flatMap quoteChar ++ (chars "'\n" ++ rest)))) := by
    unfold stringLine at h
    simp only [List.append_assoc, IcCtx.Next.indent] at h ⊢
    exact h
  have hcolon : expect (chars ":")
      { c with parsePos := chars ":" ++ (chars "'" ++ (str.flatMap quoteChar ++ (chars "'\n" ++ rest))) } =
      .ok true { c with parsePos := chars "'" ++ (str.flatMap quoteChar ++ (chars "'\n" ++ rest)) } :=
    expect_char 58 _ rfl (by decide)
  have hquote : expect (chars "'") { c with parsePos := chars "'" ++ (str.flatMap quoteChar ++ (chars "'\n" ++ rest)) } =
      .ok true { c with parsePos := str.flatMap quoteChar ++ (chars "'\n" ++ rest) } := expect_char 39 _ rfl (by decide)
  have hopen : openQuote info c = .ok () { c with parsePos := str.flatMap quoteChar ++ (chars "'\n" ++ rest) } :=
    (bind_ok (discard_ok (expect_name hname hnext))).trans ((bind_ok (discard_ok hcolon)).trans (discard_ok hquote))
  have hclosed : unquote [] (str.flatMap quoteChar ++ (chars "'\n" ++ rest)) = .closed str (10 :: rest) :=
    unquote_denotes (denotes_quoted str) [] (10 :: rest)
  rw [parseString_open hal hopen, hclosed]

end Icx

end Mopa.Io
