import Mopa.TextNesting

/-! The syntax of texts. A missing brace, a string with another name and a number without
digits are not noticed; where they are there, what parsing consumes is what the syntax says. -/
namespace Mopa.Io
open Outcome IcCtx

namespace Syntax

def IsBlank (ch : UInt8) : Prop := ch = 9 ∨ ch = 10 ∨ ch = 32

def Token (t s : List UInt8) : Prop := ∃ blanks, (∀ ch ∈ blanks, IsBlank ch) ∧ s = blanks ++ t

def Digits (digit : UInt8 → Option Nat) (s : List UInt8) : Prop := s ≠ [] ∧ ∀ ch ∈ s, (digit ch).isSome

inductive Numeral : List UInt8 → Prop
  | dec {s : List UInt8} : Digits decDigit s → Numeral s
  | hex {s : List UInt8} : Digits hexDigit s → Numeral (chars "0x" ++ s)
  | bin {s : List UInt8} : Digits binDigit s → Numeral (chars "0b" ++ s)

inductive Quoted : List UInt8 → Prop
  | nil : Quoted []
  | plain {ch : UInt8} {s : List UInt8} : 32 ≤ ch → ch < 127 → ch ≠ 39 → ch ≠ 92 → Quoted s → Quoted (ch :: s)
  | escaped {ch : UInt8} {s : List UInt8} : Icx.isEscaped ch → Quoted s → Quoted (92 :: ch :: s)
  | octal {c1 c2 c3 : UInt8} {s : List UInt8} : Icx.isOctal c1 → Icx.isOctal c2 → Icx.isOctal c3 →
      ((c1.toNat - 48) * 8 + (c2.toNat - 48)) * 8 + (c3.toNat - 48) ≤ 255 →
      Quoted s → Quoted (92 :: c1 :: c2 :: c3 :: s)

def Number (info : Info) (s : List UInt8) : Prop := ∃ name colon blanks numeral,
  s = name ++ colon ++ (blanks ++ numeral) ∧ Token info.name name ∧ Token (chars ":") colon ∧
    (∀ ch ∈ blanks, IsBlank ch) ∧ Numeral numeral

def QuotedString (info : Info) (s : List UInt8) : Prop := ∃ name colon quote body,
  s = name ++ colon ++ quote ++ (body ++ [39]) ∧ Token info.name name ∧ Token (chars ":") colon ∧
    Token [39] quote ∧ Quoted body

end Syntax

namespace Operation
open Syntax

def Consumes : Operation → List UInt8 → Prop
  | uint _ _ _ info, s => Number info s
  | uintReq _ _ _ info, s => Number info s
  | shortString _ info, s => QuotedString info s
  | fixedString _ _ info, s => QuotedString info s
  | namedBlockBegin _ info, s => ∃ number brace, s = number ++ brace ∧ Number info number ∧
    Token (chars "\x7b") brace
  | namedBlockEnd _, s => Token (chars "\x7d") s

end Operation

namespace IcCtx

def found (req text : List UInt8) : Option (List UInt8) :=
  match follow (skipBlanks text) req with
  | some (rest, true) => some rest
  | _ => none

/-- The digits that a number has by its prefix, and the text behind the prefix. -/
def number (text : List UInt8) : (UInt8 → Option Nat) × List UInt8 :=
  match skipBlanks text with
  | 48 :: 120 :: rest => (hexDigit, rest)
  | 48 :: 98 :: rest => (binDigit, rest)
  | rest => (decDigit, rest)

def behindNumber (text : List UInt8) : List UInt8 :=
  (number text).2.dropWhile fun ch => ((number text).1 ch).isSome

def HasDigit (text : List UInt8) : Prop := ∃ ch ∈ (number text).2.head?, ((number text).1 ch).isSome

theorem skipBlanks_spec (text : List UInt8) :
    ∃ blanks, (∀ ch ∈ blanks, Syntax.IsBlank ch) ∧ text = blanks ++ skipBlanks text := by
  induction text with
  | nil => exact ⟨[], by simp, rfl⟩
  | cons ch text ih =>
    rw [skipBlanks]
    split
    · next hblank =>
      obtain ⟨blanks, hblanks, htext⟩ := ih
      exact ⟨ch :: blanks, List.forall_mem_cons.mpr ⟨hblank, hblanks⟩, congrArg (ch :: ·) htext⟩
    · exact ⟨[], by simp, rfl⟩

theorem follow_spec {text req rest : List UInt8} (h : follow text req = some (rest, true)) : text = req ++ rest := by
  induction text generalizing req with
  | nil =>
    cases req with
    | nil => cases h; rfl
    | cons r req => cases h
  | cons ch text ih =>
    cases req with
    | nil => cases h; rfl
    | cons r req =>
      rw [follow] at h
      split at h
      · next heq => rw [heq, ih h]; rfl
      · cases h

theorem found_spec {req text rest : List UInt8} (h : found req text = some rest) :
    ∃ s, Syntax.Token req s ∧ text = s ++ rest := by
  obtain ⟨blanks, hblanks, htext⟩ := skipBlanks_spec text
  unfold found at h
  split at h
  · next hfollow =>
    cases h
    exact ⟨blanks ++ req, ⟨blanks, hblanks, rfl⟩, by rw [List.append_assoc, ← follow_spec hfollow, ← htext]⟩
  · cases h

theorem digits_of_head {digit : UInt8 → Option Nat} {text : List UInt8}
    (h : ∃ ch ∈ text.head?, (digit ch).isSome) :
    Syntax.Digits digit (text.takeWhile fun ch => (digit ch).isSome) := by
  obtain ⟨ch, hhead, hdigit⟩ := h
  cases text with
  | nil => cases hhead
  | cons ch' text =>
    cases hhead
    refine ⟨?_, List.all_eq_true.mp List.all_takeWhile⟩
    rw [List.takeWhile_cons_of_pos (p := fun ch => (digit ch).isSome) hdigit]
    exact List.cons_ne_nil _ _

theorem numeral_of_hasDigit {text : List UInt8} (h : HasDigit text) :
    ∃ blanks numeral, text = blanks ++ numeral ++ behindNumber text ∧
      (∀ ch ∈ blanks, Syntax.IsBlank ch) ∧ Syntax.Numeral numeral := by
  obtain ⟨blanks, hblanks, htext⟩ := skipBlanks_spec text
  unfold HasDigit at h
  unfold behindNumber
  unfold number at *
  split at h
  · next rest hskip =>
    refine ⟨blanks, chars "0x" ++ rest.takeWhile fun ch => (hexDigit ch).isSome, ?_, hblanks, .hex (digits_of_head h)⟩
    rw [List.append_assoc, List.append_assoc, List.takeWhile_append_dropWhile]
    exact htext.trans (by rw [hskip]; rfl)
  · next rest hskip =>
    refine ⟨blanks, chars "0b" ++ rest.takeWhile fun ch => (binDigit ch).isSome, ?_, hblanks, .bin (digits_of_head h)⟩
    rw [List.append_assoc, List.append_assoc, List.takeWhile_append_dropWhile]
    exact htext.trans (by rw [hskip]; rfl)
  · refine ⟨blanks, (skipBlanks text).takeWhile fun ch => (decDigit ch).isSome, ?_, hblanks, .dec (digits_of_head h)⟩
    rw [List.append_assoc, List.takeWhile_append_dropWhile]
    exact htext

theorem readDigits_spec {base : Nat} {digit : UInt8 → Option Nat} {v n : Nat} {text rest : List UInt8}
    (h : readDigits base digit v text = .value n rest) : rest = text.dropWhile fun ch => (digit ch).isSome := by
  fun_induction readDigits base digit v text with
  | case1 => cases h
  | case2 => cases h
  | case3 v hv ch text d hd ih => rw [ih h, List.dropWhile_cons_of_pos (by rw [hd]; rfl)]
  | case4 v hv ch text hd =>
    cases h
    rw [List.dropWhile_cons_of_neg (by rw [hd]; simp)]

end IcCtx

theorem Icx.unquote_spec {s text str rest : List UInt8} (h : Icx.unquote s text = .closed str rest) :
    ∃ body, Syntax.Quoted body ∧ text = body ++ 39 :: rest := by
  fun_induction Icx.unquote s text with
  | case2 s text =>
    cases h
    exact ⟨[], .nil, rfl⟩
  | case4 s ch text hescaped _ ih =>
    obtain ⟨body, hbody, rfl⟩ := ih h
    exact ⟨92 :: ch :: body, .escaped hescaped hbody, rfl⟩
  | case11 s c1 _ h1 c2 h2 c3 text h3 val hval _ ih =>
    obtain ⟨body, hbody, rfl⟩ := ih h
    exact ⟨92 :: c1 :: c2 :: c3 :: body,
      .octal (by simpa using h1) (by simpa using h2) (by simpa using h3) (not_lt.mp hval) hbody, rfl⟩
  | case12 s ch text hquote hslash hplain ih =>
    obtain ⟨body, hbody, rfl⟩ := ih h
    exact ⟨ch :: body, .plain hplain.1 hplain.2 hquote hslash hbody, rfl⟩
  | _ => cases h

namespace Icx
variable {c c' : IcCtx} {info : Info}

theorem discard_skiptotoken_ok {u : Unit} (h : discard skiptotoken c = .ok u c') :
    c'.parsePos = skipBlanks c.parsePos := by
  obtain ⟨more, hskip, -⟩ := map_eq_ok.mp (show (EStateM.map _ skiptotoken) c = .ok _ c' from h)
  unfold skiptotoken at hskip
  split at hskip
  · cases hskip
  · next heq =>
    cases hskip
    exact heq.symm

theorem expect_ok {req : List UInt8} {b : Bool} (h : expect req c = .ok b c') :
    follow (skipBlanks c.parsePos) req = some (c'.parsePos, b) := by
  obtain ⟨_, c1, h1, h2⟩ := bind_eq_ok.mp h
  rw [← discard_skiptotoken_ok h1]
  split at h2
  · cases h2
  · next heq =>
    cases h2
    exact heq

theorem expect_found {req : List UInt8} (h : expect req c = .ok true c') : found req c.parsePos = some c'.parsePos := by
  unfold found
  rw [expect_ok h]

theorem expect_consumes {req rest : List UInt8} {b : Bool} (h : expect req c = .ok b c')
    (hf : found req c.parsePos = some rest) : c'.parsePos = rest := by
  unfold found at hf
  rw [expect_ok h] at hf
  cases b with
  | true => exact Option.some.inj hf
  | false => cases hf

theorem discard_expect_consumes {req rest : List UInt8} {u : Unit} (h : discard (expect req) c = .ok u c')
    (hf : found req c.parsePos = some rest) : c'.parsePos = rest := by
  obtain ⟨b, hb, -⟩ := map_eq_ok.mp (show (EStateM.map _ (expect req)) c = .ok _ c' from h)
  exact expect_consumes hb hf

theorem readNumber_ok {base : Nat} {digit : UInt8 → Option Nat} {message : String} {w v : Nat}
    (h : readNumber base digit message w info c = .ok v c') :
    c'.parsePos = c.parsePos.dropWhile fun ch => (digit ch).isSome := by
  unfold readNumber at h
  split at h
  · cases h
  · cases h
  · next hdigits =>
    split at h
    · cases h
    · cases h
      exact readDigits_spec hdigits

theorem charAt_ok {n : Nat} {ch : UInt8} (h : charAt n c = .ok ch c') : c' = c ∧ c.parsePos[n]? = some ch := by
  unfold charAt at h
  split at h
  · cases h
  · next heq =>
    cases h
    exact ⟨rfl, heq⟩

theorem readNumeral_ok {w v : Nat} (h : readNumeral w info c = .ok v c') :
    c'.parsePos = behindNumber c.parsePos := by
  obtain ⟨_, ⟨pos, limit, stack, text⟩, hskip, hnum⟩ := bind_eq_ok.mp h
  have hpos : text = skipBlanks c.parsePos := discard_skiptotoken_ok hskip
  unfold behindNumber number
  rw [← hpos]
  clear h hskip hpos
  obtain ⟨ch, c2, hch, hnum1⟩ := bind_eq_ok.mp hnum
  obtain ⟨rfl, hch⟩ := charAt_ok hch
  clear hnum
  cases text with
  | nil => cases hch
  | cons ch0 text =>
    cases hch
    by_cases hzero : ch = 48
    · subst hzero
      rw [if_pos rfl] at hnum1
      obtain ⟨ch1, c3, hch1, hnum2⟩ := bind_eq_ok.mp hnum1
      obtain ⟨rfl, hch1⟩ := charAt_ok hch1
      clear hnum1
      cases text with
      | nil => cases hch1
      | cons ch1' rest =>
        cases hch1
        by_cases hx : ch1 = 120
        · subst hx
          rw [if_pos rfl] at hnum2
          exact readNumber_ok (show readHex w info ⟨pos, limit, stack, rest⟩ = .ok v c' from hnum2)
        · rw [if_neg hx] at hnum2
          have hnum3 : (if ch1 = 98 then (do advance 2; readBin w info) else readDec w info)
              ⟨pos, limit, stack, 48 :: ch1 :: rest⟩ = .ok v c' := hnum2
          by_cases hb : ch1 = 98
          · subst hb
            rw [if_pos rfl] at hnum3
            exact readNumber_ok (show readBin w info ⟨pos, limit, stack, rest⟩ = .ok v c' from hnum3)
          · rw [if_neg hb] at hnum3
            rw [readNumber_ok hnum3]
            split
            · next heq =>
              cases heq
              exact absurd rfl hx
            · next heq =>
              cases heq
              exact absurd rfl hb
            · rfl
    · rw [if_neg hzero] at hnum1
      rw [readNumber_ok hnum1]
      split
      · next heq =>
        cases heq
        exact absurd rfl hzero
      · next heq =>
        cases heq
        exact absurd rfl hzero
      · rfl

theorem readUint_ok {w v : Nat} (h : readUint w info c = .ok v c') :
    ∃ text1 text2, found info.name c.parsePos = some text1 ∧ found (chars ":") text1 = some text2 ∧
      c'.parsePos = behindNumber text2 := by
  rw [readUint_eq] at h
  obtain ⟨named, c1, hname, h⟩ := bind_eq_ok.mp h
  cases named with
  | false => cases h
  | true =>
    obtain ⟨colon, c2, hcolon, h⟩ := bind_eq_ok.mp h
    cases colon with
    | false => cases h
    | true => exact ⟨_, _, expect_found hname, expect_found hcolon, readNumeral_ok h⟩

theorem uint_ok {w : Nat} {v : UInt32} (h : uint w info c = .ok v c') :
    ∃ text1 text2, found info.name c.parsePos = some text1 ∧ found (chars ":") text1 = some text2 ∧
      c'.parsePos = behindNumber text2 := by
  cases hr : readUint w info c with
  | error e c1 =>
    rw [icx_uint_of_error hr] at h
    cases h
  | ok n c1 =>
    rw [icx_uint_of_ok hr] at h
    cases h
    obtain ⟨text1, text2, hname, hcolon, hrest⟩ := readUint_ok hr
    exact ⟨text1, text2, hname, hcolon, hrest⟩

theorem iox_uint_ok {var : Variable} {w : Nat} {val v : var.Word}
    (h : Iox.uint (m := .parseText) var w val info c = .ok v c') :
    ∃ text1 text2, found info.name c.parsePos = some text1 ∧ found (chars ":") text1 = some text2 ∧
      c'.parsePos = behindNumber text2 := by
  cases var with
  | uint8 =>
    obtain ⟨n, c1, hn, hr⟩ := bind_eq_ok.mp h
    cases hr
    exact uint_ok hn
  | uint16 =>
    obtain ⟨n, c1, hn, hr⟩ := bind_eq_ok.mp h
    cases hr
    exact uint_ok hn
  | uint32 => exact uint_ok h

theorem parseString_ok {str text1 text2 text3 : List UInt8} (h : parseString info c = .ok str c')
    (hname : found info.name c.parsePos = some text1) (hcolon : found (chars ":") text1 = some text2)
    (hquote : found (chars "'") text2 = some text3) :
    ∃ body, Syntax.Quoted body ∧ text3 = body ++ 39 :: c'.parsePos := by
  unfold parseString at h
  split at h
  · cases h
  · obtain ⟨_, c1, h1, h⟩ := bind_eq_ok.mp h
    obtain ⟨_, c2, h2, h⟩ := bind_eq_ok.mp h
    obtain ⟨_, c3, h3, h⟩ := bind_eq_ok.mp h
    have hpos1 := discard_expect_consumes h1 hname
    have hpos2 := discard_expect_consumes h2 (by rw [hpos1]; exact hcolon)
    have hpos3 := discard_expect_consumes h3 (by rw [hpos2]; exact hquote)
    rw [← hpos3]
    split at h
    · next hbody =>
      cases h
      exact unquote_spec hbody
    · cases h
    · cases h

theorem skipBytes_parsePos {len : Nat} {u : Unit} (h : skipBytes len info c = .ok u c') :
    c'.parsePos = c.parsePos := by
  unfold skipBytes at h
  split at h
  · cases h
  · cases h
    rfl

theorem blockBegin_ok {length : Nat} {u : Unit} {text : List UInt8} (h : blockBegin length info c = .ok u c')
    (hbrace : found (chars "\x7b") c.parsePos = some text) : c'.parsePos = text := by
  unfold blockBegin at h
  rw [get_bind] at h
  split at h
  · cases h
  · split at h
    · cases h
    · obtain ⟨_, c1, h1, h⟩ := bind_eq_ok.mp h
      cases h
      exact (discard_expect_consumes h1 hbrace : c1.parsePos = text)

theorem blockEnd_ok {n : Nat} {text : List UInt8} (h : blockEnd info c = .ok n c')
    (hbrace : found (chars "\x7d") c.parsePos = some text) : c'.parsePos = text := by
  unfold blockEnd at h
  rw [get_bind] at h
  cases hs : c.scopeStack with
  | nil =>
    rw [hs] at h
    cases h
  | cons s outer =>
    rw [hs] at h
    obtain ⟨_, c1, h1, h⟩ := bind_eq_ok.mp h
    rw [get_bind] at h
    split at h
    · cases h
    · cases h
      exact (discard_expect_consumes h1 hbrace : c1.parsePos = text)

end Icx

namespace Operation

/-- The tokens of the operation are next where nothing else makes it throw: a digit of a
number, the name, the colon and the quote of a string, and the braces of a block. -/
def Tokens : Operation → Ctx .parseText → Prop
  | uint _ _ _ info, c => ∀ text1 text2, found info.name c.parsePos = some text1 →
    found (chars ":") text1 = some text2 → HasDigit text2
  | uintReq _ _ _ info, c => ∀ text1 text2, found info.name c.parsePos = some text1 →
    found (chars ":") text1 = some text2 → HasDigit text2
  | shortString _ info, c => ∃ text1 text2, found info.name c.parsePos = some text1 ∧
    found (chars ":") text1 = some text2 ∧ (found (chars "'") text2).isSome
  | fixedString _ _ info, c => ∃ text1 text2, found info.name c.parsePos = some text1 ∧
    found (chars ":") text1 = some text2 ∧ (found (chars "'") text2).isSome
  | namedBlockBegin _ info, c => ∀ text1 text2, found info.name c.parsePos = some text1 →
    found (chars ":") text1 = some text2 → HasDigit text2 ∧ (found (chars "\x7b") (behindNumber text2)).isSome
  | namedBlockEnd _, c => (found (chars "\x7d") c.parsePos).isSome

theorem number_consumed {info : Info} {text text1 text2 : List UInt8} (hname : found info.name text = some text1)
    (hcolon : found (chars ":") text1 = some text2) (hdigit : HasDigit text2) :
    ∃ s, Syntax.Number info s ∧ text = s ++ behindNumber text2 := by
  obtain ⟨name, hn, rfl⟩ := found_spec hname
  obtain ⟨colon, hc, rfl⟩ := found_spec hcolon
  obtain ⟨blanks, numeral, htext, hblanks, hnumeral⟩ := numeral_of_hasDigit hdigit
  refine ⟨name ++ colon ++ (blanks ++ numeral), ⟨name, colon, blanks, numeral, rfl, hn, hc, hblanks, hnumeral⟩, ?_⟩
  rw [List.append_assoc, List.append_assoc, ← htext]

theorem string_consumed {info : Info} {c c' : IcCtx} {str : List UInt8}
    (h : Icx.parseString info c = .ok str c')
    (htokens : ∃ text1 text2, found info.name c.parsePos = some text1 ∧ found (chars ":") text1 = some text2 ∧
      (found (chars "'") text2).isSome) :
    ∃ s, Syntax.QuotedString info s ∧ c.parsePos = s ++ c'.parsePos := by
  obtain ⟨text1, text2, hname, hcolon, hquote⟩ := htokens
  obtain ⟨text3, hquote⟩ := Option.isSome_iff_exists.mp hquote
  obtain ⟨body, hbody, htext3⟩ := Icx.parseString_ok h hname hcolon hquote
  obtain ⟨name, hn, hpos⟩ := found_spec hname
  obtain ⟨colon, hc, rfl⟩ := found_spec hcolon
  obtain ⟨quote, hq, rfl⟩ := found_spec hquote
  refine ⟨name ++ colon ++ quote ++ (body ++ [39]), ⟨name, colon, quote, body, rfl, hn, hc, hq, hbody⟩, ?_⟩
  rw [hpos, htext3]
  simp only [List.append_assoc, List.cons_append, List.nil_append]

theorem exec_consumes {op : Operation} {c c' : IcCtx} {u : Unit} (htokens : op.Tokens c)
    (h : op.exec (m := .parseText) c = .ok u c') : ∃ s, op.Consumes s ∧ c.parsePos = s ++ c'.parsePos := by
  cases op with
  | uint var w val info =>
    obtain ⟨v, c1, h1, hr⟩ := bind_eq_ok.mp h
    cases hr
    obtain ⟨text1, text2, hname, hcolon, hrest⟩ := Icx.iox_uint_ok h1
    rw [hrest]
    exact number_consumed hname hcolon (htokens text1 text2 hname hcolon)
  | uintReq var w val info =>
    obtain ⟨v, c1, h1, hr⟩ := bind_eq_ok.mp h
    split at hr
    · cases hr
    · cases hr
      obtain ⟨text1, text2, hname, hcolon, hrest⟩ := Icx.iox_uint_ok h1
      rw [hrest]
      exact number_consumed hname hcolon (htokens text1 text2 hname hcolon)
  | shortString str info =>
    obtain ⟨v, c1, h1, hr⟩ := bind_eq_ok.mp h
    cases hr
    obtain ⟨str', c2, h2, h1⟩ := bind_eq_ok.mp h1
    obtain ⟨_, c3, h3, h1⟩ := bind_eq_ok.mp h1
    cases h1
    rw [Icx.skipBytes_parsePos h3]
    exact string_consumed h2 htokens
  | fixedString n str info =>
    obtain ⟨v, c1, h1, hr⟩ := bind_eq_ok.mp h
    cases hr
    obtain ⟨str', c2, h2, h1⟩ := bind_eq_ok.mp h1
    obtain ⟨_, c3, h3, h1⟩ := bind_eq_ok.mp h1
    cases h1
    rw [Icx.skipBytes_parsePos h3]
    exact string_consumed h2 htokens
  | namedBlockBegin b info =>
    obtain ⟨v, c1, h1, h2⟩ := bind_eq_ok.mp h
    obtain ⟨text1, text2, hname, hcolon, hrest⟩ := Icx.uint_ok h1
    obtain ⟨hdigit, hbrace⟩ := htokens text1 text2 hname hcolon
    obtain ⟨text3, hbrace⟩ := Option.isSome_iff_exists.mp hbrace
    obtain ⟨number, hnumber, htext⟩ := number_consumed hname hcolon hdigit
    rw [← hrest] at hbrace
    have hpos := Icx.blockBegin_ok h2 hbrace
    obtain ⟨brace, hb, hpos1⟩ := found_spec hbrace
    exact ⟨number ++ brace, ⟨number, brace, rfl, hnumber, hb⟩, by
      rw [htext, ← hrest, hpos1, hpos, List.append_assoc]⟩
  | namedBlockEnd info =>
    obtain ⟨n, c1, h1, hr⟩ := bind_eq_ok.mp h
    cases hr
    obtain ⟨text, hbrace⟩ := Option.isSome_iff_exists.mp htokens
    have hpos := Icx.blockEnd_ok h1 hbrace
    obtain ⟨brace, hb, hpos1⟩ := found_spec hbrace
    exact ⟨brace, hb, by rw [hpos1, hpos]⟩

theorem execAll_consumes {ops : List Operation} {c c' : IcCtx} {u : Unit} (htokens : Throughout Tokens ops c)
    (h : execAll (m := .parseText) ops c = .ok u c') :
    ∃ pieces, List.Forall₂ Consumes ops pieces ∧ c.parsePos = pieces.flatten ++ c'.parsePos := by
  induction ops generalizing c with
  | nil =>
    cases h
    exact ⟨[], .nil, rfl⟩
  | cons op ops ih =>
    obtain ⟨_, c1, h1, h2⟩ := bind_eq_ok.mp h
    obtain ⟨s, hs, hpos⟩ := exec_consumes htokens.1 h1
    obtain ⟨pieces, hpieces, hpos1⟩ := ih (htokens.2 c1 h1) h2
    exact ⟨s :: pieces, .cons hs hpieces, by rw [hpos, hpos1, List.flatten_cons, List.append_assoc]⟩

end Operation

/-- As long as the tokens of every operation are there, text parsing consumes what the
syntax says, operation by operation. -/
theorem text_syntax {text : List UInt8} {ops : List Operation} {c : IcCtx}
    (htokens : Operation.Throughout Operation.Tokens ops (IcCtx.create text))
    (h : Operation.execAll (m := .parseText) ops (IcCtx.create text) = .ok () c) :
    ∃ pieces, List.Forall₂ Operation.Consumes ops pieces ∧ text ++ [0] = pieces.flatten ++ c.parsePos :=
  Operation.execAll_consumes htokens h

def sampleOperations : List Operation :=
  [.uint .uint8 8 (0 : UInt8) ⟨chars "n", 0⟩, .namedBlockBegin 8 ⟨chars "len", 0⟩, .shortString [] ⟨chars "s", 0⟩,
    .namedBlockEnd ⟨chars "end", 0⟩]

def sampleInput : List UInt8 := chars "\n n : 0x1f\nlen:3 \x7b s:'ab' \x7d"

theorem text_syntax_block : ∃ c pieces,
    Operation.execAll (m := .parseText) sampleOperations (IcCtx.create sampleInput) = .ok () c ∧
    List.Forall₂ Operation.Consumes sampleOperations pieces ∧ sampleInput ++ [0] = pieces.flatten ++ c.parsePos := by
  have hrun : gives (Operation.execAll (m := .parseText) sampleOperations (IcCtx.create sampleInput)) () = true := by
    decide +kernel
  obtain ⟨c, h⟩ := exists_ok_of_gives hrun
  have htokens : Operation.Throughout Operation.Tokens sampleOperations (IcCtx.create sampleInput) := by
    refine Operation.throughout_of_take fun k hk => ?_
    generalize hc : reached (Operation.execAll (m := .parseText) (sampleOperations.take k)
      (IcCtx.create sampleInput)) = c
    replace hc := congrArg IcCtx.parsePos hc
    have hk : k = 0 ∨ k = 1 ∨ k = 2 ∨ k = 3 := by
      have : k < 4 := hk
      omega
    rcases hk with rfl | rfl | rfl | rfl
    · rw [show IcCtx.parsePos _ = sampleInput ++ [0] from rfl] at hc
      intro text1 text2 hname hcolon
      rw [← hc] at hname
      cases (show some (chars " : 0x1f\nlen:3 \x7b s:'ab' \x7d" ++ [0]) = some text1 from hname)
      cases (show some (chars " 0x1f\nlen:3 \x7b s:'ab' \x7d" ++ [0]) = some text2 from hcolon)
      exact ⟨49, rfl, rfl⟩
    · rw [show IcCtx.parsePos _ = chars "\nlen:3 \x7b s:'ab' \x7d" ++ [0] by decide +kernel] at hc
      intro text1 text2 hname hcolon
      rw [← hc] at hname
      cases (show some (chars ":3 \x7b s:'ab' \x7d" ++ [0]) = some text1 from hname)
      cases (show some (chars "3 \x7b s:'ab' \x7d" ++ [0]) = some text2 from hcolon)
      exact ⟨⟨51, rfl, rfl⟩, rfl⟩
    · rw [show IcCtx.parsePos _ = chars " s:'ab' \x7d" ++ [0] by decide +kernel] at hc
      refine ⟨chars ":'ab' \x7d" ++ [0], chars "'ab' \x7d" ++ [0], ?_, rfl, rfl⟩
      rw [← hc]
      rfl
    · rw [show IcCtx.parsePos _ = chars " \x7d" ++ [0] by decide +kernel] at hc
      show (found _ c.parsePos).isSome = true
      rw [← hc]
      rfl
  obtain ⟨pieces, hpieces, htext⟩ := text_syntax htokens h
  exact ⟨c, pieces, h, hpieces, htext⟩

/-- A block without braces is parsed as well. -/
theorem braces_missing : ∃ c,
    Operation.execAll (m := .parseText) [.namedBlockBegin 8 ⟨chars "n", 0⟩,
      .uint .uint8 8 (0 : UInt8) ⟨chars "m", 0⟩, .namedBlockEnd ⟨chars "end", 0⟩]
      (IcCtx.create (chars "n:1\nm:2\n")) = .ok () c ∧
    ¬ ∃ pieces, List.Forall₂ Operation.Consumes [.namedBlockBegin 8 ⟨chars "n", 0⟩,
      .uint .uint8 8 (0 : UInt8) ⟨chars "m", 0⟩, .namedBlockEnd ⟨chars "end", 0⟩] pieces ∧
      chars "n:1\nm:2\n" ++ [0] = pieces.flatten ++ c.parsePos := by
  have hrun : gives (Operation.execAll (m := .parseText) [.namedBlockBegin 8 ⟨chars "n", 0⟩,
      .uint .uint8 8 (0 : UInt8) ⟨chars "m", 0⟩, .namedBlockEnd ⟨chars "end", 0⟩]
      (IcCtx.create (chars "n:1\nm:2\n"))) () = true := by decide +kernel
  obtain ⟨c, h⟩ := exists_ok_of_gives hrun
  refine ⟨c, h, ?_⟩
  rintro ⟨pieces, hpieces, htext⟩
  obtain ⟨piece, rest, ⟨number, brace, rfl, -, blanks, -, rfl⟩, -, rfl⟩ := List.forall₂_cons_left_iff.mp hpieces
  have hmem : (123 : UInt8) ∈ chars "n:1\nm:2\n" ++ [0] := by
    rw [htext]
    simp [chars]
  exact absurd hmem (by decide)

end Mopa.Io
