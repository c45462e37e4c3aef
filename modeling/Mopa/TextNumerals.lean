import Mopa.TextTokens

/-! Numbers in text mode: which numerals are read exactly, and which of the printed ones come
back. -/
namespace Mopa.Io
open Outcome IcCtx OcCtx

namespace IcCtx

/-- The character that a digit counts from, for the characters of a range. -/
def countsFrom (low high ch : UInt8) : Option UInt8 := if low ≤ ch ∧ ch ≤ high then some low else none

def decZero (ch : UInt8) : Option UInt8 := countsFrom 48 57 ch

def binZero (ch : UInt8) : Option UInt8 := countsFrom 48 49 ch

def hexZero (ch : UInt8) : Option UInt8 :=
  (countsFrom 48 57 ch).or ((countsFrom 65 70 ch).or (countsFrom 97 102 ch))

theorem countsFrom_le {low high ch z : UInt8} (h : countsFrom low high ch = some z) : z.toNat ≤ ch.toNat := by
  unfold countsFrom at h
  split at h
  · next hch =>
    cases h
    exact UInt8.le_iff_toNat_le.mp hch.1
  · cases h

theorem hexZero_le {ch z : UInt8} (h : hexZero ch = some z) : z.toNat ≤ ch.toNat := by
  rcases Option.or_eq_some_iff.mp h with h | ⟨-, h⟩
  · exact countsFrom_le h
  · rcases Option.or_eq_some_iff.mp h with h | ⟨-, h⟩
    · exact countsFrom_le h
    · exact countsFrom_le h

/-- The loop of `read_dec`, `read_hex` and `read_bin` with its `uint64_t`. -/
def readDigits64 (base : UInt64) (zero : UInt8 → Option UInt8) : UInt64 → List UInt8 → Digits
  | value, text =>
    if value ≥ 0x100000000 then
      .exceeds text
    else
      match text with
      | [] => .overread
      | ch :: rest =>
        match zero ch with
        | some z => readDigits64 base zero (value * base + UInt64.ofNat ch.toNat - UInt64.ofNat z.toNat) rest
        | none => .value value.toNat (ch :: rest)
termination_by _ text => text.length

theorem accumulate_toNat {value base : UInt64} {ch z : UInt8} (hv : value.toNat < 2^32) (hb : base.toNat ≤ 16)
    (hz : z.toNat ≤ ch.toNat) :
    (value * base + UInt64.ofNat ch.toNat - UInt64.ofNat z.toNat).toNat =
      value.toNat * base.toNat + (ch.toNat - z.toNat) := by
  have hch := ch.toNat_lt
  have hmul : value.toNat * base.toNat ≤ 2^32 * 16 := Nat.mul_le_mul hv.le hb
  have hsum : (value * base + UInt64.ofNat ch.toNat).toNat = value.toNat * base.toNat + ch.toNat := by
    rw [UInt64.toNat_add, UInt64.toNat_mul, UInt64.toNat_ofNat', Nat.mod_eq_of_lt (show ch.toNat < 2^64 by omega),
      Nat.mod_eq_of_lt (show value.toNat * base.toNat < 2^64 by omega), Nat.mod_eq_of_lt (by omega)]
  have hzero : (UInt64.ofNat z.toNat).toNat = z.toNat := by
    rw [UInt64.toNat_ofNat', Nat.mod_eq_of_lt (by omega)]
  rw [UInt64.toNat_sub_of_le _ _ (by rw [UInt64.le_iff_toNat_le, hsum, hzero]; omega), hsum, hzero]
  omega

theorem readDigits64_eq {base : UInt64} {zero : UInt8 → Option UInt8} {digit : UInt8 → Option Nat} (hb : base.toNat ≤ 16)
    (hdigit : ∀ ch, digit ch = (zero ch).map fun z => ch.toNat - z.toNat)
    (hle : ∀ ch z, zero ch = some z → z.toNat ≤ ch.toNat) (value : UInt64) (text : List UInt8) :
    readDigits64 base zero value text = readDigits base.toNat digit value.toNat text := by
  induction text generalizing value with
  | nil =>
    rw [readDigits64, readDigits]
    by_cases hv : value.toNat < 2^32
    · rw [if_neg (by rw [ge_iff_le, UInt64.le_iff_toNat_le]; exact not_le.mpr hv), if_neg (not_le.mpr hv)]
    · rw [if_pos (UInt64.le_iff_toNat_le.mpr (not_lt.mp hv)), if_pos (not_lt.mp hv)]
  | cons ch text ih =>
    rw [readDigits64, readDigits]
    by_cases hv : value.toNat < 2^32
    · rw [if_neg (by rw [ge_iff_le, UInt64.le_iff_toNat_le]; exact not_le.mpr hv), if_neg (not_le.mpr hv)]
      cases hz : zero ch with
      | none => simp only [hdigit ch, hz, Option.map_none]
      | some z =>
        simp only [hdigit ch, hz, Option.map_some]
        rw [ih, accumulate_toNat hv hb (hle ch z hz)]
    · rw [if_pos (UInt64.le_iff_toNat_le.mpr (not_lt.mp hv)), if_pos (not_lt.mp hv)]

theorem decDigit_zero (ch : UInt8) : decDigit ch = (decZero ch).map fun z => ch.toNat - z.toNat := by
  unfold decDigit decZero countsFrom
  split
  · rfl
  · rfl

theorem binDigit_zero (ch : UInt8) : binDigit ch = (binZero ch).map fun z => ch.toNat - z.toNat := by
  unfold binDigit binZero countsFrom
  split
  · rfl
  · rfl

theorem hexDigit_zero (ch : UInt8) : hexDigit ch = (hexZero ch).map fun z => ch.toNat - z.toNat := by
  unfold hexDigit hexZero countsFrom
  split
  · rfl
  · split
    · rfl
    · split
      · rfl
      · rfl

end IcCtx

namespace Icx

/-- `read_dec`, `read_hex` and `read_bin` with the `uint64_t`. -/
def readNumber64 (base : UInt64) (zero : UInt8 → Option UInt8) (message : String) (bitsize : Nat) (info : Info) :
    Icx Nat := fun c =>
  match readDigits64 base zero 0 c.parsePos with
  | .overread => .error .undefined c
  | .exceeds rest => throwX info "value exceeds 32 bit" { c with parsePos := rest }
  | .value v rest =>
    if v ≥ 2^bitsize then
      throwX info message { c with parsePos := rest }
    else
      .ok v { c with parsePos := rest }

variable {w : Nat} {info : Info} {c : IcCtx} {s rest : List UInt8} {ch : UInt8}

theorem readDec_eq : readDec w info = readNumber64 10 decZero "value %d exceeds %d bits" w info := by
  funext c
  unfold readDec readNumber readNumber64
  rw [readDigits64_eq (by decide) decDigit_zero (fun _ _ => countsFrom_le)]
  rfl

theorem readBin_eq : readBin w info = readNumber64 2 binZero "value %d exceeds %d bit" w info := by
  funext c
  unfold readBin readNumber readNumber64
  rw [readDigits64_eq (by decide) binDigit_zero (fun _ _ => countsFrom_le)]
  rfl

theorem readHex_eq : readHex w info = readNumber64 16 hexZero "value %x exceeds %d bit" w info := by
  funext c
  unfold readHex readNumber readNumber64
  rw [readDigits64_eq (by decide) hexDigit_zero (fun _ _ => hexZero_le)]
  rfl

def decValue (ch : UInt8) : Nat := ch.toNat - 48

/-- The reader returns the number behind its digits, if it has at most `w` bits, and throws
otherwise. -/
def ReadsNumeral (x : Icx Nat) (w n : Nat) (info : Info) (c : IcCtx) (text : List UInt8) : Prop :=
  if n < 2^w then x c = .ok n { c with parsePos := text }
  else ∃ message c', x c = .error (.exception info message) c'

theorem readDec_run (hs : ∀ x ∈ s, (decDigit x).isSome) (hch : decDigit ch = none) (hw : w ≤ 32)
    (h : c.parsePos = s ++ ch :: rest) :
    ReadsNumeral (readDec w info) w (Numeral.value 10 0 (s.map decValue)) info c (ch :: rest) := by
  refine readNumber_run (fun x hx => ?_) (by decide) hch hw h
  have hx := hs x hx
  unfold decDigit at hx ⊢
  split
  · rfl
  · next hno =>
    rw [if_neg hno] at hx
    cases hx

theorem readBin_run (hs : ∀ x ∈ s, (binDigit x).isSome) (hch : binDigit ch = none) (hw : w ≤ 32)
    (h : c.parsePos = s ++ ch :: rest) :
    ReadsNumeral (readBin w info) w (Numeral.value 2 0 (s.map decValue)) info c (ch :: rest) := by
  refine readNumber_run (fun x hx => ?_) (by decide) hch hw h
  have hx := hs x hx
  unfold binDigit at hx ⊢
  split
  · rfl
  · next hno =>
    rw [if_neg hno] at hx
    cases hx

/-- Decimal and binary numerals of any length are read exactly, and a `uint64_t` suffices. -/
theorem numerals_read_exactly (w : Nat) (hw : w ≤ 32) (info : Info) (c : IcCtx) (s : List UInt8) (ch : UInt8)
    (rest : List UInt8) (h : c.parsePos = s ++ ch :: rest) :
    ((∀ x ∈ s, (decDigit x).isSome) → decDigit ch = none →
      ReadsNumeral (readDec w info) w (Numeral.value 10 0 (s.map decValue)) info c (ch :: rest)) ∧
    ((∀ x ∈ s, (binDigit x).isSome) → binDigit ch = none →
      ReadsNumeral (readBin w info) w (Numeral.value 2 0 (s.map decValue)) info c (ch :: rest)) ∧
    readDec w info c = readNumber64 10 decZero "value %d exceeds %d bits" w info c ∧
    readBin w info c = readNumber64 2 binZero "value %d exceeds %d bit" w info c :=
  ⟨fun hdec hch => readDec_run hdec hch hw h, fun hbin hch => readBin_run hbin hch hw h, congrFun readDec_eq c,
    congrFun readBin_eq c⟩

theorem numerals_read_exactly_zeros :
    (ReadsNumeral (readDec 8 ⟨[], 0⟩) 8 7 ⟨[], 0⟩ ⟨0, 0, [], chars "007;"⟩ (chars ";")) ∧
    (ReadsNumeral (readBin 8 ⟨[], 0⟩) 8 256 ⟨[], 0⟩ ⟨0, 0, [], chars "100000000;"⟩ (chars ";")) :=
  ⟨(numerals_read_exactly 8 (by decide) ⟨[], 0⟩ ⟨0, 0, [], chars "007;"⟩ (chars "007") 59 [] (by decide)).1
    (List.all_eq_true.mp rfl) (by decide), (numerals_read_exactly 8 (by decide) ⟨[], 0⟩ ⟨0, 0, [], chars "100000000;"⟩
    (chars "100000000") 59 [] (by decide)).2.1 (List.all_eq_true.mp rfl) (by decide)⟩

theorem writeUint_line {n : Nat} (hn : n < 2^w) (o : OcCtx) :
    Ocx.writeUint w n info o = .ok () (o.append (uintLine o.scopeStack.length w n info)) := by
  unfold Ocx.writeUint
  exact if_neg fun h => absurd h.2 (by omega)

theorem readUint_uintLine {depth w' n : Nat} (hname : ¬ BlankName info.name)
    (h : c.parsePos = uintLine depth w' n info ++ rest) :
    readUint w info c = readNumeral w info { c with parsePos := OcCtx.number w' n info ++ 10 :: rest } := by
  refine readUint_line hname ?_
  show skipBlanks c.parsePos = _
  rw [h, uintLine]
  simp only [List.append_assoc, skipBlanks_indent]
  rfl

theorem readUint_uintLine_blank {depth w' n : Nat} (hname : BlankName info.name)
    (h : c.parsePos = uintLine depth w' n info ++ rest) :
    ∃ c', readUint w info c = .error (.exception info "'%s' expected") c' := by
  have hnext : c.Next (info.name ++ chars ":" ++ (OcCtx.number w' n info ++ (chars "\n" ++ rest))) := by
    show skipBlanks c.parsePos = _
    rw [h, uintLine]
    simp only [List.append_assoc, skipBlanks_indent]
  exact readUint_blank hname hnext

theorem readNumeral_sign (h : c.parsePos = 45 :: rest) : readNumeral w info c = .ok 0 c := by
  have hdigits : readDigits 10 decDigit 0 c.parsePos = .value 0 c.parsePos := by
    rw [h, readDigits, if_neg (by decide)]
    rfl
  refine (bind_ok (discard_skiptotoken_here h (by decide))).trans ((bind_ok (charAt_zero h)).trans ?_)
  rw [if_neg (by decide)]
  unfold readDec readNumber
  rw [hdigits]
  exact if_neg (not_le.mpr (Nat.two_pow_pos w))

theorem number_sign {n : Nat} (hhex : info.hint &&& formatHintMask ≠ formatHintHex)
    (hbin : info.hint &&& formatHintMask ≠ formatHintBin) (hlarge : 2^31 ≤ n) :
    OcCtx.number w n info = 45 :: Numeral.text 10 10 (2^32 - n) := by
  rw [OcCtx.number, if_neg hhex, if_neg hbin, decimal, if_neg (not_lt.mpr hlarge)]

/-- A decimal line is read back just if the number is printed without a sign, and its name is
found. -/
theorem decimal_line_reads_back (w n : Nat) (info : Info) (hn : n < 2^w)
    (hhex : info.hint &&& formatHintMask ≠ formatHintHex) (hbin : info.hint &&& formatHintMask ≠ formatHintBin) (o : OcCtx) :
    ∃ line, Ocx.writeUint w n info o = .ok () (o.append line) ∧ ∀ (c : IcCtx) (rest : List UInt8),
      c.parsePos = line ++ rest →
        (readUint w info c = .ok n { c with parsePos := chars "\n" ++ rest } ↔ ¬ BlankName info.name ∧ n < 2^31) := by
  refine ⟨_, writeUint_line hn o, fun c rest h => ?_⟩
  constructor
  · intro hread
    have hname : ¬ BlankName info.name := by
      intro hblank
      obtain ⟨c', herr⟩ := readUint_uintLine_blank (w := w) hblank h
      rw [hread] at herr
      cases herr
    refine ⟨hname, Nat.lt_of_not_le fun hlarge => ?_⟩
    rw [readUint_uintLine hname h, number_sign hhex hbin hlarge, readNumeral_sign rfl] at hread
    injection hread with hzero _
    omega
  · rintro ⟨hname, hsmall⟩
    rw [readUint_uintLine hname h]
    have hr : Readable n info := by
      unfold Readable
      rw [if_neg hhex]
      exact ⟨hbin, hsmall⟩
    exact readNumeral_number hr hn (hsmall.trans (by decide)) rfl

theorem decimal_line_reads_back_seven :
    ∃ line, Ocx.writeUint 8 7 ⟨chars "tag", 0⟩ OcCtx.create = .ok () (OcCtx.create.append line) ∧
      ∀ c : IcCtx, c.parsePos = line ++ [0] →
        readUint 8 ⟨chars "tag", 0⟩ c = .ok 7 { c with parsePos := chars "\n" ++ [0] } := by
  obtain ⟨line, hline, hread⟩ := decimal_line_reads_back 8 7 ⟨chars "tag", 0⟩ (by decide) (by decide) (by decide) OcCtx.create
  exact ⟨line, hline, fun c h => (hread c [0] h).mpr (by decide)⟩

/-- A checksum with the highest bit set is printed as a negative number, and read as 0. -/
theorem large_decimal_lost :
    Ocx.writeUint 32 (2^32 - 1) ⟨chars "crc", 0⟩ OcCtx.create = .ok () (OcCtx.create.append (chars "crc:-1\n")) ∧
    readUint 32 ⟨chars "crc", 0⟩ ⟨0, 0, [], chars "crc:-1\n" ++ [0]⟩ = .ok 0 ⟨0, 0, [], chars "-1\n" ++ [0]⟩ := by
  have hline : uintLine 0 32 (2^32 - 1) ⟨chars "crc", 0⟩ = chars "crc:-1\n" := by decide
  constructor
  · rw [← hline]
    exact writeUint_line (by decide) OcCtx.create
  · refine (readUint_uintLine (by decide) (congrArg (· ++ [0]) hline.symm)).trans ?_
    exact readNumeral_sign rfl

theorem binary_value (n : Nat) (hw : 1 ≤ w) :
    ∃ k, Numeral.value 10 0 ((binary w n).map decValue) = k * 10 + (1 - n % 2) := by
  obtain ⟨w, rfl⟩ := Nat.exists_eq_add_of_le' hw
  have hlast : binary (w+1) n = binary w (n >>> 1) ++ [if n.testBit 0 then 48 else 49] := by
    unfold binary
    rw [Bits.ofNat_append, List.map_append]
    rfl
  refine ⟨Numeral.value 10 0 ((binary w (n >>> 1)).map decValue), ?_⟩
  rw [hlast, List.map_append]
  refine (Numeral.value_append _ _ _ _).trans ?_
  congr 1
  rw [Nat.testBit_zero]
  rcases Nat.mod_two_eq_zero_or_one n with h | h
  · rw [h]
    rfl
  · rw [h]
    rfl

theorem binary_digits {n : Nat} {x : UInt8} (h : x ∈ binary w n) : x = 48 ∨ x = 49 := by
  obtain ⟨b, -, rfl⟩ := List.mem_map.mp h
  cases b
  · exact Or.inr rfl
  · exact Or.inl rfl

theorem readNumeral_binary {n : Nat} (h0 : 1 ≤ w) (hw : w ≤ 32) (h : c.parsePos = binary w n ++ 10 :: rest) :
    ReadsNumeral (readNumeral w info) w (Numeral.value 10 0 ((binary w n).map decValue)) info c (10 :: rest) := by
  have hdec : readNumeral w info c = readDec w info c := by
    cases hs : binary w n with
    | nil =>
      have hlen : (binary w n).length = w := by rw [binary, List.length_map, Bits.length_ofNat]
      rw [hs] at hlen
      exact absurd hlen (Nat.ne_of_lt h0)
    | cons x s =>
      have hx : x = 48 ∨ x = 49 := binary_digits (hs ▸ List.mem_cons_self)
      have hblank : ¬ Blank x := by rcases hx with rfl | rfl <;> decide
      rw [hs] at h
      cases s with
      | nil => exact readNumeral_decimal h hblank (by decide) (by decide)
      | cons y s =>
        have hy : y = 48 ∨ y = 49 := binary_digits (hs ▸ List.mem_cons_of_mem _ List.mem_cons_self)
        refine readNumeral_decimal h hblank ?_ ?_
        · rcases hy with rfl | rfl <;> decide
        · rcases hy with rfl | rfl <;> decide
  have hall : ∀ x ∈ binary w n, (decDigit x).isSome := by
    intro x hx
    rcases binary_digits hx with rfl | rfl
    · rfl
    · rfl
  have hread : ReadsNumeral (readDec w info) w _ info c (10 :: rest) := readDec_run hall rfl hw h
  unfold ReadsNumeral at hread ⊢
  rwa [hdec]

/-- No binary line is read back. -/
theorem binary_line_never_reads_back (w n : Nat) (info : Info) (h0 : 1 ≤ w) (hw : w ≤ 32) (hn : n < 2^w)
    (hbin : info.hint &&& formatHintMask = formatHintBin) (o : OcCtx) :
    ∃ line, Ocx.writeUint w n info o = .ok () (o.append line) ∧ ∀ (c : IcCtx) (rest : List UInt8),
      c.parsePos = line ++ rest → ¬ ∃ c', readUint w info c = .ok n c' := by
  refine ⟨_, writeUint_line hn o, fun c rest h => ?_⟩
  rintro ⟨c', hread⟩
  by_cases hname : BlankName info.name
  · obtain ⟨c'', herr⟩ := readUint_uintLine_blank (w := w) hname h
    rw [hread] at herr
    cases herr
  · have hnumber : OcCtx.number w n info = binary w n := by
      rw [OcCtx.number, hbin, if_neg (by decide), if_pos rfl]
    rw [readUint_uintLine hname h, hnumber] at hread
    have hval : ReadsNumeral (readNumeral w info) w _ info { c with parsePos := binary w n ++ 10 :: rest } (10 :: rest) :=
      readNumeral_binary h0 hw rfl
    obtain ⟨k, hk⟩ := binary_value n h0
    unfold ReadsNumeral at hval
    split at hval
    · rw [hread] at hval
      injection hval with hn' _
      omega
    · obtain ⟨message, c'', herr⟩ := hval
      rw [hread] at herr
      cases herr

theorem binary_line_never_reads_back_fifteen :
    ∃ line, Ocx.writeUint 4 15 ⟨chars "b", 2⟩ OcCtx.create = .ok () (OcCtx.create.append line) ∧
      ∀ c : IcCtx, c.parsePos = line ++ [0] → ¬ ∃ c', readUint 4 ⟨chars "b", 2⟩ c = .ok 15 c' := by
  obtain ⟨line, hline, hread⟩ := binary_line_never_reads_back 4 15 ⟨chars "b", 2⟩ (by decide) (by decide) (by decide) rfl
    OcCtx.create
  exact ⟨line, hline, fun c h => hread c [0] h⟩

/-- All four bits are set, and 0 is printed and read. -/
theorem binary_line_inverted :
    Ocx.writeUint 4 15 ⟨chars "b", 2⟩ OcCtx.create = .ok () (OcCtx.create.append (chars "b:0000\n")) ∧
    readUint 4 ⟨chars "b", 2⟩ ⟨0, 0, [], chars "b:0000\n" ++ [0]⟩ = .ok 0 ⟨0, 0, [], chars "\n" ++ [0]⟩ := by
  have hline : uintLine 0 4 15 ⟨chars "b", 2⟩ = chars "b:0000\n" := by decide
  constructor
  · rw [← hline]
    exact writeUint_line (by decide) OcCtx.create
  · refine (readUint_uintLine (by decide) (congrArg (· ++ [0]) hline.symm)).trans ?_
    have hread : ReadsNumeral (readNumeral 4 ⟨chars "b", 2⟩) 4 0 ⟨chars "b", 2⟩
        ⟨0, 0, [], binary 4 15 ++ 10 :: [0]⟩ (10 :: [0]) :=
      readNumeral_binary (w := 4) (n := 15) (by decide) (by decide) rfl
    exact hread

def hexValue (ch : UInt8) : Option Nat :=
  if 48 ≤ ch ∧ ch ≤ 57 then some (ch.toNat - 48)
  else if 65 ≤ ch ∧ ch ≤ 70 then some (ch.toNat - 55)
  else if 97 ≤ ch ∧ ch ≤ 102 then some (ch.toNat - 87)
  else none

def hexNumber (s : List UInt8) : Nat := Numeral.value 16 0 (s.map fun x => (hexValue x).getD 0)

/-- The number that `read_hex` makes of them: a letter counts from 0 on. -/
def hexMisread (s : List UInt8) : Nat := Numeral.value 16 0 (s.map fun x => (hexDigit x).getD 0)

theorem hexDigit_isSome (ch : UInt8) : (hexDigit ch).isSome = (hexValue ch).isSome := by
  unfold hexDigit hexValue
  split
  · rfl
  · split
    · rfl
    · split
      · rfl
      · rfl

theorem hexDigit_decimal {ch : UInt8} (h : (decDigit ch).isSome) : hexDigit ch = hexValue ch := by
  have hrange : 48 ≤ ch ∧ ch ≤ 57 := by
    by_contra hno
    rw [decDigit, if_neg hno] at h
    cases h
  rw [hexDigit, hexValue, if_pos hrange, if_pos hrange]

theorem hexDigit_letter {ch : UInt8} (h : (hexValue ch).isSome) (hdec : ¬ (decDigit ch).isSome) :
    (hexDigit ch).getD 0 < (hexValue ch).getD 0 := by
  have hrange : ¬ (48 ≤ ch ∧ ch ≤ 57) := by
    intro hin
    rw [decDigit, if_pos hin] at hdec
    exact hdec rfl
  rw [hexValue, if_neg hrange] at h
  rw [hexDigit, hexValue, if_neg hrange, if_neg hrange]
  split
  · next hupper =>
    have hle : 65 ≤ ch.toNat := UInt8.le_iff_toNat_le.mp hupper.1
    rw [Option.getD_some, Option.getD_some]
    omega
  · next hupper =>
    rw [if_neg hupper] at h
    split
    · next hlower =>
      have hle : 97 ≤ ch.toNat := UInt8.le_iff_toNat_le.mp hlower.1
      rw [Option.getD_some, Option.getD_some]
      omega
    · next hlower =>
      rw [if_neg hlower] at h
      cases h

theorem hexDigit_le {ch : UInt8} (h : (hexValue ch).isSome) : (hexDigit ch).getD 0 ≤ (hexValue ch).getD 0 := by
  by_cases hdec : (decDigit ch).isSome
  · rw [hexDigit_decimal hdec]
  · exact (hexDigit_letter h hdec).le

theorem readHex_run (hs : ∀ x ∈ s, (hexValue x).isSome) (hch : hexValue ch = none) (hw : w ≤ 32)
    (h : c.parsePos = s ++ ch :: rest) : ReadsNumeral (readHex w info) w (hexMisread s) info c (ch :: rest) := by
  refine readNumber_run (fun x hx => ?_) (by decide) ?_ hw h
  · have hx := hs x hx
    rw [← hexDigit_isSome] at hx
    exact (Option.some_get hx).symm.trans (congrArg some (Option.get_eq_getD _))
  · rw [← Option.not_isSome_iff_eq_none, hexDigit_isSome, hch]
    exact Bool.false_ne_true

theorem hexMisread_le (hs : ∀ x ∈ s, (hexValue x).isSome) : hexMisread s ≤ hexNumber s :=
  Numeral.value_le le_rfl fun x hx => hexDigit_le (hs x hx)

theorem hexMisread_eq_iff (hs : ∀ x ∈ s, (hexValue x).isSome) :
    hexMisread s = hexNumber s ↔ ∀ x ∈ s, (decDigit x).isSome := by
  constructor
  · intro heq x hx
    by_contra hdec
    have hless : hexMisread s < hexNumber s :=
      Numeral.value_lt (by decide) (fun y hy => hexDigit_le (hs y hy)) ⟨x, hx, hexDigit_letter (hs x hx) hdec⟩
    omega
  · intro hall
    exact congrArg (Numeral.value 16 0) (List.map_congr_left fun x hx => by rw [hexDigit_decimal (hall x hx)])

/-- Digits are read exactly if there are no letters among them, or if they exceed the width even
as they are misread. -/
theorem readHex_exact_iff (hs : ∀ x ∈ s, (hexValue x).isSome) (hch : hexValue ch = none) (hw : w ≤ 32)
    (h : c.parsePos = s ++ ch :: rest) :
    ReadsNumeral (readHex w info) w (hexNumber s) info c (ch :: rest) ↔
      (∀ x ∈ s, (decDigit x).isSome) ∨ 2^w ≤ hexMisread s := by
  have hread : ReadsNumeral (readHex w info) w (hexMisread s) info c (ch :: rest) := readHex_run hs hch hw h
  have hle := hexMisread_le hs
  rw [← hexMisread_eq_iff hs]
  constructor
  · intro hexact
    by_contra hno
    obtain ⟨hne, hfit⟩ := not_or.mp hno
    unfold ReadsNumeral at hread hexact
    rw [if_pos (not_le.mp hfit)] at hread
    rw [hread] at hexact
    split at hexact
    · injection hexact with heq _
      exact hne heq
    · obtain ⟨message, c', herr⟩ := hexact
      cases herr
  · rintro (heq | hlarge)
    · rwa [heq] at hread
    · unfold ReadsNumeral at hread ⊢
      rw [if_neg (not_lt.mpr hlarge)] at hread
      rwa [if_neg (not_lt.mpr (hlarge.trans hle))]

theorem hexValue_char : ∀ d < 16, hexValue (Numeral.char d) = some d := by decide

theorem decDigit_char_iff : ∀ d < 16, ((decDigit (Numeral.char d)).isSome ↔ d < 10) := by decide

section HexText
variable {n : Nat}

theorem hexText_value {x : UInt8} (h : x ∈ Numeral.text 16 8 n) : (hexValue x).isSome := by
  obtain ⟨d, hd, rfl⟩ := List.mem_map.mp h
  rw [hexValue_char d (Numeral.digits_lt (by decide) hd)]
  rfl

theorem hexText_number (h : n < 2^32) : hexNumber (Numeral.text 16 8 n) = n := by
  have hdigits : (Numeral.text 16 8 n).map (fun x => (hexValue x).getD 0) = Numeral.digits 16 8 n := by
    rw [Numeral.text, List.map_map]
    refine (List.map_congr_left fun d hd => ?_).trans (List.map_id _)
    show (hexValue (Numeral.char d)).getD 0 = d
    rw [hexValue_char d (Numeral.digits_lt (by decide) hd)]
    rfl
  rw [hexNumber, hdigits]
  exact Numeral.digits_value h

theorem hexText_decimal :
    (∀ x ∈ Numeral.text 16 8 n, (decDigit x).isSome) ↔ ∀ d ∈ Numeral.digits 16 8 n, d < 10 := by
  rw [Numeral.text, List.forall_mem_map]
  exact forall₂_congr fun d hd => decDigit_char_iff d (Numeral.digits_lt (by decide) hd)

end HexText

theorem readUint_hexadecimal {depth n : Nat} (hn : n < 2^w) (hw : w ≤ 32)
    (hhex : info.hint &&& formatHintMask = formatHintHex) (hname : ¬ BlankName info.name)
    (h : c.parsePos = uintLine depth w n info ++ rest) :
    readUint w info c = .ok (hexMisread (Numeral.text 16 8 n)) { c with parsePos := 10 :: rest } := by
  have hn32 : n < 2^32 := hn.trans_le (Nat.pow_le_pow_right (by decide) hw)
  have hnumber : OcCtx.number w n info ++ 10 :: rest = 48 :: 120 :: (Numeral.text 16 8 n ++ 10 :: rest) := by
    rw [OcCtx.number, if_pos hhex]
    rfl
  have hle := hexMisread_le fun x => hexText_value (x := x) (n := n)
  rw [hexText_number hn32] at hle
  have hread : ReadsNumeral (readHex w info) w (hexMisread (Numeral.text 16 8 n)) info
      { c with parsePos := Numeral.text 16 8 n ++ 10 :: rest } (10 :: rest) :=
    readHex_run (fun x => hexText_value) rfl hw rfl
  unfold ReadsNumeral at hread
  rw [if_pos (hle.trans_lt hn)] at hread
  rw [readUint_uintLine hname h]
  exact (readNumeral_hexadecimal hnumber).trans hread

/-- A hexadecimal line is read back just if there is no letter among its digits and its name is
found; and digits in any text are read exactly just if there is no letter among them, or they
exceed the width even as they are misread. A `uint64_t` suffices. -/
theorem hexadecimal_reads_back (w : Nat) (hw : w ≤ 32) (info : Info) :
    (∀ n o, n < 2^w → info.hint &&& formatHintMask = formatHintHex →
      ∃ line, Ocx.writeUint w n info o = .ok () (o.append line) ∧ ∀ (c : IcCtx) (rest : List UInt8),
        c.parsePos = line ++ rest → ((∃ c', readUint w info c = .ok n c') ↔
          ¬ BlankName info.name ∧ ∀ d ∈ Numeral.digits 16 8 n, d < 10)) ∧
    (∀ (c : IcCtx) s ch rest, s ≠ [] → (∀ x ∈ s, (hexValue x).isSome) → hexValue ch = none →
      c.parsePos = s ++ ch :: rest → (ReadsNumeral (readHex w info) w (hexNumber s) info c (ch :: rest) ↔
        (∀ x ∈ s, (decDigit x).isSome) ∨ 2^w ≤ hexMisread s)) ∧
    readHex w info = readNumber64 16 hexZero "value %x exceeds %d bit" w info := by
  refine ⟨fun n o hn hhex => ⟨_, writeUint_line hn o, fun c rest h => ?_⟩, fun c s ch rest _ hs hch h =>
    readHex_exact_iff hs hch hw h, readHex_eq⟩
  have hn32 : n < 2^32 := hn.trans_le (Nat.pow_le_pow_right (by decide) hw)
  have heq := hexMisread_eq_iff fun x => hexText_value (x := x) (n := n)
  rw [hexText_number hn32, hexText_decimal] at heq
  by_cases hname : BlankName info.name
  · obtain ⟨c', herr⟩ := readUint_uintLine_blank (w := w) hname h
    refine iff_of_false ?_ fun hcond => hcond.1 hname
    rintro ⟨c'', hread⟩
    rw [hread] at herr
    cases herr
  · rw [readUint_hexadecimal hn hw hhex hname h, ← heq]
    constructor
    · rintro ⟨c', hread⟩
      injection hread with hval _
      exact ⟨hname, hval⟩
    · rintro ⟨-, hval⟩
      exact ⟨_, by rw [hval]⟩

theorem hexadecimal_reads_back_digits :
    (∃ line, Ocx.writeUint 8 0x42 ⟨chars "f", 1⟩ OcCtx.create = .ok () (OcCtx.create.append line) ∧
      ∀ c : IcCtx, c.parsePos = line ++ [0] → ∃ c', readUint 8 ⟨chars "f", 1⟩ c = .ok 0x42 c') ∧
    ReadsNumeral (readHex 8 ⟨[], 0⟩) 8 0x42 ⟨[], 0⟩ ⟨0, 0, [], chars "0042;"⟩ (chars ";") := by
  constructor
  · obtain ⟨line, hline, hread⟩ := (hexadecimal_reads_back 8 (by decide) ⟨chars "f", 1⟩).1 0x42 OcCtx.create (by decide) rfl
    exact ⟨line, hline, fun c h => (hread c [0] h).mpr (by decide)⟩
  · exact ((hexadecimal_reads_back 8 (by decide) ⟨[], 0⟩).2.1 ⟨0, 0, [], chars "0042;"⟩ (chars "0042") 59 [] (by decide)
      (List.all_eq_true.mp rfl) (by decide) (by decide)).mpr (Or.inl (List.all_eq_true.mp rfl))

/-- The number 10 is printed as a letter, and 0 is read; the digits ff are read as 55. -/
theorem hexadecimal_letters_lost :
    (Ocx.writeUint 8 10 ⟨chars "f", 1⟩ OcCtx.create = .ok () (OcCtx.create.append (chars "f:0xa\n")) ∧
      readUint 8 ⟨chars "f", 1⟩ ⟨0, 0, [], chars "f:0xa\n" ++ [0]⟩ = .ok 0 ⟨0, 0, [], chars "\n" ++ [0]⟩) ∧
    (hexNumber (chars "ff") = 0xff ∧
      readHex 8 ⟨[], 0⟩ ⟨0, 0, [], chars "ff;"⟩ = .ok 0x55 ⟨0, 0, [], chars ";"⟩) := by
  have hline : uintLine 0 8 10 ⟨chars "f", 1⟩ = chars "f:0xa\n" := by decide
  refine ⟨⟨?_, ?_⟩, by decide, ?_⟩
  · rw [← hline]
    exact writeUint_line (by decide) OcCtx.create
  · have htext : (⟨0, 0, [], chars "f:0xa\n" ++ [0]⟩ : IcCtx).parsePos = uintLine 0 8 10 ⟨chars "f", 1⟩ ++ [0] :=
      congrArg (· ++ [0]) hline.symm
    exact (readUint_hexadecimal (by decide) (by decide) rfl (by decide) htext).trans rfl
  · have hread : ReadsNumeral (readHex 8 ⟨[], 0⟩) 8 0x55 ⟨[], 0⟩ ⟨0, 0, [], chars "ff;"⟩ (chars ";") :=
      readHex_run (s := chars "ff") (List.all_eq_true.mp rfl) (by decide) (by decide) rfl
    exact hread

end Icx

end Mopa.Io
