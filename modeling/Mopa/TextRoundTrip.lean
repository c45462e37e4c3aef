import Mathlib.Algebra.Order.BigOperators.Group.List
import Mopa.FormatBinary
import Mopa.TextScan

/-! Text parsing undoes text construction: it gives back the fields, strings and lists of
every format whose numbers are decimal and not negative. -/
namespace Mopa.Io
open Outcome IcCtx OcCtx

structure Info.Plain (info : Info) : Prop where
  name : Identifier info.name
  hint : info.hint &&& formatHintMask = 0

theorem Info.Plain.readable {info : Info} (h : info.Plain) {n : Nat} (hn : n < 2^31) : Readable n info := by
  unfold Readable
  rw [h.hint, if_neg (by decide)]
  exact ⟨by decide, hn⟩

namespace Format

def contents : (f : Format) → f.Value → f.Value
  | empty, v => v
  | uint .., v => v
  | required .., v => v
  | shortString _, v => v
  | fixedString .., v => v
  | select _ _ cases, v => ⟨v.1, (cases v.1).contents v.2⟩
  | block _ _ _ body, v => (0, body.contents v.2)
  | listBlock _ _ _ body item, v => (0, body.contents v.2.1, v.2.2.map item.contents)
  | seq f g, v => (f.contents v.1, g.contents v.2)

theorem items_map {α : Type} {e : α → Encoder α} {g : α → α} {list : List α} (h : ∀ a ∈ list, e (g a) = e a) :
    Encoder.items e (list.map g) = Encoder.items e list := by
  induction list with
  | nil => rfl
  | cons a list ih =>
    rw [List.map_cons, Encoder.items, Encoder.items, h a List.mem_cons_self, ih fun b hb => h b (List.mem_cons_of_mem a hb)]

/-- The lengths of the blocks of a value have no part in its encoding. -/
theorem encode_contents (span : Nat) {f : Format} (v : f.Value) : f.encode span (f.contents v) = f.encode span v := by
  induction f with
  | empty => rfl
  | uint var w info => rfl
  | required var w val info => rfl
  | shortString info => rfl
  | fixedString numChars info => rfl
  | select w info cases ih =>
    show (encodeUint span .uint8 w v.1 >>= fun _ => (cases v.1).encode span ((cases v.1).contents v.2) >>= _) = _
    rw [ih v.1 v.2]
    rfl
  | block b info endInfo body ih =>
    show Encoder.block b (body.encode span (body.contents v.2)) = _
    rw [ih v.2]
    rfl
  | listBlock b info endInfo body item ihb ihi =>
    show Encoder.block b (body.encode span (body.contents v.2.1) >>= fun head =>
      Encoder.items (item.encode span) (v.2.2.map item.contents) >>= fun list => pure (head, list)) = _
    rw [ihb v.2.1, items_map fun x _ => ihi x]
    rfl
  | seq f g ihf ihg =>
    show (f.encode span (f.contents v.1) >>= fun a => g.encode span (g.contents v.2) >>= fun b => pure (a, b)) = _
    rw [ihf v.1, ihg v.2]
    rfl

/-- What is said of the names and hints of fields and strings, and of blocks. -/
def Infos (field block : Info → Prop) : Format → Prop
  | empty => True
  | uint _ _ info => field info
  | required _ _ _ info => field info
  | shortString info => field info
  | fixedString _ info => field info
  | select _ info cases => field info ∧ ∀ n, (cases n).Infos field block
  | Format.block _ info _ body => block info ∧ body.Infos field block
  | listBlock _ info _ body item => block info ∧ body.Infos field block ∧ item.Infos field block
  | seq f g => f.Infos field block ∧ g.Infos field block

def Fields (ok : Nat → Info → Prop) : (f : Format) → f.Value → Prop
  | empty, _ => True
  | uint _ _ info, val => ok (Variable.toNat val) info
  | required _ _ val info, _ => ok (Variable.toNat val) info
  | shortString _, _ => True
  | fixedString .., _ => True
  | select _ info cases, v => ok v.1.toNat info ∧ (cases v.1).Fields ok v.2
  | block _ _ _ body, v => body.Fields ok v.2
  | listBlock _ _ _ body item, v => body.Fields ok v.2.1 ∧ ∀ x ∈ v.2.2, item.Fields ok x
  | seq f g, v => f.Fields ok v.1 ∧ g.Fields ok v.2

abbrev Called (f : Format) : Prop := f.Infos (fun info => Identifier info.name) Info.Plain

theorem called_of_plain {f : Format} (h : f.Infos Info.Plain Info.Plain) : f.Called := by
  induction f with
  | empty => trivial
  | uint var w info => exact h.name
  | required var w val info => exact h.name
  | shortString info => exact h.name
  | fixedString numChars info => exact h.name
  | select w info cases ih => exact ⟨h.1.name, fun n => ih n (h.2 n)⟩
  | block b info endInfo body ih => exact ⟨h.1, ih h.2⟩
  | listBlock b info endInfo body item ihb ihi => exact ⟨h.1, ihb h.2.1, ihi h.2.2⟩
  | seq f g ihf ihg => exact ⟨ihf h.1, ihg h.2⟩

theorem readable_of_plain {f : Format} (h : f.Infos Info.Plain Info.Plain) {v : f.Value}
    (hv : f.Fields (fun n _ => n < 2^31) v) : f.Fields Readable v := by
  induction f with
  | empty => trivial
  | uint var w info => exact Info.Plain.readable h hv
  | required var w val info => exact Info.Plain.readable h hv
  | shortString info => trivial
  | fixedString numChars info => trivial
  | select w info cases ih => exact ⟨h.1.readable hv.1, ih v.1 (h.2 v.1) hv.2⟩
  | block b info endInfo body ih => exact ih h.2 hv
  | listBlock b info endInfo body item ihb ihi => exact ⟨ihb h.2.1 hv.1, fun x hx => ihi h.2.2 (hv.2 x hx)⟩
  | seq f g ihf ihg => exact ⟨ihf h.1 hv.1, ihg h.2 hv.2⟩

theorem uintLine_begins {depth w n : Nat} {info : Info} (hname : Identifier info.name) :
    ∃ ch, isLetter ch ∧ ∀ rest, Begins ch (uintLine depth w n info ++ rest) := by
  obtain ⟨ch, req, hinfo, hletter⟩ := hname.begins
  refine ⟨ch, hletter, fun rest => ?_⟩
  unfold uintLine
  simp only [List.append_assoc, Begins, skipBlanks_indent, hinfo]
  exact ⟨_, skipBlanks_cons (letter_not_blank hletter) _⟩

theorem stringLine_begins {depth : Nat} {str : List UInt8} {info : Info} (hname : Identifier info.name) :
    ∃ ch, isLetter ch ∧ ∀ rest, Begins ch (stringLine depth str info ++ rest) := by
  obtain ⟨ch, req, hinfo, hletter⟩ := hname.begins
  refine ⟨ch, hletter, fun rest => ?_⟩
  unfold stringLine
  simp only [List.append_assoc, Begins, skipBlanks_indent, hinfo]
  exact ⟨_, skipBlanks_cons (letter_not_blank hletter) _⟩

theorem begins_append {text : List UInt8} (h : ∃ ch, isLetter ch ∧ ∀ rest, Begins ch (text ++ rest)) (text' : List UInt8) :
    ∃ ch, isLetter ch ∧ ∀ rest, Begins ch (text ++ text' ++ rest) := by
  obtain ⟨ch, hletter, h⟩ := h
  exact ⟨ch, hletter, fun rest => by rw [List.append_assoc]; exact h _⟩

theorem text_begins {f : Format} (hn : f.Called) (v : f.Value) (depth : Nat) :
    (f.text v depth = [] ∧ f.size v = 0) ∨ ∃ ch, isLetter ch ∧ ∀ rest, Begins ch (f.text v depth ++ rest) := by
  induction f with
  | empty => exact .inl ⟨rfl, rfl⟩
  | uint var w info => exact .inr (uintLine_begins hn)
  | required var w val info => exact .inr (uintLine_begins hn)
  | shortString info => exact .inr (stringLine_begins hn)
  | fixedString numChars info => exact .inr (stringLine_begins hn)
  | select w info cases ih => exact .inr (begins_append (uintLine_begins hn.1) _)
  | block b info endInfo body ih => exact .inr (begins_append (uintLine_begins hn.1.name) _)
  | listBlock b info endInfo body item ihb ihi => exact .inr (begins_append (uintLine_begins hn.1.name) _)
  | seq f g ihf ihg =>
    rcases ihf hn.1 v.1 with ⟨htext, hsize⟩ | hf
    · rcases ihg hn.2 v.2 with ⟨htext', hsize'⟩ | hg
      · refine .inl ⟨?_, ?_⟩
        · show f.text v.1 depth ++ g.text v.2 depth = []
          rw [htext, htext']
          rfl
        · show f.size v.1 + g.size v.2 = 0
          rw [hsize, hsize']
      · right
        show ∃ ch, isLetter ch ∧ ∀ rest, Begins ch (f.text v.1 depth ++ g.text v.2 depth ++ rest)
        rwa [htext, List.nil_append]
    · exact .inr (begins_append hf _)

theorem length_lt {b n : Nat} (hb : b ≤ 16) (hn : n < 2^b) : n < 2^31 :=
  hn.trans_le (Nat.pow_le_pow_right (by decide) (hb.trans (by decide)))

/-- Parsing in text mode reads a text back, whatever it is read into. -/
theorem scans (values : (f : Format) → f.Value) {fuel : Nat} {f : Format} (hf : f.Wf)
    (hn : f.Called) {v v' : f.Value} (hr : f.Fields Readable v) {p : Nat} {bits : List Bool}
    (he : f.encode 40 v p = some (v', bits)) (hfuel : bits.length < fuel) (depth : Nat) (rest : List UInt8) (into : f.Value) :
    Scans (f.io values fuel (m := .parseText) into) (f.contents · = f.contents v) p bits.length (f.text v depth) rest := by
  induction f generalizing p bits depth rest with
  | empty =>
    cases he
    exact .pure rfl
  | uint var w info =>
    obtain ⟨-, ⟨hv, -⟩, rfl⟩ := encodeUint_eq_some.mp he
    rw [Bits.length_ofNat]
    exact .uint hf.2 hv hn hr
  | required var w val info =>
    obtain ⟨val', as, bs, h1, hpure, rfl⟩ := Encoder.bind_eq_some.mp he
    obtain ⟨-, rfl⟩ := Encoder.pure_eq_some.mp hpure
    obtain ⟨-, ⟨hv, -⟩, rfl⟩ := encodeUint_eq_some.mp h1
    rw [List.append_nil, Bits.length_ofNat]
    have hfield : Scans (Iox.uint (m := .parseText) var w val info) (· = val) p w
        (uintLine depth w (Variable.toNat val) info) rest :=
      Scans.uint hf.2.1 hv hn hr
    refine hfield.bind_pure fun a ha => ⟨(), ?_, rfl⟩
    exact if_neg fun h => h.2 ha
  | shortString info =>
    obtain ⟨-, ⟨hp, hlen⟩, rfl⟩ := encodeShortString_eq_some.mp he
    rw [List.length_append, Bits.length_ofNat, Bits.length_ofBytes]
    exact .shortString hn hp
  | fixedString numChars info =>
    obtain ⟨-, ⟨hp, hlen⟩, rfl⟩ := encodeFixedString_eq_some.mp he
    rw [Bits.length_ofBytes]
    exact .fixedString hn hp
  | select w info cases ih =>
    obtain ⟨n, as, _, h1, hrest, rfl⟩ := Encoder.bind_eq_some.mp he
    obtain ⟨a, bs, _, h2, hpure, rfl⟩ := Encoder.bind_eq_some.mp hrest
    obtain ⟨rfl, rfl⟩ := Encoder.pure_eq_some.mp hpure
    obtain ⟨-, ⟨hv, -⟩, rfl⟩ := encodeUint_eq_some.mp h1
    rw [List.append_nil] at *
    rw [List.length_append, Bits.length_ofNat] at *
    have h8 : Scans (Iox.uint (m := .parseText) .uint8 w into.1 info) (· = v.1) p w
      (uintLine depth w v.1.toNat info) ((cases v.1).text v.2 depth ++ rest) := .uint hf.1.2 hv hn.1 hr.1
    refine h8.bind fun n hn' => ?_
    subst hn'
    exact (ih v.1 (hf.2 v.1) (hn.2 v.1) hr.2 h2 (by omega) depth rest _).bind_pure fun a ha =>
      ⟨⟨v.1, a⟩, rfl, congrArg (Sigma.mk v.1) ha⟩
  | block b info endInfo body ih =>
    obtain ⟨n, a⟩ := v'
    obtain ⟨hp, as, h1, hlen, hnb, rfl⟩ := Encoder.block_eq_some.mp he
    rw [List.length_append, Bits.length_ofNat] at *
    have hsize := (encode_eq_some h1).2
    have hbody := ih hf.2 hn.2 hr h1 (by omega) (depth + 1) (indent depth ++ (chars "\x7d\n" ++ rest)) into.2
    rw [hlen] at hbody ⊢
    have hn8 : body.size v.2 / 8 = n := by omega
    have hlength := hn.1.readable (length_lt hf.1.2 hnb)
    have hblock : Scans (Iox.namedBlock (m := .parseText) b info endInfo _) _ p _ _ rest :=
      .block hn.1.name hlength hf.1.2 hnb hp hbody
    show Scans _ _ _ _ (blockText depth (body.size v.2 / 8) info (body.text v.2 (depth + 1))) rest
    rw [hn8]
    exact hblock.mono fun r hr => congrArg (Prod.mk 0) hr
  | listBlock b info endInfo body item ihb ihi =>
    obtain ⟨hb, hwb, hwi, hsome⟩ := hf
    obtain ⟨n, a⟩ := v'
    obtain ⟨hp, bits, h1, hlen, hnb, rfl⟩ := Encoder.block_eq_some.mp he
    obtain ⟨head, as, _, h2, htail, rfl⟩ := Encoder.bind_eq_some.mp h1
    obtain ⟨list, bs, _, h3, hpure, rfl⟩ := Encoder.bind_eq_some.mp htail
    obtain ⟨rfl, rfl⟩ := Encoder.pure_eq_some.mp hpure
    simp only [List.append_nil, List.length_append, Bits.length_ofNat] at hfuel hlen ⊢
    have hsize := (encode_eq_some h2).2
    have hsizes : bs.length = (v.2.2.map item.size).sum :=
      (items_eq_some (fun x _ p a' bits hx => encode_eq_some hx) h3).2
    have hn8 : (body.size v.2.1 + (v.2.2.map item.size).sum) / 8 = n := by omega
    have hend : Begins 125 (indent depth ++ (chars "\x7d\n" ++ rest)) := ⟨10 :: rest, skipBlanks_indent depth _⟩
    have hlist : Scans (Iox.vectorIo (m := .parseText) fuel (values item) (item.io values fuel) into.2.2)
        (fun l => l.map item.contents = v.2.2.map item.contents) (p + b + as.length) bs.length
        (v.2.2.flatMap (item.text · (depth + 1))) (indent depth ++ (chars "\x7d\n" ++ rest)) := by
      refine Scans.items (fun x hx q a' cs hx' => ?_) h3 hend (by omega) []
      have hcs := (encode_eq_some hx').2
      have hsome := hsome x
      have hle : item.size x ≤ (v.2.2.map item.size).sum := List.le_sum_of_mem (List.mem_map_of_mem hx)
      rcases text_begins hn.2.2 x (depth + 1) with ⟨-, hzero⟩ | hbegins
      · omega
      · exact ⟨by omega, hbegins, fun rest => ihi hwi hn.2.2 (hr.2 x hx) hx' (by omega) (depth + 1) rest _⟩
    have hbody := (ihb hwb hn.2.1 hr.1 h2 (by omega) (depth + 1) _ into.2.1).pair hlist
    rw [hlen] at hbody ⊢
    have hlength := hn.1.readable (length_lt hb.2 hnb)
    have hblock : Scans (Iox.namedBlock (m := .parseText) b info endInfo _) _ p _ _ rest :=
      .block hn.1.name hlength hb.2 hnb hp hbody
    show Scans _ _ _ _ (blockText depth ((body.size v.2.1 + (v.2.2.map item.size).sum) / 8) info _) rest
    rw [hn8]
    exact hblock.mono fun r hr => congrArg (Prod.mk 0) (congrArg₂ Prod.mk hr.1 hr.2)
  | seq f g ihf ihg =>
    obtain ⟨a, as, _, h1, hrest, rfl⟩ := Encoder.bind_eq_some.mp he
    obtain ⟨b, bs, _, h2, hpure, rfl⟩ := Encoder.bind_eq_some.mp hrest
    obtain ⟨rfl, rfl⟩ := Encoder.pure_eq_some.mp hpure
    rw [List.append_nil] at *
    rw [List.length_append] at *
    have hpair := (ihf hf.1 hn.1 hr.1 h1 (by omega) depth _ into.1).pair
      (ihg hf.2 hn.2 hr.2 h2 (by omega) depth rest into.2)
    exact hpair.mono fun r hr => congrArg₂ Prod.mk hr.1 hr.2

/-- Where construction in text mode does not throw and each block begins within the first 4 GiB
of the text, parsing in text mode does not throw either, and gives back the fields, strings and
lists. -/
theorem parse_text_constructed {f : Format} (hf : f.Wf) (hn : f.Infos Info.Plain Info.Plain)
    (values values' : (f : Format) → f.Value) {fuel fuel' : Nat} (hfuel : 8 * 1000000 < fuel') {v v' : f.Value} (hv : f.Fits v)
    (hdecimal : f.Fields (fun n _ => n < 2^31) v) (hb : f.Bounded v) (hsize : f.size v ≤ 8 * 1000000)
    (hseat : f.Seated v 0 0) {c : OcCtx}
    (h : f.io values fuel (m := .constructText) v OcCtx.create = .ok v' c) (into : f.Value) :
    ∃ a d, f.io values' fuel' (m := .parseText) into (IcCtx.create c.prod) = .ok a d ∧ f.contents a = f.contents v := by
  have hroom : OcCtx.create.bitpos + f.size v < 2^32 := by
    show 0 + f.size v < 2^32
    omega
  obtain ⟨⟨bits, he, hbits⟩, rfl⟩ := prints values fuel hf hv hb _ _ _ hroom hseat h
  have hshort : bits.length < fuel' := by omega
  have hscans := scans values' hf (called_of_plain hn) (readable_of_plain hn hdecimal) he hshort 0 [0] into
  rw [hbits] at hscans
  obtain ⟨a, d, hio, ha, -⟩ := hscans (IcCtx.create (f.text v 0)) rfl rfl
    (show 0 + f.size v ≤ 8 * 1000000 by omega) (show 8 * 1000000 < 2^32 by decide)
  exact ⟨a, d, hio, ha⟩

theorem sample_plain : sample.Infos Info.Plain Info.Plain := by
  have hplain (name : List UInt8) (h : Identifier name) : Info.Plain ⟨name, 0⟩ := ⟨h, Nat.zero_and _⟩
  exact ⟨hplain _ (by decide), hplain _ (by decide), hplain _ (by decide), hplain _ (by decide), hplain _ (by decide)⟩

theorem parse_text_constructed_sample : ∃ c a d,
    sample.io zero 0 (m := .constructText) sampleValue OcCtx.create = .ok (sample.close sampleValue) c ∧
    sample.io zero (8 * 1000000 + 1) (m := .parseText) (zero sample) (IcCtx.create c.prod) = .ok a d ∧
    sample.contents a = sample.contents sampleValue := by
  obtain ⟨c, hc⟩ : ∃ c, sample.io zero 0 (m := .constructText) sampleValue OcCtx.create =
    .ok (sample.close sampleValue) c := ⟨_, rfl⟩
  have hsize : sample.size sampleValue = 72 := rfl
  have hdecimal : sample.Fields (fun n _ => n < 2^31) sampleValue :=
    ⟨show 5 < 2^31 by decide, show 17 < 2^31 by decide, show 70000 < 2^31 by decide, fun _ _ => trivial⟩
  have hbounded : sample.Bounded sampleValue := by
    refine ⟨trivial, trivial, ?_, trivial, fun _ _ => trivial⟩
    decide
  obtain ⟨a, d, hio, ha⟩ := parse_text_constructed sample_wf sample_plain zero zero (Nat.lt_succ_self _)
    (show sample.Fits sampleValue by decide) hdecimal hbounded (by omega)
    (seated_of_short (by decide +kernel)) hc (zero sample)
  exact ⟨c, a, d, hc, hio, ha⟩

def fieldAndBlock (name : List UInt8) : Format :=
  .seq (.uint .uint8 8 ⟨name, 0⟩) (.block 8 ⟨chars "b", 0⟩ ⟨chars "b", 0⟩ .empty)

def fieldAndBlockZero (name : List UInt8) : (fieldAndBlock name).Value := ((0 : UInt8), 0, ())

theorem fieldAndBlock_construct {name : List UInt8} (hname : u32 (name.length + 3) = 0)
    (values : (f : Format) → f.Value) (fuel : Nat) : ∃ c rest,
      (fieldAndBlock name).io values fuel (m := .constructText) (fieldAndBlockZero name) OcCtx.create =
        .ok (fieldAndBlockZero name) c ∧ c.prod = 98 :: rest := by
  have hprint : Ocx.uint 8 0 ⟨name, 0⟩ OcCtx.create = .ok () ⟨8, 8 * 1000000, [], uintLine 0 8 0 ⟨name, 0⟩⟩ := by
    rw [ocx_uint_apply, if_neg (by decide), if_neg (by decide)]
    rfl
  have hfield : Iox.uint (m := .constructText) .uint8 8 (0 : UInt8) ⟨name, 0⟩ OcCtx.create =
      .ok (0 : UInt8) ⟨8, 8 * 1000000, [], uintLine 0 8 0 ⟨name, 0⟩⟩ := (bind_ok hprint).trans rfl
  have hoffset : u32 (uintLine 0 8 0 ⟨name, 0⟩).length = 0 := by
    have hnumber : OcCtx.number 8 0 ⟨name, 0⟩ = chars "0" := (by decide : OcCtx.number 8 0 ⟨[], 0⟩ = chars "0")
    have hlen : (uintLine 0 8 0 ⟨name, 0⟩).length = name.length + 3 := by
      rw [uintLine, hnumber]
      simp only [List.length_append]
      show 0 + name.length + 1 + 1 + 1 = name.length + 3
      omega
    rw [hlen, hname]
  have hbegin := @ocx_namedBlockBegin_apply ⟨8, 8 * 1000000, [], uintLine 0 8 0 ⟨name, 0⟩⟩ ⟨chars "b", 0⟩ 8
  rw [if_neg (show ¬ u32 (8 + 8) % 8 ≠ 0 by decide), hoffset] at hbegin
  have hend := @ocx_namedBlockEnd_apply ⟨16, innerLimit (8 * 1000000) 16 8,
    [⟨⟨chars "b", 0⟩, 16, 8 * 1000000, 0⟩], uintLine 0 8 0 ⟨name, 0⟩ ++ chars "\x7b\n"⟩ ⟨chars "b", 0⟩ _ _ rfl
  rw [if_neg (show ¬ sub32 16 16 % 8 ≠ 0 by decide)] at hend
  dsimp only at hend
  rw [show sub32 16 16 / 8 = 0 by decide] at hend
  have hblock : Iox.namedBlock (m := .constructText) 8 ⟨chars "b", 0⟩ ⟨chars "b", 0⟩ (pure ())
      ⟨8, 8 * 1000000, [], uintLine 0 8 0 ⟨name, 0⟩⟩ = .ok (0, ()) _ :=
    (bind_ok hbegin).trans ((bind_ok rfl).trans ((bind_ok hend).trans rfl))
  exact ⟨_, _, (bind_ok hfield).trans ((bind_ok hblock).trans rfl), rfl⟩

theorem fieldAndBlock_parse {name rest : List UInt8} (values : (f : Format) → f.Value) (fuel : Nat)
    (into : (fieldAndBlock (97 :: name)).Value) :
    ∃ t d, (fieldAndBlock (97 :: name)).io values fuel (m := .parseText) into (IcCtx.create (98 :: rest)) = .error t d := by
  have hmissing : Icx.readUint 8 ⟨97 :: name, 0⟩ (IcCtx.create (98 :: rest)) = .error _ _ :=
    @Icx.readUint_missing _ (rest ++ [0]) _ _ _ _ _ rfl rfl (by decide)
  exact ⟨_, _, bind_error (bind_error (bind_error hmissing))⟩

/-- A name of so many letters that the text in front of the block has 2^32 characters. -/
theorem parse_text_constructed_wrapped :
    ¬ ∀ (f : Format), f.Wf → f.Infos Info.Plain Info.Plain → ∀ (values values' : (f : Format) → f.Value) (fuel fuel' : Nat),
      8 * 1000000 < fuel' → ∀ v v' : f.Value, f.Fits v → f.Fields (fun n _ => n < 2^31) v → f.Bounded v →
        f.size v ≤ 8 * 1000000 → ∀ c, f.io values fuel (m := .constructText) v OcCtx.create = .ok v' c →
          ∀ into : f.Value, ∃ a d, f.io values' fuel' (m := .parseText) into (IcCtx.create c.prod) = .ok a d ∧
            f.contents a = f.contents v := by
  intro h
  obtain ⟨name, hlen, hall⟩ : ∃ name : List UInt8, name.length = 2^32 - 4 ∧ ∀ ch ∈ name, ch = 97 :=
    ⟨List.replicate (2^32 - 4) 97, List.length_replicate, fun _ hch => List.eq_of_mem_replicate hch⟩
  have hplain : Info.Plain ⟨97 :: name, 0⟩ := by
    refine ⟨⟨by decide, fun ch hch => ?_⟩, Nat.zero_and _⟩
    rw [hall ch hch]
    exact .inl (by decide)
  obtain ⟨c, rest, hconstruct, hprod⟩ := @fieldAndBlock_construct (97 :: name)
    (by rw [List.length_cons, hlen]; decide) zero 0
  obtain ⟨a, d, hparse, -⟩ := h (fieldAndBlock (97 :: name)) ⟨⟨by decide, by decide⟩, ⟨by decide, by decide⟩, trivial⟩
    ⟨hplain, ⟨by decide, Nat.zero_and _⟩, trivial⟩ zero zero 0 _ (Nat.lt_succ_self _) (fieldAndBlockZero (97 :: name)) _
    ⟨show 0 < 2^8 by decide, trivial⟩ ⟨show 0 < 2^31 by decide, trivial⟩ ⟨trivial, show 0 ≤ 8 * (2^8 - 1) by decide, trivial⟩
    (show 8 + (8 + 0) ≤ 8 * 1000000 by decide) c hconstruct (fieldAndBlockZero (97 :: name))
  obtain ⟨t, e, herror⟩ := @fieldAndBlock_parse name rest zero (8 * 1000000).succ
    (fieldAndBlockZero (97 :: name))
  rw [hprod] at hparse
  cases hparse.symm.trans herror

end Format

end Mopa.Io
