import Mopa.ParsingProgress

/-! What text parsing uses up: the text, of which it reads nothing behind the terminating 0. -/
namespace Mopa.Io
open Outcome Progress IcCtx

def Terminated (text : List UInt8) : Prop := text.getLast? = some 0

theorem terminated_append (text : List UInt8) : Terminated (text ++ [0]) := List.getLast?_concat

theorem Terminated.ne_nil {text : List UInt8} (h : Terminated text) : text ≠ [] := by
  rintro rfl
  cases h

theorem Terminated.suffix {text rest : List UInt8} (h : Terminated text) (hs : rest <:+ text) (hne : rest ≠ []) :
    Terminated rest := by
  obtain ⟨front, rfl⟩ := hs
  unfold Terminated at h
  rw [List.getLast?_append, List.getLast?_eq_some_getLast hne] at h
  exact (List.getLast?_eq_some_getLast hne).trans h

theorem Terminated.tail {ch : UInt8} {text : List UInt8} (h : Terminated (ch :: text)) (hch : ch ≠ 0) : Terminated text := by
  refine h.suffix (List.suffix_cons _ _) ?_
  rintro rfl
  exact hch (Option.some.inj h)

theorem skipBlanks_terminated {text : List UInt8} (h : Terminated text) :
    Terminated (skipBlanks text) ∧ skipBlanks text <:+ text := by
  obtain ⟨blanks, hblanks, htext⟩ := skipBlanks_spec text
  have hs : skipBlanks text <:+ text := ⟨blanks, htext.symm⟩
  refine ⟨h.suffix hs fun hnil => ?_, hs⟩
  rw [hnil, List.append_nil] at htext
  rw [htext] at h
  exact absurd (hblanks 0 (List.mem_of_getLast? h)) (by simp [Syntax.IsBlank])

theorem follow_terminated {req text : List UInt8} (h : Terminated text) (hreq : 0 ∉ req) :
    ∃ rest all, follow text req = some (rest, all) ∧ Terminated rest ∧ rest <:+ text ∧
      (all = true → rest.length + req.length = text.length) := by
  induction text generalizing req with
  | nil => exact absurd rfl h.ne_nil
  | cons ch text ih =>
    cases req with
    | nil => exact ⟨ch :: text, true, rfl, h, List.suffix_refl _, fun _ => rfl⟩
    | cons r req =>
      rw [follow]
      split
      · next heq =>
        have hch : ch ≠ 0 := fun h0 => hreq (heq ▸ h0 ▸ List.mem_cons_self)
        obtain ⟨rest, all, hfollow, hrest, hs, hlen⟩ := ih (h.tail hch) fun h0 => hreq (List.mem_cons_of_mem _ h0)
        exact ⟨rest, all, hfollow, hrest, hs.trans (List.suffix_cons _ _), fun hall => congrArg (· + 1) (hlen hall)⟩
      · exact ⟨ch :: text, false, rfl, h, List.suffix_refl _, fun hall => by cases hall⟩

theorem readDigits_terminated {base v : Nat} {digit : UInt8 → Option Nat} {text : List UInt8} (h : Terminated text)
    (hzero : digit 0 = none) : readDigits base digit v text ≠ .overread ∧
      (∀ n rest, readDigits base digit v text = .value n rest → Terminated rest ∧ rest <:+ text) ∧
      ∀ rest, readDigits base digit v text = .exceeds rest → Terminated rest := by
  fun_induction readDigits base digit v text with
  | case1 v text hv =>
    refine ⟨by rintro ⟨⟩, by rintro _ _ ⟨⟩, fun rest hrest => ?_⟩
    cases hrest
    exact h
  | case2 => exact absurd rfl h.ne_nil
  | case3 v hv ch text d hd ih =>
    have hch : ch ≠ 0 := by
      rintro rfl
      cases hzero.symm.trans hd
    obtain ⟨hover, hvalue, hexceeds⟩ := ih (h.tail hch)
    refine ⟨hover, fun n rest hn => ?_, hexceeds⟩
    obtain ⟨hrest, hs⟩ := hvalue n rest hn
    exact ⟨hrest, hs.trans (List.suffix_cons _ _)⟩
  | case4 v hv ch text hd =>
    refine ⟨by rintro ⟨⟩, fun n rest hn => ?_, by rintro _ ⟨⟩⟩
    cases hn
    exact ⟨h, List.suffix_refl _⟩

theorem ne_zero_of_octal {ch : UInt8} (h : ¬ (!Icx.isOctal ch) = true) : ch ≠ 0 := by
  rintro rfl
  exact h rfl

theorem unquote_terminated {s text : List UInt8} (h : Terminated text) : Icx.unquote s text ≠ .overread := by
  fun_induction Icx.unquote s text with
  | case1 => exact absurd rfl h.ne_nil
  | case3 => exact absurd rfl (h.tail (by decide)).ne_nil
  | case4 s ch text hescaped _ ih =>
    have hch : ch ≠ 0 := by
      rintro rfl
      cases hescaped
    exact ih ((h.tail (by decide)).tail hch)
  | case6 s c1 _ h1 => exact absurd rfl ((h.tail (by decide)).tail (ne_zero_of_octal h1)).ne_nil
  | case8 s c1 _ h1 c2 h2 =>
    exact absurd rfl (((h.tail (by decide)).tail (ne_zero_of_octal h1)).tail (ne_zero_of_octal h2)).ne_nil
  | case11 s c1 _ h1 c2 h2 c3 text h3 val hval _ ih =>
    exact ih ((((h.tail (by decide)).tail (ne_zero_of_octal h1)).tail (ne_zero_of_octal h2)).tail (ne_zero_of_octal h3))
  | case12 s ch text hquote hslash hplain ih =>
    have hch : ch ≠ 0 := by
      rintro rfl
      exact absurd hplain.1 (by decide)
    exact ih (h.tail hch)
  | _ => rintro ⟨⟩

/-- The text in front of the terminating zero is used up from its front. -/
def textRank : Rank Nat IcCtx where
  Valid _ c := Terminated c.parsePos
  Kept c c' := c'.parsePos <:+ c.parsePos
  left c := c.parsePos.length
  refl _ := List.suffix_refl _
  trans h h' := h'.trans h

abbrev Icx.Ends {α : Type} (k : α → Nat) (x : Icx α) : Prop :=
  ∀ bound p q, Progress.Ends textRank Halt.Thrown bound p q k x

namespace Icx
variable {info : Info} {α β : Type} {c d : IcCtx} {k : α → Nat}

theorem ends_of_ok {x : Icx α} {a : α} {q : Nat} (h : x c = .ok a d) (hd : Terminated d.parsePos)
    (hs : d.parsePos <:+ c.parsePos) (hk : d.parsePos.length + k a ≤ c.parsePos.length) :
    EndsFrom textRank Halt.Thrown q k x c := endsFrom_ok h ⟨hd, hs, hk⟩

theorem throwX_ends (message : String) : Ends k (throwX info message) := fun _ _ _ _ _ _ =>
  endsFrom_error rfl ⟨info, message, rfl⟩

theorem Ends.discard {x : Icx α} (h : Ends k x) : Ends (fun _ => 0) (discard x) := fun bound p q =>
  Progress.Ends.map (h bound p q) fun _ => Nat.zero_le _

theorem skiptotoken_ends : Ends (fun _ => 0) skiptotoken := by
  intro bound p q c hc _
  obtain ⟨hskip, hs⟩ := skipBlanks_terminated hc
  cases htext : skipBlanks c.parsePos with
  | nil => exact absurd htext hskip.ne_nil
  | cons ch rest =>
    rw [htext] at hskip hs
    refine ends_of_ok (a := decide (ch ≠ 0)) (d := { c with parsePos := ch :: rest }) ?_ hskip hs hs.length_le
    unfold skiptotoken
    rw [htext]

theorem expect_ends (req : List UInt8) (hreq : 0 ∉ req) : Ends (fun found => if found then req.length else 0) (expect req) := by
  intro bound p q
  refine (skiptotoken_ends.discard bound p p).bind fun _ c hc _ => ?_
  obtain ⟨rest, all, hfollow, hrest, hs, hlen⟩ := follow_terminated hc hreq
  refine ends_of_ok (a := all) (d := { c with parsePos := rest }) ?_ hrest hs ?_
  · simp only [hfollow]
  · have := hs.length_le
    cases all with
    | true => exact (hlen rfl).le
    | false => exact this

theorem readNumber_ends {base : Nat} {digit : UInt8 → Option Nat} {message : String} {w : Nat} (hzero : digit 0 = none) :
    Ends (fun _ => 0) (readNumber base digit message w info) := by
  intro bound p q c hc _
  obtain ⟨hover, hvalue, -⟩ := readDigits_terminated (v := 0) hc hzero
  unfold EndsFrom readNumber
  split
  · next hrun =>
    split at hrun
    · cases hrun
    · cases hrun
    · next hdigits =>
      split at hrun
      · cases hrun
      · cases hrun
        obtain ⟨hrest, hs⟩ := hvalue _ _ hdigits
        exact ⟨hrest, hs, hs.length_le⟩
  · next hrun =>
    split at hrun
    · next hdigits => exact absurd hdigits hover
    · cases hrun
      exact ⟨_, _, rfl⟩
    · split at hrun
      · cases hrun
        exact ⟨_, _, rfl⟩
      · cases hrun

theorem readNumeral_reads (w : Nat) (info : Info) (hc : Terminated c.parsePos) :
    ∃ base digit message rest, digit 0 = none ∧ Terminated rest ∧ rest <:+ c.parsePos ∧
      readNumeral w info c = readNumber base digit message w info { c with parsePos := rest } := by
  obtain ⟨hskip, hs⟩ := skipBlanks_terminated hc
  cases htext : skipBlanks c.parsePos with
  | nil => exact absurd htext hskip.ne_nil
  | cons ch text =>
    rw [htext] at hskip hs
    have hskipped : skiptotoken c = .ok (decide (ch ≠ 0)) { c with parsePos := ch :: text } := by
      unfold skiptotoken
      rw [htext]
    have htoken : discard skiptotoken c = .ok () { c with parsePos := ch :: text } := map_ok _ hskipped
    have hfirst (f : UInt8 → Icx Nat) : (charAt 0 >>= f) { c with parsePos := ch :: text } = f ch { c with parsePos := ch :: text } :=
      bind_ok rfl
    unfold readNumeral
    rw [bind_ok htoken, hfirst]
    by_cases hzero : ch = 48
    · subst hzero
      have htail := hskip.tail (by decide)
      cases text with
      | nil => exact absurd rfl htail.ne_nil
      | cons ch1 rest =>
        have hsecond (f : UInt8 → Icx Nat) : (charAt 1 >>= f) { c with parsePos := 48 :: ch1 :: rest } =
            f ch1 { c with parsePos := 48 :: ch1 :: rest } := bind_ok rfl
        have hrest : rest <:+ c.parsePos := ((List.suffix_cons ch1 rest).trans (List.suffix_cons 48 _)).trans hs
        rw [if_pos rfl, hsecond]
        by_cases hx : ch1 = 120
        · subst hx
          exact ⟨16, hexDigit, _, rest, rfl, htail.tail (by decide), hrest, rfl⟩
        · rw [if_neg hx, hsecond]
          by_cases hbin : ch1 = 98
          · subst hbin
            exact ⟨2, binDigit, _, rest, rfl, htail.tail (by decide), hrest, rfl⟩
          · rw [if_neg hbin]
            exact ⟨10, decDigit, _, _, rfl, hskip, hs, rfl⟩
    · rw [if_neg hzero]
      exact ⟨10, decDigit, _, _, rfl, hskip, hs, rfl⟩

theorem readNumeral_ends {w : Nat} : Ends (fun _ => 0) (readNumeral w info) := by
  intro bound p q c hc _
  obtain ⟨base, digit, message, rest, hzero, hrest, hs, heq⟩ := readNumeral_reads w info hc
  have hnumber : EndsFrom textRank Halt.Thrown q (fun _ => 0) (readNumber base digit message w info) { c with parsePos := rest } :=
    readNumber_ends hzero _ p q _ hrest le_rfl
  cases hrun : readNumber base digit message w info { c with parsePos := rest } with
  | ok v c' =>
    obtain ⟨hc', hs', hlen⟩ := hnumber.ok hrun
    exact ends_of_ok (heq.trans hrun) hc' (List.IsSuffix.trans hs' hs) (Nat.le_trans hlen hs.length_le)
  | error e c' => exact endsFrom_error (heq.trans hrun) (hnumber.error hrun)

theorem readUint_ends {w : Nat} (hn : info.Named) : Ends (fun _ => 1) (readUint w info) := by
  intro bound p q
  rw [readUint_eq]
  refine (expect_ends info.name hn bound p p).bind fun named => ?_
  cases named with
  | false => exact throwX_ends _ bound p q
  | true =>
    refine Progress.Ends.bind (expect_ends (chars ":") (by decide) bound p p) fun colon => ?_
    cases colon with
    | false => exact throwX_ends _ bound p q
    | true => exact Progress.Ends.mono (readNumeral_ends bound p q) fun _ => Nat.sub_le_of_le_add (by
        show 1 - _ ≤ 0 + 1
        omega)

theorem uint_ends {w : Nat} (hn : info.Named) : Ends (fun _ => 1) (uint w info) := by
  intro bound p q
  refine (readUint_ends hn bound p q).bind fun v c hc _ => ?_
  exact ends_of_ok rfl hc (List.suffix_refl _) le_rfl

theorem iox_uint_ends {w : Nat} {var : Variable} {val : var.Word} (hn : info.Named) :
    Ends (fun _ => 1) (Iox.uint (m := .parseText) var w val info) := by
  intro bound p q
  cases var with
  | uint8 => exact (uint_ends hn bound p q).bind fun v => .pure rfl
  | uint16 => exact (uint_ends hn bound p q).bind fun v => .pure rfl
  | uint32 => exact uint_ends hn bound p q

theorem parseString_ends {info : Option Info} (hn : 0 ∉ info.elim [] Info.name) : Ends (fun _ => 1) (parseString info) := by
  intro bound p q c hc hb
  by_cases hal : c.bitpos % 8 ≠ 0
  · exact endsFrom_error (if_pos hal) ⟨_, _, rfl⟩
  · refine EndsFrom.of_eq ?_ (if_neg hal)
    refine ((expect_ends (info.elim [] Info.name) hn).discard bound p p).bind (fun _ => ?_) c hc hb
    refine ((expect_ends (chars ":") (by decide)).discard bound p p).bind fun _ => ?_
    refine ((expect_ends (chars "'") (by decide)).discard bound p p).bind fun _ c hc _ => ?_
    have hover := unquote_terminated (s := []) hc
    cases hunquote : unquote [] c.parsePos with
    | overread => exact absurd hunquote hover
    | refused message rest =>
      refine endsFrom_error (e := .exception (info.getD emptyInfo) message) (t := { c with parsePos := rest }) ?_ ⟨_, _, rfl⟩
      simp only [hunquote]
      rfl
    | closed str rest =>
      obtain ⟨body, -, htext⟩ := unquote_spec hunquote
      have hs : 39 :: rest <:+ c.parsePos := ⟨body, htext.symm⟩
      refine ends_of_ok (a := str) (d := { c with parsePos := rest }) ?_
        ((Terminated.suffix hc hs (List.cons_ne_nil _ _)).tail (by decide)) ((List.suffix_cons _ _).trans hs) hs.length_le
      simp only [hunquote]

theorem skipBytes_ends {info : Option Info} (len : Nat) : Ends (fun _ => 0) (skipBytes len info) := by
  intro bound p q c hc _
  by_cases hroom : u32 (c.bitpos + len * 8) > c.bitlimit
  · exact endsFrom_error (if_pos hroom) ⟨_, _, rfl⟩
  · exact ends_of_ok (if_neg hroom) hc (List.suffix_refl _) le_rfl

theorem string_ends {info : Option Info} (hn : 0 ∉ info.elim [] Info.name) (size : List UInt8 → Nat) : Ends (fun _ => 1) (do
    let str ← parseString info
    skipBytes (size str) info
    return str) := fun bound p q =>
  (parseString_ends hn bound p p).bind fun str => (skipBytes_ends (size str) bound p q).bind fun _ => .pure rfl

theorem get_ends {f : IcCtx → Icx α}
    (hf : ∀ bound q c, Terminated c.parsePos → c.parsePos.length ≤ bound → EndsFrom textRank Halt.Thrown q k (f c) c) :
    Ends k (get >>= f) := fun bound _ q c hc hb => (hf bound q c hc hb).of_eq (get_bind f c)

theorem blockSizeLeft_ends : Ends (fun _ => 0) blockSizeLeft := by
  intro bound p q
  refine (skiptotoken_ends bound p p).bind fun more c hc hb => ?_
  cases more with
  | false => exact ends_of_ok rfl hc (List.suffix_refl _) le_rfl
  | true =>
    obtain ⟨ch, text, htext⟩ := List.exists_cons_of_ne_nil (Terminated.ne_nil hc)
    have hchar : charAt 0 c = .ok ch c := by
      unfold charAt
      rw [htext]
      rfl
    refine EndsFrom.of_eq ?_ (bind_ok hchar)
    by_cases hbrace : ch = 125
    · rw [if_pos hbrace]
      exact ends_of_ok rfl hc (List.suffix_refl _) le_rfl
    · rw [if_neg hbrace]
      exact ends_of_ok rfl hc (List.suffix_refl _) le_rfl

theorem blockBegin_ends (length : Nat) : Ends (fun _ => 0) (blockBegin length info) := by
  refine get_ends fun bound q c hc hb => ?_
  split
  · exact throwX_ends _ bound q q c hc hb
  · split
    · exact throwX_ends _ bound q q c hc hb
    · refine ((expect_ends (chars "\x7b") (by decide)).discard bound q q c hc hb).bind fun _ c1 h1 => ?_
      obtain ⟨hc1, -, -⟩ := ((expect_ends (chars "\x7b") (by decide)).discard bound q q c hc hb).ok h1
      exact ends_of_ok rfl hc1 (List.suffix_refl _) le_rfl

theorem blockEnd_ends : Ends (fun _ => 0) (blockEnd info) := by
  refine get_ends fun bound q c hc hb => ?_
  split
  · exact throwX_ends _ bound q q c hc hb
  · refine ((expect_ends (chars "\x7d") (by decide)).discard bound q q c hc hb).bind fun _ c1 h1 => ?_
    obtain ⟨hc1, -, hleft1⟩ := ((expect_ends (chars "\x7d") (by decide)).discard bound q q c hc hb).ok h1
    refine get_ends (fun bound q c hc hb => ?_) bound q q c1 hc1 (Nat.le_trans (Nat.le_of_add_right_le hleft1) hb)
    dsimp only
    split
    · exact throwX_ends _ bound q q c hc hb
    · exact ends_of_ok rfl hc (List.suffix_refl _) le_rfl

theorem namedBlockBegin_ends {b : Nat} (hn : info.Named) : Ends (fun _ => 1) (namedBlockBegin b info) := fun bound p q =>
  (uint_ends hn bound p p).bind fun length => blockBegin_ends length.toNat bound p q

theorem namedBlockBegin_closes {b p : Nat} (hn : info.Named) (hc : Terminated c.parsePos) :
    (∀ e c1, namedBlockBegin b info c = .error e c1 → e.Thrown) ∧
    ∀ u c1, namedBlockBegin b info c = .ok u c1 → textRank.Valid (p + b) c1 ∧
      textRank.left c1 ≤ textRank.left c ∧ Closes (m := .parseText) textRank c c1 := by
  have hbegin := namedBlockBegin_ends (b := b) hn (textRank.left c) p (p + b) c hc le_rfl
  refine ⟨fun e c1 h1 => hbegin.error h1, fun u c1 h1 => ?_⟩
  obtain ⟨hc1, hkept1, hleft1⟩ := hbegin.ok h1
  refine ⟨hc1, by omega, fun endInfo c2 hc2 hkept2 hleft2 => ?_⟩
  have hend : EndsFrom textRank Halt.Thrown 0 (fun _ => 0) (blockEnd endInfo) c2 :=
    blockEnd_ends (textRank.left c2) p 0 c2 hc2 le_rfl
  refine ⟨fun e c3 h3 => hend.error h3, fun n c3 h3 => ?_⟩
  obtain ⟨hc3, hkept3, hleft3⟩ := hend.ok h3
  exact ⟨hc3, textRank.trans (textRank.trans hkept1 hkept2) hkept3, by omega⟩

end Icx

def textParsing : Parsing .parseText where
  parsing := rfl
  rank := textRank
  congr _ hc := hc
  uint _ _ _ _ _ _ hn := Icx.iox_uint_ends hn _ _ _
  shortString _ hn := @Icx.string_ends (some _) hn _ _ _ _
  fixedString _ _ hn := (@Icx.string_ends (some _) hn _ _ _ _).mono fun _ => Nat.min_le_left _ _
  sizeLeft := Icx.blockSizeLeft_ends _ _ _
  bitpos _ hc _ := endsFrom_ok rfl ⟨hc, List.suffix_refl _, le_rfl⟩
  blockBegin _ _ hn hc := Icx.namedBlockBegin_closes hn hc

theorem avoids_of_ends {α : Type} {k : α → Nat} {x : Icx α} (hx : Icx.Ends k x) {c : IcCtx} (hc : Terminated c.parsePos) :
    Avoids .undefined x c := by
  intro c' h
  obtain ⟨info, message, hthrown⟩ := Progress.EndsFrom.error (hx _ 0 0 c hc le_rfl) h
  cases hthrown

end Mopa.Io
