import Mopa.TextTokens

/-! Text parsing of the texts of fields, strings, blocks and lists. The position follows the
one of construction. A string of 255 characters, whose size in text mode is counted modulo
256, leaves it behind. -/
namespace Mopa.Io
open Outcome IcCtx OcCtx

/-- The text up to the rest has been read, in the same block, and the position has moved by
the size at most, as far as the offset in a byte is concerned by the size. -/
structure IcCtx.Passed (c c' : IcCtx) (size : Nat) (rest : List UInt8) : Prop where
  next : c'.Next rest
  stack : c'.scopeStack = c.scopeStack
  limit : c'.bitlimit = c.bitlimit
  within : c'.bitpos ≤ c.bitpos + size
  offset : c'.bitpos % 8 = (c.bitpos + size) % 8

/-- At offset `p` in a byte, with room for the size, the program reads the text up to the rest
and gives what is stated. -/
def Scans {α : Type} (x : Icx α) (post : α → Prop) (p size : Nat) (text rest : List UInt8) : Prop :=
  ∀ c, c.Next (text ++ rest) → c.bitpos % 8 = p % 8 → c.bitpos + size ≤ c.bitlimit → c.bitlimit < 2^32 →
    ∃ a c', x c = .ok a c' ∧ post a ∧ c.Passed c' size rest

section Scans
variable {α β : Type} {x : Icx α} {post post' : α → Prop} {goal : β → Prop} {p s s' : Nat} {t t' rest : List UInt8}
  {c c' : IcCtx} {info endInfo : Info}

protected theorem Scans.pure {a : α} (ha : post a) : Scans (pure a) post p 0 [] rest := fun c hnext _ _ _ =>
  ⟨a, c, rfl, ha, hnext, rfl, rfl, Nat.le_refl _, rfl⟩

protected theorem Scans.bind {f : α → Icx β} (hx : Scans x post p s t (t' ++ rest))
    (hf : ∀ a, post a → Scans (f a) goal (p + s) s' t' rest) : Scans (x >>= f) goal p (s + s') (t ++ t') rest := by
  intro c hnext hp hroom hl
  rw [List.append_assoc] at hnext
  obtain ⟨a, c1, h1, ha, h⟩ := hx c hnext hp (by omega) hl
  have hoffset := h.offset
  have hwithin := h.within
  obtain ⟨b, c2, h2, hb, h'⟩ := hf a ha c1 h.next (by omega) (by rw [h.limit]; omega) (h.limit ▸ hl)
  have hoffset' := h'.offset
  have hwithin' := h'.within
  exact ⟨b, c2, (bind_ok h1).trans h2, hb, h'.next, h'.stack.trans h.stack, h'.limit.trans h.limit, by omega, by omega⟩

theorem Scans.bind_pure {f : α → Icx β} (hx : Scans x post p s t rest) (hf : ∀ a, post a → ∃ b, f a = pure b ∧ goal b) :
    Scans (x >>= f) goal p s t rest := by
  intro c hnext hp hroom hl
  obtain ⟨a, c1, h1, ha, h⟩ := hx c hnext hp hroom hl
  obtain ⟨b, hb, hgoal⟩ := hf a ha
  exact ⟨b, c1, (bind_ok h1).trans (by rw [hb]; rfl), hgoal, h⟩

theorem Scans.pair {y : Icx β} (hx : Scans x post p s t (t' ++ rest)) (hy : Scans y goal (p + s) s' t' rest) :
    Scans (do
      let a ← x
      let b ← y
      return (a, b)) (fun r => post r.1 ∧ goal r.2) p (s + s') (t ++ t') rest :=
  hx.bind fun a ha => hy.bind_pure fun b hb => ⟨(a, b), rfl, ha, hb⟩

theorem Scans.mono (hx : Scans x post p s t rest) (h : ∀ a, post a → post' a) : Scans x post' p s t rest := by
  intro c hnext hp hroom hl
  obtain ⟨a, c1, h1, ha, hpassed⟩ := hx c hnext hp hroom hl
  exact ⟨a, c1, h1, h a ha, hpassed⟩

theorem passed_line {n : Nat} (hn : n ≤ s) (hoffset : n % 8 = s % 8) :
    c.Passed { c with parsePos := 10 :: rest, bitpos := c.bitpos + n } s rest :=
  ⟨skipBlanks_newline rest, rfl, rfl, Nat.add_le_add_left hn _, by
    show (c.bitpos + n) % 8 = _
    omega⟩

theorem Scans.uint {var : Variable} {w depth : Nat} {val into : var.Word} (hw : w ≤ var.width) (hv : Variable.toNat val < 2^w)
    (hname : Identifier info.name) (hr : Readable (Variable.toNat val) info) :
    Scans (Iox.uint (m := .parseText) var w into info) (· = val) p w (uintLine depth w (Variable.toNat val) info) rest := by
  intro c hnext _ hroom hl
  have hw32 : w ≤ 32 := hw.trans (by cases var <;> decide)
  have hline := Icx.uint_line hname hr hv (hv.trans_le (Nat.pow_le_pow_right (by decide) hw32)) hnext
  rw [u32_of_lt (by omega)] at hline
  have hpassed : c.Passed { c with parsePos := 10 :: rest, bitpos := c.bitpos + w } w rest := passed_line (Nat.le_refl w) rfl
  cases var with
  | uint8 => exact ⟨_, _, bind_ok hline, by simp [Variable.toNat], hpassed⟩
  | uint16 => exact ⟨_, _, bind_ok hline, by simp [Variable.toNat], hpassed⟩
  | uint32 => exact ⟨_, _, hline, by simp [Variable.toNat], hpassed⟩

theorem Scans.string {str : List UInt8} {depth : Nat} (size : List UInt8 → Nat) (hname : Identifier info.name) (hp : p % 8 = 0)
    (hn : 8 * size str ≤ s) (hs : s % 8 = 0) :
    Scans (do
      let str ← Icx.parseString info
      Icx.skipBytes (size str) info
      return str) (· = str) p s (stringLine depth str info) rest := by
  intro c hnext hc hroom hl
  have hline := Icx.parseString_line hname.not_blank (by omega) hnext
  have hskip : Icx.skipBytes (size str) info { c with parsePos := 10 :: rest } =
      .ok () { c with parsePos := 10 :: rest, bitpos := c.bitpos + 8 * size str } := by
    unfold Icx.skipBytes
    dsimp only
    rw [u32_of_lt (by omega), if_neg (by omega), Nat.mul_comm]
  exact ⟨str, _, (bind_ok hline).trans ((bind_ok hskip).trans rfl), rfl, passed_line hn (by omega)⟩

theorem Scans.shortString {str into : List UInt8} {depth : Nat} (hname : Identifier info.name) (hp : p % 8 = 0) :
    Scans (Iox.shortStringIo (m := .parseText) into info) (· = str) p (8 + 8 * str.length) (stringLine depth str info) rest :=
  .string (fun str => (1 + str.length) % 256) hname hp (by omega) (by omega)

theorem Scans.fixedString {str into : List UInt8} {depth n : Nat} (hname : Identifier info.name) (hp : p % 8 = 0) :
    Scans (Iox.fixedStringIo n (m := .parseText) into info) (· = str) p (8 * str.length) (stringLine depth str info) rest :=
  .string (fun str => str.length % 256) hname hp (by omega) (by omega)

def IcCtx.enter (c : IcCtx) (b n : Nat) (info : Info) (text : List UInt8) : IcCtx where
  bitpos := c.bitpos + b
  bitlimit := c.bitpos + b + 8 * n
  scopeStack := ⟨info, c.bitpos + b, c.bitlimit⟩ :: c.scopeStack
  parsePos := 10 :: text

theorem icx_namedBlockBegin_line {b n depth : Nat} (hname : Identifier info.name) (hr : Readable n info) (hb : b ≤ 16)
    (hn : n < 2^b) (hnext : c.Next (uintLine depth 32 n info ++ (indent depth ++ (chars "\x7b\n" ++ t))))
    (hal : (c.bitpos + b) % 8 = 0) (hroom : c.bitpos + b + 8 * n ≤ c.bitlimit) (hl : c.bitlimit < 2^32) :
    Icx.namedBlockBegin b info c = .ok () (c.enter b n info t) := by
  have hn16 : n < 2^16 := hn.trans_le (Nat.pow_le_pow_right (by decide) hb)
  have hline := Icx.uint_line hname hr hn (by omega) hnext
  have hlength : (UInt32.ofNat n).toNat = n := Nat.mod_eq_of_lt (by omega)
  refine (bind_ok hline).trans ?_
  rw [hlength, u32_of_lt (by omega)]
  unfold Icx.blockBegin
  rw [get_bind]
  dsimp only
  rw [if_neg (not_not.mpr hal), u32_of_lt (n := n * 8) (by omega), u32_of_lt (by omega), if_neg (by omega)]
  have hbrace (c : IcCtx) (h : c.Next (chars "\x7b\n" ++ t)) : Icx.enterScope c = .ok () { c with parsePos := 10 :: t } :=
    Icx.discard_ok (Icx.expect_char 123 (10 :: t) h (by decide))
  refine (bind_ok (hbrace _ ?_)).trans ?_
  · exact (skipBlanks_newline _).trans (skipBlanks_indent depth _)
  · show EStateM.Result.ok () (IcCtx.mk (c.bitpos + b) (u32 (c.bitpos + b + n * 8)) _ _) = _
    rw [u32_of_lt (by omega), Nat.mul_comm n 8]
    rfl

theorem icx_blockEnd_apply {sc : IScope} {outer : List IScope} (hs : c.scopeStack = sc :: outer)
    (hleave : Icx.leaveScope c = .ok () { c with parsePos := t }) (hal : sub32 c.bitpos sc.bitposAtEnter % 8 = 0) :
    Icx.blockEnd info c = .ok (sub32 c.bitpos sc.bitposAtEnter / 8) { c with
      bitlimit := sc.bitlimitAtEnter
      scopeStack := outer
      parsePos := t } := by
  unfold Icx.blockEnd
  rw [get_bind, hs]
  dsimp only
  refine (bind_ok hleave).trans ?_
  rw [get_bind]
  dsimp only
  rw [if_neg (not_not.mpr hal)]
  rfl

theorem Scans.block {b n depth : Nat} (hname : Identifier info.name) (hr : Readable n info) (hb : b ≤ 16) (hn : n < 2^b)
    (hp : (p + b) % 8 = 0) (hx : Scans x post (p + b) (8 * n) t (indent depth ++ (chars "\x7d\n" ++ rest))) :
    Scans (Iox.namedBlock (m := .parseText) b info endInfo x) (fun r => post r.2) p (b + 8 * n) (blockText depth n info t)
      rest := by
  intro c hnext hc hroom hl
  unfold blockText at hnext
  simp only [List.append_assoc] at hnext
  have hbegin := icx_namedBlockBegin_line hname hr hb hn hnext (by omega) (by omega) hl
  obtain ⟨a, c1, h1, ha, hpassed⟩ := hx (c.enter b n info (t ++ (indent depth ++ (chars "\x7d\n" ++ rest))))
    (skipBlanks_newline _) (show (c.bitpos + b) % 8 = _ by omega) (Nat.le_refl _)
    (show c.bitpos + b + 8 * n < 2^32 by omega)
  have hoffset : c1.bitpos % 8 = (c.bitpos + b + 8 * n) % 8 := hpassed.offset
  have hwithin : c1.bitpos ≤ c.bitpos + b + 8 * n := hpassed.within
  have hleave : Icx.leaveScope c1 = .ok () { c1 with parsePos := 10 :: rest } :=
    Icx.discard_ok (Icx.expect_char 125 (10 :: rest) (hpassed.next.trans (skipBlanks_indent depth _)) (by decide))
  have hend : Icx.blockEnd endInfo c1 = _ := icx_blockEnd_apply hpassed.stack hleave (by
    show sub32 c1.bitpos (c.bitpos + b) % 8 = 0
    unfold sub32
    omega)
  exact ⟨_, _, (bind_ok hbegin).trans ((bind_ok h1).trans ((bind_ok hend).trans rfl)), ha, skipBlanks_newline rest, rfl, rfl,
    by show c1.bitpos ≤ _; omega, by show c1.bitpos % 8 = _; omega⟩

theorem blockSizeLeft_closes (h : c.Next t) (ht : Begins 125 t) :
    ∃ r, Icx.blockSizeLeft c = .ok 0 { c with parsePos := 125 :: r } ∧ IcCtx.Next { c with parsePos := 125 :: r } t := by
  obtain ⟨r, hr⟩ := ht
  have hskip : Icx.skiptotoken c = .ok true { c with parsePos := 125 :: r } := by
    unfold Icx.skiptotoken
    rw [h.trans hr]
    rfl
  refine ⟨r, (bind_ok hskip).trans ?_, hr.symm⟩
  rw [if_pos rfl]
  refine (bind_ok (Icx.charAt_zero rfl)).trans ?_
  rw [if_pos rfl]
  rfl

theorem blockSizeLeft_letter {ch : UInt8} (h : c.Next t) (ht : Begins ch t) (hch : isLetter ch) : ∃ r,
    Icx.blockSizeLeft c = .ok (sub32 c.bitlimit c.bitpos) { c with parsePos := ch :: r } ∧
      IcCtx.Next { c with parsePos := ch :: r } t := by
  obtain ⟨r, hr⟩ := ht
  have h0 : ch ≠ 0 := by
    rintro rfl
    cases hch
  have h125 : ch ≠ 125 := by
    rintro rfl
    cases hch
  have hskip : Icx.skiptotoken c = .ok true { c with parsePos := ch :: r } := by
    unfold Icx.skiptotoken
    rw [h.trans hr]
    simp only [ne_eq, h0, not_false_eq_true, decide_true]
  refine ⟨r, (bind_ok hskip).trans ?_, (skipBlanks_cons (letter_not_blank hch) r).trans hr.symm⟩
  rw [if_pos rfl]
  refine (bind_ok (Icx.charAt_zero rfl)).trans ?_
  rw [if_neg h125]
  rfl

theorem Scans.items {γ : Type} {io : α → Icx α} {fresh : α} {e : α → Encoder α} {text : α → List UInt8} {view : α → γ}
    {list list' : List α} {bits : List Bool} {fuel : Nat}
    (hitem : ∀ a ∈ list, ∀ p a' as, e a p = some (a', as) → 1 ≤ as.length ∧
      (∃ ch, isLetter ch ∧ ∀ rest, Begins ch (text a ++ rest)) ∧
      ∀ rest, Scans (io fresh) (view · = view a) p as.length (text a) rest)
    (he : Encoder.items e list p = some (list', bits)) (hrest : Begins 125 rest) (hfuel : bits.length < fuel) (acc : List α) :
    Scans (Iox.parseItems (m := .parseText) fresh io fuel acc) (fun l => l.map view = acc.map view ++ list.map view) p
      bits.length (list.flatMap text) rest := by
  induction list generalizing p list' bits fuel acc with
  | nil =>
    cases he
    intro c hnext _ _ _
    obtain ⟨fuel, rfl⟩ := Nat.exists_eq_succ_of_ne_zero (by omega : fuel ≠ 0)
    obtain ⟨r, hleft, hnext'⟩ := blockSizeLeft_closes (show c.Next rest from hnext) hrest
    refine ⟨acc, _, (bind_ok hleft).trans ?_, by rw [List.map_nil, List.append_nil], hnext', rfl, rfl, Nat.le_refl _, rfl⟩
    rw [if_neg (Nat.lt_irrefl 0)]
    rfl
  | cons a list ih =>
    obtain ⟨a', as, _, h1, htail, rfl⟩ := Encoder.bind_eq_some.mp he
    obtain ⟨list'', bs, _, h2, hpure, rfl⟩ := Encoder.bind_eq_some.mp htail
    obtain ⟨-, rfl⟩ := Encoder.pure_eq_some.mp hpure
    obtain ⟨hsome, ⟨ch, hletter, hbegins⟩, hscans⟩ := hitem a List.mem_cons_self p a' as h1
    rw [List.append_nil] at *
    rw [List.length_append] at *
    obtain ⟨fuel, rfl⟩ := Nat.exists_eq_succ_of_ne_zero (by omega : fuel ≠ 0)
    have hrun : Scans (io fresh >>= fun item => Iox.parseItems (m := .parseText) fresh io fuel (acc ++ [item]))
        (fun l => l.map view = acc.map view ++ (a :: list).map view) p (as.length + bs.length)
        (text a ++ list.flatMap text) rest := by
      refine (hscans _).bind fun item hview => ?_
      refine (ih (fun x hx => hitem x (List.mem_cons_of_mem a hx)) h2 (by omega) (acc ++ [item])).mono fun l hl => ?_
      rw [hl, List.map_append, List.map_singleton, hview, List.append_assoc]
      rfl
    intro c hnext hp hroom hl
    obtain ⟨r, hleft, hnext'⟩ := blockSizeLeft_letter hnext (by rw [List.flatMap_cons, List.append_assoc]; exact hbegins _) hletter
    obtain ⟨l, c', hio, hl', hpassed⟩ := hrun { c with parsePos := ch :: r } hnext' hp hroom hl
    refine ⟨l, c', (bind_ok hleft).trans ?_, hl', hpassed.next, hpassed.stack, hpassed.limit, hpassed.within, hpassed.offset⟩
    have hpos : sub32 c.bitlimit c.bitpos > 0 := by
      rw [sub32_of_le (by omega) hl]
      omega
    rw [if_pos hpos]
    exact hio

end Scans

end Mopa.Io
