import Mopa.BlockConstruction
import Mopa.TextConstruction
import Mopa.TextSyntax

/-! What the text of an exception says about the place where it was thrown: the blocks that are
open there, and line and column in text parsing. Programs keep the blocks of their context, and
what they throw for is named. -/
namespace Mopa.Io
open Outcome IcCtx

structure Place where
  info : Info
  bitpos : Nat
  bitlimit : Nat
  deriving DecidableEq, Repr

def IScope.place (s : IScope) : Place := ⟨s.info, s.bitposAtEnter, s.bitlimitAtEnter⟩

def OScope.place (s : OScope) : Place := ⟨s.info, s.bitposAtEnter, s.bitlimitAtEnter⟩

def openPlaces : {m : Mode} → Ctx m → List Place
  | .parseBinary, c => c.scopeStack.map IScope.place
  | .parseText, c => c.scopeStack.map IScope.place
  | .constructBinary, c => c.scopeStack.map OScope.place
  | .constructText, c => c.scopeStack.map OScope.place

def Place.of (info : Info) : {m : Mode} → Ctx m → Place
  | .parseBinary, c => ⟨info, c.bitpos, c.bitlimit⟩
  | .parseText, c => ⟨info, c.bitpos, c.bitlimit⟩
  | .constructBinary, c => ⟨info, c.bitpos, c.bitlimit⟩
  | .constructText, c => ⟨info, c.bitpos, c.bitlimit⟩

/-- The loop over the text in front of `parse_pos`: `line_nr` and `r-line_begin`. -/
def lineColumn (text : List UInt8) : Nat × Nat :=
  text.foldl (fun at_ ch => if ch = 10 then (u32 (at_.1 + 1), 0) else (at_.1, at_.2 + 1)) (1, 0)

/-- What `Exception::Exception` puts behind the message. -/
structure Report where
  lineColumn : Option (Nat × Nat)       -- "at <input>:%d:%ld"
  parsing : Bool                        -- "when parsing", "when building"
  field : Place
  blocks : List Place                   -- innermost first
  deriving DecidableEq, Repr

/-- `parsedText` is the text that is parsed, with its terminating 0. -/
def report (parsedText : List UInt8) (info : Info) : {m : Mode} → Ctx m → Report
  | .parseText, c =>
    ⟨some (lineColumn (parsedText.take (parsedText.length - c.parsePos.length))), true, .of info c, openPlaces c⟩
  | .parseBinary, c => ⟨none, true, .of info c, openPlaces c⟩
  | .constructBinary, c => ⟨none, false, .of info c, openPlaces c⟩
  | .constructText, c => ⟨none, false, .of info c, openPlaces c⟩

def ReadsFrom (text : List UInt8) : {m : Mode} → Ctx m → Prop
  | .parseText, c => c.parsePos <:+ text
  | _, _ => True

def Report.Marks (r : Report) (text : List UInt8) : {m : Mode} → Ctx m → Prop
  | .parseText, c => ∃ lines line, text = lines ++ (line ++ c.parsePos) ∧ (lines = [] ∨ lines.getLast? = some 10) ∧
      10 ∉ line ∧ r.lineColumn = some (u32 (lines.count 10 + 1), line.length)
  | _, _ => r.lineColumn = none

theorem u32_u32_succ (n : Nat) : u32 (u32 n + 1) = u32 (n + 1) := by
  unfold u32
  omega

theorem lineColumn_spec (text : List UInt8) : ∃ lines line, text = lines ++ line ∧ (lines = [] ∨ lines.getLast? = some 10) ∧
    10 ∉ line ∧ lineColumn text = (u32 (lines.count 10 + 1), line.length) := by
  induction text using List.reverseRecOn with
  | nil => exact ⟨[], [], rfl, .inl rfl, List.not_mem_nil, rfl⟩
  | append_singleton text ch ih =>
    obtain ⟨lines, line, rfl, hlines, hline, hat⟩ := ih
    have hstep : lineColumn ((lines ++ line) ++ [ch]) =
        if ch = 10 then (u32 ((lineColumn (lines ++ line)).1 + 1), 0)
        else ((lineColumn (lines ++ line)).1, (lineColumn (lines ++ line)).2 + 1) := List.foldl_append ..
    rw [hstep, hat]
    by_cases hch : ch = 10
    · subst hch
      refine ⟨lines ++ line ++ [10], [], (List.append_nil _).symm, .inr List.getLast?_concat, List.not_mem_nil, ?_⟩
      rw [if_pos rfl, u32_u32_succ, List.count_append, List.count_append, List.count_eq_zero.mpr hline, List.count_singleton_self]
      rfl
    · refine ⟨lines, line ++ [ch], List.append_assoc .., hlines, ?_, ?_⟩
      · rw [List.mem_append, List.mem_singleton, not_or]
        exact ⟨hline, Ne.symm hch⟩
      · rw [if_neg hch, List.length_append]
        rfl

theorem report_marks {text : List UInt8} {info : Info} : {m : Mode} → {c : Ctx m} → ReadsFrom text c →
    (report text info c).Marks text c
  | .parseText, c, ⟨before, hbefore⟩ => by
    obtain ⟨lines, line, hsplit, hlines, hline, hat⟩ := lineColumn_spec before
    refine ⟨lines, line, by rw [← List.append_assoc, ← hsplit, hbefore], hlines, hline, ?_⟩
    show some (lineColumn (text.take (text.length - c.parsePos.length))) = _
    rw [← hbefore, List.length_append, Nat.add_sub_cancel, List.take_left, hat]
  | .parseBinary, _, _ => rfl
  | .constructBinary, _, _ => rfl
  | .constructText, _, _ => rfl

theorem report_blocks (text : List UInt8) (info : Info) : {m : Mode} → (c : Ctx m) → (report text info c).blocks = openPlaces c
  | .parseBinary, _ => rfl
  | .parseText, _ => rfl
  | .constructBinary, _ => rfl
  | .constructText, _ => rfl

def Ahead : {m : Mode} → Ctx m → Ctx m → Prop
  | .parseText, c, d => d.parsePos <:+ c.parsePos
  | _, _, _ => True

theorem Ahead.refl : {m : Mode} → (c : Ctx m) → Ahead c c
  | .parseText, c => List.suffix_refl c.parsePos
  | .parseBinary, _ => trivial
  | .constructBinary, _ => trivial
  | .constructText, _ => trivial

theorem Ahead.trans : {m : Mode} → {c d e : Ctx m} → Ahead c d → Ahead d e → Ahead c e
  | .parseText, _, _, _, h, h' => List.IsSuffix.trans h' h
  | .parseBinary, _, _, _, _, _ => trivial
  | .constructBinary, _, _, _, _, _ => trivial
  | .constructText, _, _, _, _, _ => trivial

theorem Ahead.readsFrom {text : List UInt8} : {m : Mode} → {c d : Ctx m} → Ahead c d → ReadsFrom text c → ReadsFrom text d
  | .parseText, _, _, h, hc => List.IsSuffix.trans h hc
  | .parseBinary, _, _, _, _ => trivial
  | .constructBinary, _, _, _, _ => trivial
  | .constructText, _, _, _, _ => trivial

section Locates
variable {m : Mode} {α β : Type} {c d e : Ctx m} {path : List Info} {names names' : List Info → Info → Prop}

def Under (path : List Info) (c d : Ctx m) : Prop :=
  Ahead c d ∧ ∃ inner, inner.map Place.info = path ∧ openPlaces d = inner ++ openPlaces c

def Closed (c d : Ctx m) : Prop := Ahead c d ∧ ∀ place outer, openPlaces c = place :: outer → openPlaces d = outer

/-- An exception is thrown for a name and under the blocks that lead to it. -/
def Raises (names : List Info → Info → Prop) (halt : Halt) (c d : Ctx m) : Prop :=
  ∀ info message, halt = .exception info message → ∃ path, names path info ∧ Under path c d

theorem Raises.undefined (c d : Ctx m) : Raises names .undefined c d := by
  intro info message h
  cases h

theorem Raises.fuel (c d : Ctx m) : Raises names .fuel c d := by
  intro info message h
  cases h

/-- The program ends the blocks that it begins, and exceptions in between are thrown for names. -/
def Locates (names : List Info → Info → Prop) (x : Iox m α) : Prop := Acts (Under []) (Raises names) x

def Only (info : Info) (path : List Info) (i : Info) : Prop := path = [] ∧ i = info

theorem Under.same (ha : Ahead c d) (hp : openPlaces d = openPlaces c) : Under [] c d := ⟨ha, [], rfl, hp⟩

theorem Under.refl (c : Ctx m) : Under [] c c := .same (.refl c) rfl

theorem Under.trans {path' : List Info} (h : Under path c d) (h' : Under path' d e) : Under (path' ++ path) c e := by
  obtain ⟨ha, inner, rfl, hp⟩ := h
  obtain ⟨ha', inner', rfl, hp'⟩ := h'
  exact ⟨ha.trans ha', inner' ++ inner, List.map_append, by rw [hp', hp, List.append_assoc]⟩

theorem Under.eq (h : Under [] c d) : openPlaces d = openPlaces c := by
  obtain ⟨-, inner, hinner, hp⟩ := h
  rw [hp, List.map_eq_nil_iff.mp hinner, List.nil_append]

theorem Closed.of_eq (ha : Ahead c d) {place : Place} {outer : List Place} (hc : openPlaces c = place :: outer)
    (hd : openPlaces d = outer) : Closed c d :=
  ⟨ha, fun _ _ hc' => hd.trans (List.cons.inj (hc.symm.trans hc')).2⟩

theorem Closed.trans (h : Closed c d) (h' : Under [] d e) : Closed c e :=
  ⟨h.1.trans h'.1, fun place outer hc => h'.eq.trans (h.2 place outer hc)⟩

theorem Under.closed {info : Info} (h : Under [info] c d) (h' : Closed d e) : Under [] c e := by
  obtain ⟨ha, inner, hinner, hp⟩ := h
  obtain ⟨ha', hclosed⟩ := h'
  obtain ⟨place, rfl, -⟩ := List.map_eq_singleton_iff.mp hinner
  exact .same (ha.trans ha') (hclosed place _ hp)

namespace Locates

theorem mono {x : Iox m α} (h : Locates names x) (himp : ∀ path i, names path i → names' path i) : Locates names' x :=
  Acts.mono h (fun _ _ => id) fun _ _ _ hr info message he =>
    let ⟨path, hn, hu⟩ := hr info message he
    ⟨path, himp path info hn, hu⟩

/-- The report of an exception names the blocks that the program has begun and something that it
can throw for under them, and marks where the rest of the text begins. -/
theorem reported {x : Iox m α} (hx : Locates names x) {text : List UInt8} (hc : ReadsFrom text c) {info : Info} {message : String}
    (h : x c = .error (.exception info message) d) : ReadsFrom text d ∧ (report text info d).Marks text d ∧
      ∃ inner, names (inner.map Place.info) info ∧ (report text info d).blocks = inner ++ openPlaces c := by
  obtain ⟨path, hn, ha, inner, rfl, hp⟩ := hx.of_error h info message rfl
  have hd := ha.readsFrom hc
  exact ⟨hd, report_marks hd, inner, hn, (report_blocks text info d).trans hp⟩

protected theorem pure (a : α) : Locates names (pure a : Iox m α) := Under.refl

protected theorem bind {x : Iox m α} {f : α → Iox m β} (hx : Locates names x) (hf : ∀ a, Locates names (f a)) :
    Locates names (x >>= f) := by
  refine Acts.bind hx hf (fun s s' s'' h h' => h.trans h') (fun _ _ _ => id) fun e s s' s'' h hr info message he => ?_
  obtain ⟨path, hn, hu⟩ := hr info message he
  exact ⟨path, hn, List.append_nil path ▸ h.trans hu⟩

theorem seq {x : Iox m α} {f : α → Iox m β} (hx : Locates names x) (hf : ∀ a, Locates names' (f a)) :
    Locates (fun path i => names path i ∨ names' path i) (x >>= f) :=
  (hx.mono fun _ _ => .inl).bind fun a => (hf a).mono fun _ _ => .inr

theorem last {x : Iox m α} {f : α → β} (hx : Locates names x) : Locates names (x >>= fun a => pure (f a)) :=
  hx.bind fun a => .pure (f a)

theorem map {x : Iox m α} (f : α → β) (hx : Locates names x) : Locates names (f <$> x) := by
  rw [map_eq_pure_bind]
  exact hx.last

protected theorem throwX {info : Info} {message : String} (hn : names [] info) : Locates names (throwX info message : Iox m α) := by
  intro c info' message' he
  cases he
  exact ⟨[], hn, Under.refl c⟩

protected theorem undefined : Locates names fun c : Ctx m => (.error .undefined c : EStateM.Result Halt (Ctx m) α) :=
  fun c => Raises.undefined c c

theorem step {f : Ctx m → α} {g : Ctx m → Ctx m} (h : ∀ c, Under [] c (g c)) : Locates names fun c => .ok (f c) (g c) := h

theorem ite {P : Ctx m → Prop} [∀ c, Decidable (P c)] {x y : Iox m α} (hx : Locates names x) (hy : Locates names y) :
    Locates names fun c => if P c then x c else y c := by
  intro c
  by_cases h : P c
  · simp only [if_pos h]
    exact hx c
  · simp only [if_neg h]
    exact hy c

theorem throwIf {cond : Prop} [Decidable cond] {info : Info} {message : String} (hn : names [] info) :
    Locates names (if cond then throwX info message else pure PUnit.unit : Iox m PUnit) := by
  split
  · exact .throwX hn
  · exact .pure _

theorem guarded {cond : Prop} [Decidable cond] {info : Info} {message : String} {f : PUnit → Iox m α} (hn : names [] info)
    (hf : Locates names (f ⟨⟩)) : Locates names (if cond then Io.throwX info message >>= f else f ⟨⟩) := by
  split
  · intro c i message' he
    cases he
    exact ⟨[], hn, .refl c⟩
  · exact hf

theorem get {f : Ctx m → Iox m α} (hf : ∀ c, Locates names (f c)) : Locates names (MonadState.get >>= f) := fun c => hf c c

end Locates

end Locates

section Fields
variable {info : Info} {names : List Info → Info → Prop}

theorem ibx_uint8_locates (w : Nat) : Locates (m := .parseBinary) (Only info) (Ibx.uint8 w info) :=
  .ite (.throwX ⟨rfl, rfl⟩) (.step fun _ => .same trivial rfl)

theorem ibx_uint32_locates (w : Nat) : Locates (m := .parseBinary) (Only info) (Ibx.uint32 w info) := by
  refine .ite (.throwX ⟨rfl, rfl⟩) (.step fun c => .same trivial ?_)
  unfold IbCtx.nocheckUint32
  dsimp only
  split
  · rfl
  · rfl

theorem obx_uint8_locates (w : Nat) (val : UInt8) : Locates (m := .constructBinary) (Only info) (Obx.uint8 w val info) :=
  .ite (.throwX ⟨rfl, rfl⟩) (.step fun _ => .same trivial rfl)

theorem obx_uint16_locates (w : Nat) (val : UInt16) : Locates (m := .constructBinary) (Only info) (Obx.uint16 w val info) :=
  .ite (.throwX ⟨rfl, rfl⟩) (.step fun _ => .same trivial rfl)

theorem obx_uint32_locates (w : Nat) (val : UInt32) : Locates (m := .constructBinary) (Only info) (Obx.uint32 w val info) := by
  refine .ite (.throwX ⟨rfl, rfl⟩) (.ite (.step fun c => .same trivial ?_) (.throwX ⟨rfl, rfl⟩))
  unfold ObCtx.nocheckUint32
  dsimp only
  split
  · rfl
  · rfl

theorem ocx_uint_locates (w : Nat) (val : UInt32) : Locates (m := .constructText) (Only info) (Ocx.uint w val info) := by
  have hx : Locates (m := .constructText) (Only info) fun c =>
      if u32 (c.bitpos + w) > c.bitlimit then throwX info "left %d bits, needed %d" c
      else if w < 32 ∧ val.toNat > 2^w - 1 then throwX info "value %d exceeds %d bits" c
      else .ok () { c with
        prod := c.prod ++ OcCtx.uintLine c.scopeStack.length w val.toNat info
        bitpos := u32 (c.bitpos + w) } :=
    .ite (.throwX ⟨rfl, rfl⟩) (.ite (.throwX ⟨rfl, rfl⟩) (.step fun _ => .same trivial rfl))
  exact (funext fun c => (ocx_uint_apply val).symm : _ = Ocx.uint w val info) ▸ hx

theorem skipBlanks_suffix (text : List UInt8) : skipBlanks text <:+ text := by
  obtain ⟨blanks, -, htext⟩ := skipBlanks_spec text
  exact ⟨blanks, htext.symm⟩

theorem follow_suffix {text req rest : List UInt8} {all : Bool} (h : follow text req = some (rest, all)) : rest <:+ text := by
  induction text generalizing req with
  | nil =>
    cases req with
    | nil => cases h; exact List.suffix_refl _
    | cons r req => cases h
  | cons ch text ih =>
    cases req with
    | nil => cases h; exact List.suffix_refl _
    | cons r req =>
      rw [follow] at h
      split at h
      · exact (ih h).trans (List.suffix_cons ch text)
      · cases h
        exact List.suffix_refl _

theorem readDigits_suffix (base v : Nat) (digit : UInt8 → Option Nat) (text : List UInt8) :
    (∀ n rest, readDigits base digit v text = .value n rest → rest <:+ text) ∧
      ∀ rest, readDigits base digit v text = .exceeds rest → rest <:+ text := by
  fun_induction readDigits base digit v text with
  | case1 v text =>
    constructor <;> intros <;> cases ‹_ = _›
    exact List.suffix_refl _
  | case2 => constructor <;> intros <;> cases ‹_ = _›
  | case3 v hv ch text d hd ih =>
    exact ⟨fun n rest h => (ih.1 n rest h).trans (List.suffix_cons ch text),
      fun rest h => (ih.2 rest h).trans (List.suffix_cons ch text)⟩
  | case4 v hv ch text =>
    constructor <;> intros <;> cases ‹_ = _›
    exact List.suffix_refl _

def LeavesOf (text : List UInt8) : Icx.Quoted → Prop
  | .closed _ rest => rest <:+ text
  | .refused _ rest => rest <:+ text
  | .overread => True

theorem LeavesOf.behind {text : List UInt8} : {r : Icx.Quoted} → LeavesOf text r → (front : List UInt8) → LeavesOf (front ++ text) r
  | .closed _ _, h, front => List.IsSuffix.trans h (List.suffix_append front text)
  | .refused _ _, h, front => List.IsSuffix.trans h (List.suffix_append front text)
  | .overread, _, _ => trivial

theorem unquote_leaves (s text : List UInt8) : LeavesOf text (Icx.unquote s text) := by
  fun_induction Icx.unquote s text with
  | case1 | case3 | case6 | case8 => trivial
  | case2 s text => exact List.suffix_cons _ _
  | case4 s c1 text _ _ ih => exact ih.behind [92, c1]
  | case5 s c1 text => exact ⟨[92, c1], rfl⟩
  | case7 s c1 _ _ c2 text => exact ⟨[92, c1, c2], rfl⟩
  | case9 s c1 _ _ c2 _ c3 text => exact ⟨[92, c1, c2, c3], rfl⟩
  | case10 s c1 _ _ c2 _ c3 text => exact ⟨[92, c1, c2, c3], rfl⟩
  | case11 s c1 _ _ c2 _ c3 text _ _ _ _ ih => exact ih.behind [92, c1, c2, c3]
  | case12 s ch text _ _ _ ih => exact ih.behind [ch]
  | case13 s ch text => exact List.suffix_cons _ _

theorem skiptotoken_locates : Locates (m := .parseText) names Icx.skiptotoken := by
  intro c
  unfold Icx.skiptotoken
  split
  · exact Raises.undefined _ _
  · next ch rest h => exact .same (h ▸ skipBlanks_suffix c.parsePos) rfl

theorem expect_locates (req : List UInt8) : Locates (m := .parseText) names (Icx.expect req) := by
  refine (Locates.map _ skiptotoken_locates).bind fun _ c => ?_
  split
  · exact Raises.undefined _ _
  · next rest all h => exact .same (follow_suffix h) rfl

theorem charAt_locates (n : Nat) : Locates (m := .parseText) names (Icx.charAt n) := by
  intro c
  unfold Icx.charAt
  split
  · exact Raises.undefined _ _
  · exact .refl c

theorem readNumber_locates (base : Nat) (digit : UInt8 → Option Nat) (message : String) (w : Nat) :
    Locates (m := .parseText) (Only info) (Icx.readNumber base digit message w info) := by
  intro c
  obtain ⟨hvalue, hexceeds⟩ := readDigits_suffix base 0 digit c.parsePos
  have hthrown {message : String} {rest : List UInt8} (hs : rest <:+ c.parsePos) :
      Settles (Under []) (Raises (Only info)) c (throwX info message { c with parsePos := rest } : EStateM.Result Halt IcCtx Nat) := by
    intro i message he
    cases he
    exact ⟨[], ⟨rfl, rfl⟩, .same (m := .parseText) hs rfl⟩
  unfold Icx.readNumber
  split
  · exact Raises.undefined _ _
  · next rest h => exact hthrown (hexceeds rest h)
  · next v rest h =>
    split
    · exact hthrown (hvalue v rest h)
    · exact .same (hvalue v rest h) rfl

theorem advance_locates (n : Nat) : Locates (m := .parseText) names (Icx.advance n) :=
  .step fun c => .same (List.drop_suffix n c.parsePos) rfl

theorem readNumeral_locates (w : Nat) : Locates (m := .parseText) (Only info) (Icx.readNumeral w info) := by
  refine (Locates.map _ skiptotoken_locates).bind fun _ => (charAt_locates 0).bind fun ch => ?_
  split
  · refine (charAt_locates 1).bind fun ch => ?_
    split
    · exact (advance_locates 2).bind fun _ => readNumber_locates 16 hexDigit _ w
    · refine (charAt_locates 1).bind fun ch => ?_
      split
      · exact (advance_locates 2).bind fun _ => readNumber_locates 2 binDigit _ w
      · exact readNumber_locates 10 decDigit _ w
  · exact readNumber_locates 10 decDigit _ w

theorem icx_uint_locates (w : Nat) : Locates (m := .parseText) (Only info) (Icx.uint w info) := by
  have hread : Locates (m := .parseText) (Only info) (Icx.readUint w info) := by
    rw [Icx.readUint_eq]
    refine (expect_locates info.name).bind fun named => ?_
    split
    · refine (expect_locates (chars ":")).bind fun colon => ?_
      split
      · exact readNumeral_locates w
      · exact .throwX ⟨rfl, rfl⟩
    · exact .throwX ⟨rfl, rfl⟩
  exact hread.bind fun v c => .same (List.suffix_refl c.parsePos) rfl

theorem parseString_locates : Locates (m := .parseText) (Only info) (Icx.parseString info) := by
  refine .ite (.throwX ⟨rfl, rfl⟩) ((Locates.map _ (expect_locates _)).bind fun _ => (Locates.map _ (expect_locates _)).bind fun _ =>
    (Locates.map _ (expect_locates _)).bind fun _ c => ?_)
  have hrest := unquote_leaves [] c.parsePos
  split
  · next str rest h => exact .same (show rest <:+ c.parsePos by rwa [h] at hrest) rfl
  · next message rest h =>
    intro i message' he
    cases he
    exact ⟨[], ⟨rfl, rfl⟩, .same (m := .parseText) (show rest <:+ c.parsePos by rwa [h] at hrest) rfl⟩
  · exact Raises.undefined _ _

theorem icx_skipBytes_locates (len : Nat) : Locates (m := .parseText) (Only info) (Icx.skipBytes len info) :=
  .ite (.throwX ⟨rfl, rfl⟩) (.step fun _ => .same (List.suffix_refl _) rfl)

variable {m : Mode}

theorem uint_locates (var : Variable) (w : Nat) (val : var.Word) : Locates (Only info) (Iox.uint (m := m) var w val info) := by
  cases m with
  | parseBinary =>
    cases var with
    | uint8 => exact ibx_uint8_locates w
    | uint16 => exact (ibx_uint32_locates w).bind fun _ => .pure _
    | uint32 => exact ibx_uint32_locates w
  | parseText =>
    cases var with
    | uint8 => exact (icx_uint_locates w).bind fun _ => .pure _
    | uint16 => exact (icx_uint_locates w).bind fun _ => .pure _
    | uint32 => exact icx_uint_locates w
  | constructBinary =>
    cases var with
    | uint8 => exact (obx_uint8_locates w val).bind fun _ => .pure _
    | uint16 => exact (obx_uint16_locates w val).bind fun _ => .pure _
    | uint32 => exact (obx_uint32_locates w val).bind fun _ => .pure _
  | constructText =>
    cases var with
    | uint8 => exact (ocx_uint_locates w val.toUInt32).bind fun _ => .pure _
    | uint16 => exact (ocx_uint_locates w val.toUInt32).bind fun _ => .pure _
    | uint32 => exact (ocx_uint_locates w val).bind fun _ => .pure _

theorem require_locates (var : Variable) (w : Nat) (val : var.Word) :
    Locates (Only info) (Iox.require (m := m) (fun v => Iox.uint var w v info) val info) :=
  (uint_locates var w val).bind fun _ => .throwIf ⟨rfl, rfl⟩

theorem ibx_takeBytes_locates (len : Nat) : Locates (m := .parseBinary) names (Ibx.takeBytes len) :=
  .step fun _ => .same trivial rfl

theorem obx_putBytes_locates (str : List UInt8) : Locates (m := .constructBinary) names (Obx.putBytes str) :=
  .step (fun _ => .same trivial rfl)

theorem produceString_locates (str : List UInt8) : Locates (m := .constructText) (Only info) (Ocx.produceString str info) :=
  .ite (.throwX ⟨rfl, rfl⟩) (.ite .undefined (.step fun _ => .same trivial rfl))

theorem ocx_skipBytes_locates (len : Nat) : Locates (m := .constructText) names (Ocx.skipBytes len) :=
  .step fun _ => .same trivial rfl

theorem shortString_locates (str : List UInt8) : Locates (Only info) (Iox.shortStringIo (m := m) str info) := by
  have hnamed : Only info [] info := ⟨rfl, rfl⟩
  cases m with
  | parseBinary =>
    exact .ite (.throwX hnamed) ((ibx_uint8_locates 8).bind fun len => .ite (.throwX hnamed) (ibx_takeBytes_locates len.toNat))
  | parseText => exact parseString_locates.bind fun _ => (icx_skipBytes_locates _).bind fun _ => .pure _
  | constructBinary =>
    exact .ite (.throwX hnamed) (.ite (.throwX hnamed) (.ite (.throwX hnamed)
      ((obx_uint8_locates 8 _).bind fun _ => (obx_putBytes_locates _).bind fun _ => .pure _)))
  | constructText =>
    exact .ite (.throwX hnamed) (.ite (.throwX hnamed)
      ((produceString_locates _).bind fun _ => (ocx_skipBytes_locates _).bind fun _ => .pure _))

theorem fixedString_locates (numChars : Nat) (str : List UInt8) :
    Locates (Only info) (Iox.fixedStringIo numChars (m := m) str info) := by
  have hnamed : Only info [] info := ⟨rfl, rfl⟩
  cases m with
  | parseBinary => exact .ite (.throwX hnamed) (.ite (.throwX hnamed) (ibx_takeBytes_locates _))
  | parseText => exact parseString_locates.bind fun _ => (icx_skipBytes_locates _).bind fun _ => .pure _
  | constructBinary =>
    exact .ite (.throwX hnamed) (.ite (.throwX hnamed) (.ite (.throwX hnamed)
      ((obx_putBytes_locates _).bind fun _ => .pure _)))
  | constructText =>
    exact .ite (.throwX hnamed) (.ite (.throwX hnamed)
      ((produceString_locates _).bind fun _ => (ocx_skipBytes_locates _).bind fun _ => .pure _))

end Fields

end Mopa.Io
