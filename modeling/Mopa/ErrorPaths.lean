import Mopa.ErrorPlaces
import Mopa.FormatBinary

/-! Exceptions of formats: under which blocks of the format they are thrown, and for which of its
names. -/
namespace Mopa.Io
open Outcome IcCtx

section Blocks
variable {m : Mode} {α : Type} {info : Info} {path : List Info} {names : List Info → Info → Prop}

theorem settles_throwX {c d : Ctx m} {ok : Ctx m → Ctx m → Prop} {message : String} (hu : Under [] c d) :
    Settles ok (Raises (Only info)) c (throwX info message d : EStateM.Result Halt (Ctx m) α) := by
  intro i message' he
  cases he
  exact ⟨[], ⟨rfl, rfl⟩, hu⟩

theorem Locates.opens {β : Type} {x : Iox m α} {f : α → Iox m β} (hx : Locates names x)
    (hf : ∀ a, Acts (Under path) (Raises names) (f a)) : Acts (Under path) (Raises names) (x >>= f) := by
  refine Acts.bind hx hf (fun s s' s'' h h' => ?_) (fun _ _ _ => id) fun e s s' s'' h hr info message he => ?_
  · exact List.append_nil path ▸ h.trans h'
  · obtain ⟨path', hn, hu⟩ := hr info message he
    exact ⟨path', hn, List.append_nil path' ▸ h.trans hu⟩

theorem ibx_blockBegin_opens (length : Nat) :
    Acts (Under (m := .parseBinary) [info]) (Raises (Only info)) (Ibx.blockBegin length info) := by
  intro c
  unfold Ibx.blockBegin
  split
  · exact settles_throwX (.refl c)
  · split
    · exact settles_throwX (.refl c)
    · exact ⟨trivial, [_], rfl, rfl⟩

theorem icx_blockBegin_opens (length : Nat) :
    Acts (Under (m := .parseText) [info]) (Raises (Only info)) (Icx.blockBegin length info) := by
  intro c
  unfold Icx.blockBegin
  rw [get_bind]
  split
  · exact settles_throwX (.refl c)
  · split
    · exact settles_throwX (.refl c)
    · have hbrace : Locates (m := .parseText) (Only info) Icx.enterScope := .map _ (expect_locates _)
      refine hbrace.opens (fun _ => ?_) c
      exact fun d => ⟨List.suffix_refl d.parsePos, [_], rfl, rfl⟩

theorem namedBlockBegin_opens (b : Nat) : Acts (Under [info]) (Raises (Only info)) (Iox.namedBlockBegin (m := m) b info) := by
  cases m with
  | parseBinary => exact (ibx_uint32_locates b).opens fun length => ibx_blockBegin_opens length.toNat
  | parseText => exact (icx_uint_locates b).opens fun length => icx_blockBegin_opens length.toNat
  | constructBinary =>
    intro c
    show Settles _ _ c (Obx.namedBlockBegin b info c)
    rw [obx_namedBlockBegin_apply]
    split
    · exact settles_throwX (.same trivial rfl)
    · exact ⟨trivial, [_], rfl, rfl⟩
  | constructText =>
    intro c
    show Settles _ _ c (Ocx.namedBlockBegin b info c)
    rw [ocx_namedBlockBegin_apply]
    split
    · exact settles_throwX (.same trivial rfl)
    · exact ⟨trivial, [_], rfl, rfl⟩

/-- An exception at the end of a block, with the block still open or not any more. -/
def RaisesAtEnd (info : Info) (halt : Halt) (c d : Ctx m) : Prop :=
  ∀ i message, halt = .exception i message → i = info ∧ (Under [] c d ∨ Closed c d)

theorem RaisesAtEnd.undefined (c d : Ctx m) : RaisesAtEnd info .undefined c d := by
  intro i message h
  cases h

theorem settles_throwX_atEnd {c d : Ctx m} {message : String} (h : Under [] c d ∨ Closed c d) :
    Settles Closed (RaisesAtEnd info) c (throwX info message d : EStateM.Result Halt (Ctx m) α) := by
  intro i message' he
  cases he
  exact ⟨rfl, h⟩

theorem ibx_blockEnd_closes : Acts (Closed (m := .parseBinary)) (RaisesAtEnd info) (Ibx.blockEnd info) := by
  intro c
  unfold Ibx.blockEnd
  split
  · exact settles_throwX_atEnd (.inl (.refl c))
  · next s outer hs =>
    split
    · exact settles_throwX_atEnd (.inl (.refl c))
    · dsimp only
      split
      · exact settles_throwX_atEnd (.inl (.refl c))
      · exact .of_eq (m := .parseBinary) trivial (congrArg (List.map IScope.place) hs) rfl

theorem icx_blockEnd_closes : Acts (Closed (m := .parseText)) (RaisesAtEnd info) (Icx.blockEnd info) := by
  intro c
  have hbrace : Locates (m := .parseText) (Only info) Icx.leaveScope := .map _ (expect_locates _)
  unfold Icx.blockEnd
  rw [get_bind]
  cases hs : c.scopeStack with
  | nil => exact settles_throwX_atEnd (.inl (.refl c))
  | cons s outer =>
    show Settles _ _ c ((Icx.leaveScope >>= _) c)
    cases h : Icx.leaveScope c with
    | error e d =>
      rw [bind_error h]
      intro i message he
      obtain ⟨path, ⟨rfl, rfl⟩, hu⟩ := hbrace.of_error h i message he
      exact ⟨rfl, .inl hu⟩
    | ok a d =>
      have hu := hbrace.of_ok h
      rw [bind_ok h, get_bind]
      split
      · exact settles_throwX_atEnd (.inl hu)
      · exact .of_eq (m := .parseText) hu.1 (congrArg (List.map IScope.place) hs) rfl

theorem obx_namedBlockEnd_closes : Acts (Closed (m := .constructBinary)) (RaisesAtEnd info) (Obx.namedBlockEnd info) := by
  intro c
  cases hs : c.scopeStack with
  | nil =>
    rw [obx_namedBlockEnd_nil hs]
    exact RaisesAtEnd.undefined _ _
  | cons s outer =>
    rw [obx_namedBlockEnd_apply info c s outer hs]
    split
    · exact settles_throwX_atEnd (.inl (.refl c))
    · -- the length is written when the block has ended
      have hclosed : Closed (m := .constructBinary) c
          { c with bitpos := s.positionForWrite, bitlimit := s.bitlimitAtEnter, scopeStack := outer } :=
        .of_eq trivial (congrArg (List.map OScope.place) hs) rfl
      cases h : Obx.uint32 (sub32 s.bitposAtEnter s.positionForWrite) (UInt32.ofNat (sub32 c.bitpos s.bitposAtEnter / 8)) info
          { c with bitpos := s.positionForWrite, bitlimit := s.bitlimitAtEnter, scopeStack := outer } with
      | ok u d =>
        rw [bind_ok h]
        have hu := (obx_uint32_locates _ _).of_ok h
        exact hclosed.trans (hu.trans (.same (m := .constructBinary) trivial rfl))
      | error e d =>
        rw [bind_error h]
        intro i message he
        obtain ⟨path, ⟨rfl, rfl⟩, hu⟩ := (obx_uint32_locates _ _).of_error h i message he
        exact ⟨rfl, .inr (hclosed.trans hu)⟩

theorem namedBlockEnd_closes : Acts (Closed (m := m)) (RaisesAtEnd info) (Iox.namedBlockEnd info) := by
  cases m with
  | parseBinary => exact ibx_blockEnd_closes
  | parseText => exact icx_blockEnd_closes
  | constructBinary => exact obx_namedBlockEnd_closes
  | constructText =>
    intro c
    show Settles _ _ c (Ocx.namedBlockEnd info c)
    cases hs : c.scopeStack with
    | nil =>
      unfold Ocx.namedBlockEnd
      rw [get_bind, hs]
      exact RaisesAtEnd.undefined _ _
    | cons s outer =>
      rw [ocx_namedBlockEnd_apply hs]
      split
      · exact settles_throwX_atEnd (.inl (.refl c))
      · exact .of_eq (m := .constructText) trivial (congrArg (List.map OScope.place) hs) rfl

/-- The names of what stands in a block, and of its beginning and end. -/
inductive InBlock (info endInfo : Info) (names : List Info → Info → Prop) : List Info → Info → Prop
  | begins : InBlock info endInfo names [] info
  | inside {path : List Info} {i : Info} : names path i → InBlock info endInfo names (path ++ [info]) i
  | ends : InBlock info endInfo names [info] endInfo
  | length : InBlock info endInfo names [] endInfo      -- binary construction, behind the block

/-- An exception behind the beginning of a block that ends in the program: with the block still
open, or behind its end. -/
def RaisesInside (names outer : List Info → Info → Prop) (halt : Halt) (c d : Ctx m) : Prop :=
  ∀ i message, halt = .exception i message →
    (∃ path, names path i ∧ Under path c d) ∨ ∃ d', Closed c d' ∧ ∃ path, outer path i ∧ Under path d' d

/-- The program behind the beginning of a block, which ends the block. -/
def EndsBlock (names outer : List Info → Info → Prop) (x : Iox m α) : Prop := Acts Closed (RaisesInside names outer) x

theorem Under.close {c d e : Ctx m} (h : Under [] c d) (h' : Closed d e) : Closed c e :=
  ⟨h.1.trans h'.1, fun place outer hc => h'.2 place outer (h.eq.trans hc)⟩

section EndsBlock
variable {β : Type} {outer : List Info → Info → Prop}

theorem EndsBlock.bind {x : Iox m α} {f : α → Iox m β} (hx : Locates names x) (hf : ∀ a, EndsBlock names outer (f a)) :
    EndsBlock names outer (x >>= f) := by
  refine Acts.bind hx hf (fun s s' s'' h h' => h.close h') (fun e s s' h i message he => .inl (h i message he)) ?_
  intro e s s' s'' h hr i message he
  rcases hr i message he with ⟨path, hn, hu⟩ | ⟨d, hd, hlate⟩
  · exact .inl ⟨path, hn, List.append_nil path ▸ h.trans hu⟩
  · exact .inr ⟨d, h.close hd, hlate⟩

theorem EndsBlock.mono {names' : List Info → Info → Prop} {x : Iox m β} (h : EndsBlock names outer x)
    (himp : ∀ path i, names path i → names' path i) : EndsBlock names' outer x :=
  Acts.mono h (fun _ _ => id) fun _ _ _ hr i message he =>
    (hr i message he).imp_left fun ⟨path, hn, hu⟩ => ⟨path, himp path i hn, hu⟩

theorem EndsBlock.seq {names' : List Info → Info → Prop} {x : Iox m α} {f : α → Iox m β} (hx : Locates names x)
    (hf : ∀ a, EndsBlock names' outer (f a)) : EndsBlock (fun path i => names path i ∨ names' path i) outer (x >>= f) :=
  .bind (hx.mono fun _ _ => .inl) fun a => (hf a).mono fun _ _ => .inr

theorem EndsBlock.guarded {cond : Prop} [Decidable cond] {i : Info} {message : String} {f : PUnit → Iox m β}
    (hf : EndsBlock names outer (f ⟨⟩)) :
    EndsBlock (fun path i' => Only i path i' ∨ names path i') outer (if cond then throwX i message >>= f else f ⟨⟩) := by
  split
  · intro c i' message' he
    cases he
    exact .inl ⟨[], .inl ⟨rfl, rfl⟩, .refl c⟩
  · exact hf.mono fun _ _ => .inr

theorem EndsBlock.ends {endInfo : Info} {f : Nat → Iox m β} (hn : names [] endInfo) (ho : outer [] endInfo)
    (hf : ∀ n, Locates outer (f n)) : EndsBlock names outer (Iox.namedBlockEnd endInfo >>= f) := by
  refine Acts.bind namedBlockEnd_closes hf (fun s s' s'' h h' => h.trans h') ?_ ?_
  · intro e s s' h i message he
    obtain ⟨rfl, hu | hclosed⟩ := h i message he
    · exact .inl ⟨[], hn, hu⟩
    · exact .inr ⟨s', hclosed, [], ho, .refl s'⟩
  · exact fun e s s' s'' h hr i message he => .inr ⟨s', h, hr i message he⟩

theorem Locates.block {names' : List Info → Info → Prop} {b : Nat} {f : Unit → Iox m β} (hn : names' [] info)
    (hin : ∀ path i, names path i → names' (path ++ [info]) i) (hout : ∀ path i, outer path i → names' path i)
    (hf : EndsBlock names outer (f ())) : Locates names' (Iox.namedBlockBegin b info >>= f) := by
  refine Acts.bind (namedBlockBegin_opens b) (fun _ => hf) (fun s s' s'' h h' => h.closed h') ?_ ?_
  · intro e s s' h i message he
    obtain ⟨path, ⟨rfl, rfl⟩, hu⟩ := h i message he
    exact ⟨[], hn, hu⟩
  · intro e s s' s'' h hr i message he
    rcases hr i message he with ⟨path, hn, hu⟩ | ⟨d, hd, path, hn, hu⟩
    · exact ⟨path ++ [info], hin path i hn, h.trans hu⟩
    · exact ⟨path, hout path i hn, List.append_nil path ▸ (h.closed hd).trans hu⟩

theorem namedBlock_locates {b : Nat} {endInfo : Info} {body : Iox m α} (hbody : Locates names body) :
    Locates (InBlock info endInfo names) (Iox.namedBlock b info endInfo body) := by
  have hinside : EndsBlock (fun path i => names path i ∨ Only endInfo path i) (Only endInfo) (body >>= fun a =>
      Iox.namedBlockEnd endInfo >>= fun length => pure (length, a)) :=
    .seq hbody fun a => .ends ⟨rfl, rfl⟩ ⟨rfl, rfl⟩ fun n => .pure (n, a)
  refine Locates.block .begins (fun path i h => ?_) (fun path i h => ?_) hinside
  · obtain h | ⟨rfl, rfl⟩ := h
    · exact .inside h
    · exact .ends
  · obtain ⟨rfl, rfl⟩ := h
    exact .length

end EndsBlock

theorem blockSizeLeft_locates : Locates names (Iox.blockSizeLeft (m := m)) := by
  cases m with
  | parseBinary => exact .step .refl
  | parseText =>
    refine skiptotoken_locates.bind fun more => ?_
    split
    · refine (charAt_locates 0).bind fun ch => ?_
      split
      · exact .pure _
      · exact fun c => .refl c
    · exact .pure _
  | constructBinary => exact .step .refl
  | constructText => exact .step .refl

theorem parseItems_locates {fresh : α} {io : α → Iox m α} (hio : Locates names (io fresh)) (fuel : Nat) (list : List α) :
    Locates names (Iox.parseItems fresh io fuel list) := by
  induction fuel generalizing list with
  | zero => exact fun c => Raises.fuel c c
  | succ fuel ih =>
    refine blockSizeLeft_locates.bind fun left => ?_
    split
    · exact hio.bind fun item => ih (list ++ [item])
    · exact .pure list

theorem constructItems_locates {io : α → Iox m α} (hio : ∀ item, Locates names (io item)) (list : List α) :
    Locates names (Iox.constructItems io list) := by
  induction list with
  | nil => exact .pure []
  | cons item list ih => exact (hio item).bind fun item => ih.bind fun list => .pure (item :: list)

theorem vectorIo_locates {fuel : Nat} {fresh : α} {io : α → Iox m α} (hio : ∀ item, Locates names (io item)) (list : List α) :
    Locates names (Iox.vectorIo fuel fresh io list) := by
  unfold Iox.vectorIo
  split
  · exact parseItems_locates (hio fresh) fuel []
  · exact constructItems_locates hio list

end Blocks

namespace Format

/-- What exceptions can be thrown for: the names of fields, and of beginnings and ends of blocks,
each with the blocks around it, innermost first. -/
def Names : Format → List Info → Info → Prop
  | empty => fun _ _ => False
  | uint _ _ info => Only info
  | required _ _ _ info => Only info
  | shortString info => Only info
  | fixedString _ info => Only info
  | select _ info cases => fun path i => Only info path i ∨ ∃ n, (cases n).Names path i
  | block _ info endInfo body => InBlock info endInfo body.Names
  | listBlock _ info endInfo body item => InBlock info endInfo fun path i => body.Names path i ∨ item.Names path i
  | seq f g => fun path i => f.Names path i ∨ g.Names path i

variable {m : Mode} {values : (f : Format) → f.Value} {fuel : Nat}

theorem io_locates (f : Format) (v : f.Value) : Locates f.Names (f.io (m := m) values fuel v) := by
  induction f with
  | empty => exact .pure _
  | uint var w info => exact uint_locates var w v
  | required var w val info => exact require_locates var w val
  | shortString info => exact shortString_locates v
  | fixedString numChars info => exact fixedString_locates numChars v
  | select w info cases ih =>
    obtain ⟨n, v⟩ := v
    exact (uint_locates .uint8 w n).seq fun n' => ((ih n' _).mono fun path i h => ⟨n', h⟩).last
  | block b info endInfo body ih => exact namedBlock_locates (ih v.2)
  | listBlock b info endInfo body item ihbody ihitem =>
    exact namedBlock_locates ((ihbody v.2.1).seq fun head => (vectorIo_locates ihitem v.2.2).last)
  | seq f g ihf ihg => exact (ihf v.1).seq fun a => (ihg v.2).last

/-- In every mode an exception is thrown for a name of the format, under the blocks that stand
around it in the format: its text lists them, innermost first, in front of those that were open
before, and in text parsing its line and column are where the rest of the text begins. -/
theorem exception_reported {f : Format} {v : f.Value} {text : List UInt8} {c d : Ctx m} (hc : ReadsFrom text c) {info : Info}
    {message : String} (h : f.io values fuel v c = .error (.exception info message) d) :
    ReadsFrom text d ∧ (report text info d).Marks text d ∧
      ∃ inner, f.Names (inner.map Place.info) info ∧ (report text info d).blocks = inner ++ openPlaces c :=
  (f.io_locates v).reported hc h

def cutBytes : Memory UInt8 := fun i => [0xb1, 6, 1, 0x11, 0x70, 9, 0x78, 0x79].getD i 0

theorem exception_reported_sample :
    (∃ d, sample.io zero 200 (m := .parseBinary) (zero sample) (IbCtx.create cutBytes 8) =
        .error (.exception ⟨chars "s", 0⟩ "String '%s' is %d length, only %d bits available") d ∧
      ∃ inner, sample.Names (inner.map Place.info) ⟨chars "s", 0⟩ ∧ (report [] ⟨chars "s", 0⟩ d).blocks = inner ++ []) ∧
    ∃ d, sample.io zero 200 (m := .parseText) (zero sample) (IcCtx.create (chars "\n x")) =
        .error (.exception ⟨chars "a", 0⟩ "'%s' expected") d ∧
      (report (chars "\n x" ++ [0]) ⟨chars "a", 0⟩ d).Marks (chars "\n x" ++ [0]) d := by
  have htext : ReadsFrom (m := .parseText) (chars "\n x" ++ [0]) (IcCtx.create (chars "\n x")) := List.suffix_refl _
  have hbinary : ReadsFrom (m := .parseBinary) [] (IbCtx.create cutBytes 8) := trivial
  obtain ⟨d, hd⟩ : ∃ d, sample.io zero 200 (m := .parseBinary) (zero sample) (IbCtx.create cutBytes 8) =
    .error (.exception ⟨chars "s", 0⟩ "String '%s' is %d length, only %d bits available") d := ⟨_, rfl⟩
  obtain ⟨d', hd'⟩ : ∃ d, sample.io zero 200 (m := .parseText) (zero sample) (IcCtx.create (chars "\n x")) =
    .error (.exception ⟨chars "a", 0⟩ "'%s' expected") d := ⟨_, rfl⟩
  exact ⟨⟨d, hd, (exception_reported hbinary hd).2.2⟩, d', hd', (exception_reported htext hd').2.1⟩

end Format

end Mopa.Io
