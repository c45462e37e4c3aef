import Mopa.TextSyntax
import Mopa.Lib.Progress

/-! Parsing comes to an end: each item of a list takes something of what is left to parse,
in binary and in text mode alike. -/
namespace Mopa.Io
open Outcome Progress

/-- A `mopa::Exception`. -/
def Halt.Thrown (e : Halt) : Prop := ∃ info message, e = .exception info message

theorem thrown_of_eq {σ α : Type} {x : EStateM Halt σ α} {c c' : σ} {info : Info} {message : String} {Q : α → σ → Prop}
    (h : x c = .error (.exception info message) c') :
    (∀ e c1, x c = .error e c1 → e.Thrown) ∧ ∀ a c1, x c = .ok a c1 → Q a c1 := by
  rw [h]
  refine ⟨fun e c1 he => ?_, fun a c1 ha => by cases ha⟩
  cases he
  exact ⟨info, message, rfl⟩

theorem returned_of_eq {σ α : Type} {x : EStateM Halt σ α} {c c' : σ} {a : α} {Q : α → σ → Prop}
    (h : x c = .ok a c') (hq : Q a c') :
    (∀ e c1, x c = .error e c1 → e.Thrown) ∧ ∀ a c1, x c = .ok a c1 → Q a c1 := by
  rw [h]
  refine ⟨fun e c1 he => (nomatch he), fun a c1 ha => ?_⟩
  cases ha
  exact hq

def Info.Named (info : Info) : Prop := 0 ∉ info.name

instance (info : Info) : Decidable info.Named := inferInstanceAs (Decidable (0 ∉ info.name))

def Format.Named : Format → Prop
  | .empty => True
  | .uint _ _ info => info.Named
  | .required _ _ _ info => info.Named
  | .shortString info => info.Named
  | .fixedString _ info => info.Named
  | .select _ info cases => info.Named ∧ ∀ n, (cases n).Named
  | .block _ info _ body => info.Named ∧ body.Named
  | .listBlock _ info _ body item => info.Named ∧ body.Named ∧ item.Named
  | .seq f g => f.Named ∧ g.Named

/-- Inside of the block that began at `c`: behind its end more than at `c` is used up. -/
def Closes {m : Mode} (rank : Rank Nat (Ctx m)) (c c1 : Ctx m) : Prop :=
  ∀ endInfo c2, rank.Valid 0 c2 → rank.Kept c1 c2 → rank.left c2 ≤ rank.left c1 →
    (∀ e c3, Iox.namedBlockEnd endInfo c2 = .error e c3 → e.Thrown) ∧
    ∀ n c3, Iox.namedBlockEnd endInfo c2 = .ok n c3 → rank.Valid 0 c3 ∧ rank.Kept c c3 ∧ rank.left c3 < rank.left c

/-- A mode of parsing with what its operations use up. Contexts are valid at an offset of the
position in its byte. -/
structure Parsing (m : Mode) where
  parsing : m.isParsing = true
  rank : Rank Nat (Ctx m)
  congr : ∀ {p q c}, p % 8 = q % 8 → rank.Valid p c → rank.Valid q c
  uint : ∀ {bound p w} (var : Variable) {val : var.Word} {info : Info}, 1 ≤ w → w ≤ var.width →
    (var = .uint32 → p % 8 + w ≤ 32) → info.Named →
    Ends rank Halt.Thrown bound p (p + w) (fun _ => 1) (Iox.uint var w val info)
  shortString : ∀ {bound p str} {info : Info}, p % 8 = 0 → info.Named →
    Ends rank Halt.Thrown bound p 0 (fun _ => 1) (Iox.shortStringIo str info)
  fixedString : ∀ {bound p n str} {info : Info}, p % 8 = 0 → n ≤ 255 → info.Named →
    Ends rank Halt.Thrown bound p 0 (fun _ => min 1 n) (Iox.fixedStringIo n str info)
  sizeLeft : ∀ {bound p}, Ends rank Halt.Thrown bound p p (fun _ => 0) Iox.blockSizeLeft
  bitpos : ∀ {bound p}, Ends rank Halt.Thrown bound p p (fun _ => 0) Iox.bitpos
  blockBegin : ∀ {p b c} {info : Info}, 1 ≤ b → b ≤ 16 → info.Named → rank.Valid p c →
    (∀ e c1, Iox.namedBlockBegin b info c = .error e c1 → e.Thrown) ∧
    ∀ u c1, Iox.namedBlockBegin b info c = .ok u c1 →
      rank.Valid (p + b) c1 ∧ rank.left c1 ≤ rank.left c ∧ Closes rank c c1

namespace Parsing
variable {m : Mode} {P : Parsing m} {α β : Type} {bound p q r : Nat} {k l : α → Nat}

abbrev Ends (P : Parsing m) (bound p q : Nat) (k : α → Nat) (x : Iox m α) : Prop :=
  Progress.Ends P.rank Halt.Thrown bound p q k x

theorem Ends.congr {p' q' : Nat} {x : Iox m α} (h : P.Ends bound p q k x) (hp : p' % 8 = p % 8) (hq : q' % 8 = q % 8) :
    P.Ends bound p' q' k x := by
  intro c hc hb
  have hx := h c (P.congr hp hc) hb
  cases hr : x c with
  | error e c' => exact endsFrom_error hr (hx.error hr)
  | ok a c' =>
    obtain ⟨hvalid, hrest⟩ := hx.ok hr
    exact endsFrom_ok hr ⟨P.congr hq.symm hvalid, hrest⟩

theorem throwX {x : Iox m α} {info : Info} {message : String} (hx : x = Io.throwX info message) :
    P.Ends bound p q k x := by
  rw [hx]
  exact fun c _ _ => endsFrom_error rfl ⟨info, message, rfl⟩

theorem throwIf {cond : Prop} [Decidable cond] {info : Info} {message : String} :
    P.Ends bound p p (fun _ => 0) (if cond then Io.throwX info message else pure PUnit.unit : Iox m PUnit) := by
  split
  · exact throwX rfl
  · exact .pure rfl

theorem guarded {cond : Prop} [Decidable cond] {info : Info} {message : String} {f : PUnit → Iox m α}
    (hf : P.Ends bound p q k (f ⟨⟩)) :
    P.Ends bound p q k (if cond then Io.throwX info message >>= f else f ⟨⟩) := by
  split
  · exact fun c _ _ => endsFrom_error rfl ⟨info, message, rfl⟩
  · exact hf

theorem get : P.Ends bound p p (fun _ => 0) (get : Iox m (Ctx m)) := fun c hc _ =>
  endsFrom_ok rfl ⟨hc, P.rank.refl c, le_rfl⟩

theorem require {w : Nat} (var : Variable) {val : var.Word} {info : Info} (h0 : 1 ≤ w) (hw : w ≤ var.width)
    (hal : var = .uint32 → p % 8 + w ≤ 32) (hn : info.Named) :
    P.Ends bound p (p + w) (fun _ => 1) (Iox.require (m := m) (fun v => Iox.uint var w v info) val info) := by
  refine (P.uint var h0 hw hal hn).bind fun v => ?_
  split
  · exact throwX rfl
  · exact .pure rfl

theorem items {fresh : α} {io : α → Iox m α} {fuel : Nat} (hio : P.Ends bound p p (fun _ => 1) (io fresh))
    (hfuel : bound < fuel) (list : List α) : P.Ends bound p p (fun _ => 0) (Iox.parseItems fresh io fuel list) := by
  have hloop (fuel : Nat) (list : List α) (c : Ctx m) (hc : P.rank.Valid p c) (hb : P.rank.left c ≤ bound)
      (hlt : P.rank.left c < fuel) :
      EndsFrom P.rank Halt.Thrown p (fun _ => 0) (Iox.parseItems fresh io fuel list) c := by
    induction fuel generalizing list c with
    | zero => exact absurd hlt (Nat.not_lt_zero _)
    | succ fuel ih =>
      refine (P.sizeLeft c hc hb).bind fun n c1 h1 => ?_
      obtain ⟨hc1, -, hleft1⟩ := (P.sizeLeft c hc hb).ok h1
      by_cases hn : n > 0
      · rw [if_pos hn]
        refine (hio c1 hc1 (by omega)).bind fun item c2 h2 => ?_
        obtain ⟨hc2, -, hleft2⟩ := (hio c1 hc1 (by omega)).ok h2
        exact ih (list ++ [item]) c2 hc2 (by omega) (by omega)
      · rw [if_neg hn]
        exact endsFrom_ok rfl ⟨hc1, P.rank.refl c1, le_rfl⟩
  exact fun c hc hb => hloop fuel list c hc hb (by omega)

/-- Inside of a block: the program ends the block and comes to an end. -/
def Inner (P : Parsing m) (bound p q : Nat) (k : α → Nat) (x : Iox m α) : Prop :=
  ∀ c c1, P.rank.left c ≤ bound → P.rank.left c1 ≤ P.rank.left c → P.rank.Valid p c1 → Closes P.rank c c1 →
    (∀ e c2, x c1 = .error e c2 → e.Thrown) ∧
    ∀ a c2, x c1 = .ok a c2 → P.rank.Valid q c2 ∧ P.rank.Kept c c2 ∧ P.rank.left c2 + k a ≤ P.rank.left c

theorem Inner.bind {x : Iox m α} {f : α → Iox m β} {k : α → Nat} {l : β → Nat} (hx : P.Ends bound p r k x)
    (hf : ∀ a, P.Inner bound r q l (f a)) : P.Inner bound p q l (x >>= f) := by
  intro c c1 hb hleft hc1 hcloses
  have hends := hx c1 hc1 (hleft.trans hb)
  cases h1 : x c1 with
  | error e c2 =>
    rw [bind_error h1]
    exact ⟨fun e' c' h => by cases h; exact hends.error h1, nofun⟩
  | ok a c2 =>
    obtain ⟨hc2, hkept2, hleft2⟩ := hends.ok h1
    rw [bind_ok h1]
    refine hf a c c2 hb (by omega) hc2 fun endInfo c3 hc3 hkept3 hleft3 => ?_
    exact hcloses endInfo c3 hc3 (P.rank.trans hkept2 hkept3) (by omega)

theorem Inner.guarded {cond : Prop} [Decidable cond] {info : Info} {message : String} {f : PUnit → Iox m α}
    (hf : P.Inner bound p q k (f ⟨⟩)) :
    P.Inner bound p q k (if cond then Io.throwX info message >>= f else f ⟨⟩) := by
  split
  · exact fun c c1 _ _ _ _ => thrown_of_eq rfl
  · exact hf

theorem Inner.close {endInfo : Info} {f : Nat → Iox m α} (hf : ∀ n, P.Ends bound 0 q (fun a => k a - 1) (f n)) :
    P.Inner bound 0 q k (Iox.namedBlockEnd endInfo >>= f) := by
  intro c c1 hb hleft hc1 hcloses
  obtain ⟨hend, hclosed⟩ := hcloses endInfo c1 hc1 (P.rank.refl c1) le_rfl
  cases h1 : Iox.namedBlockEnd endInfo c1 with
  | error e c2 =>
    rw [bind_error h1]
    exact ⟨fun e' c' h => by cases h; exact hend e c2 h1, nofun⟩
  | ok n c2 =>
    obtain ⟨hc2, hkept2, hleft2⟩ := hclosed n c2 h1
    have hrest := hf n c2 hc2 (by omega)
    rw [bind_ok h1]
    refine ⟨fun e c3 h3 => hrest.error h3, fun a c3 h3 => ?_⟩
    obtain ⟨hc3, hkept3, hleft3⟩ := hrest.ok h3
    exact ⟨hc3, P.rank.trans hkept2 hkept3, by omega⟩

theorem blockBegin_bind {b : Nat} {info : Info} {f : Unit → Iox m α} (h0 : 1 ≤ b) (hb : b ≤ 16) (hn : info.Named)
    (hf : P.Inner bound (p + b) q k (f ())) : P.Ends bound p q k (Iox.namedBlockBegin b info >>= f) := by
  intro c hc hbound
  obtain ⟨hbegin, hinside⟩ := P.blockBegin (b := b) h0 hb hn hc
  cases h1 : Iox.namedBlockBegin b info c with
  | error e c1 => exact endsFrom_error (bind_error h1) (hbegin e c1 h1)
  | ok u c1 =>
    obtain ⟨hc1, hleft1, hcloses⟩ := hinside u c1 h1
    obtain ⟨herror, hok⟩ := hf c c1 hbound hleft1 hc1 hcloses
    cases h2 : f () c1 with
    | error e c2 => exact endsFrom_error ((bind_ok h1).trans h2) (herror e c2 h2)
    | ok a c2 => exact endsFrom_ok ((bind_ok h1).trans h2) (hok a c2 h2)

theorem namedBlock {b : Nat} {info endInfo : Info} {body : Iox m α} (h0 : 1 ≤ b) (hb : b ≤ 16) (hn : info.Named)
    (hbody : P.Ends bound (p + b) 0 (fun _ => 0) body) :
    P.Ends bound p 0 (fun _ => 1) (Iox.namedBlock b info endInfo body) :=
  blockBegin_bind h0 hb hn (.bind hbody fun _ => .close fun _ => .pure rfl)

section Formats
variable {values : (f : Format) → f.Value} {fuel : Nat}

theorem format_ends (hfuel : bound < fuel) {f : Format} (hwf : f.Wf) (hn : f.Named) (hal : f.Aligned p q) (v : f.Value) :
    P.Ends bound p q (fun a => min 1 (f.size a)) (f.io (m := m) values fuel v) := by
  induction f generalizing p q with
  | empty => exact Ends.congr (p := p) (q := p) (.pure rfl) rfl hal
  | uint var w info =>
    exact Ends.congr (Progress.Ends.mono (P.uint var hwf.1 hwf.2 hal.1 hn) fun _ => Nat.min_le_left _ _) rfl hal.2
  | required var w val info =>
    exact Ends.congr (Progress.Ends.mono (require var hwf.1 hwf.2.1 hal.1 hn) fun _ => Nat.min_le_left _ _) rfl hal.2
  | shortString info =>
    exact Ends.congr (Progress.Ends.mono (P.shortString hal.1 hn) fun _ => Nat.min_le_left _ _) rfl hal.2
  | fixedString n info =>
    refine Ends.congr (Progress.Ends.mono (P.fixedString hal.1 hwf hn) fun _ => ?_) rfl hal.2
    show min 1 (8 * n) ≤ min 1 n
    omega
  | select w info cases ih =>
    obtain ⟨n, v⟩ := v
    refine (P.uint .uint8 hwf.1.1 hwf.1.2 (fun h => by cases h) hn.1).bind fun n' => ?_
    refine Progress.Ends.bind (ih n' (hwf.2 n') (hn.2 n') (hal n') _) fun v' => .pure ?_
    show min 1 _ - 1 - _ = 0
    omega
  | block b info endInfo body ih =>
    refine Ends.congr (Progress.Ends.mono (namedBlock hwf.1.1 hwf.1.2 hn.1 ?_) fun _ => Nat.min_le_left _ _) rfl hal.2.2
    exact Progress.Ends.mono (ih hwf.2 hn.2 hal.2.1 v.2) fun _ => Nat.zero_le _
  | listBlock b info endInfo body item ihb ihi =>
    obtain ⟨hb, hbody, hitem, hsize⟩ := hwf
    refine Ends.congr (Progress.Ends.mono (namedBlock hb.1 hb.2 hn.1 ?_) fun _ => Nat.min_le_left _ _) rfl hal.2.2
    refine Progress.Ends.bind (ihb hbody hn.2.1 hal.2.1.1 v.2.1) fun head => ?_
    refine Progress.Ends.bind (r := 0) (k := fun _ => 0) ?_ fun list => .pure (by omega)
    rw [Iox.vectorIo, if_pos P.parsing]
    refine items ?_ hfuel []
    refine Progress.Ends.mono (ihi hitem hn.2.2 hal.2.1.2 _) fun a => ?_
    exact Nat.le_min.mpr ⟨le_rfl, hsize a⟩
  | seq f g ihf ihg =>
    obtain ⟨r, hf, hg⟩ := hal
    refine Progress.Ends.bind (ihf hwf.1 hn.1 hf v.1) fun a => ?_
    refine Progress.Ends.bind (ihg hwf.2 hn.2 hg v.2) fun b => .pure ?_
    show min 1 (f.size a + g.size b) - min 1 (f.size a) - min 1 (g.size b) = 0
    omega

end Formats

end Parsing

/-- Each turn of a loop from `c` on starts in a context with `inner`, and if its item is
read, `turn` holds of the contexts in front of it and behind it. -/
def Iox.EachTurn {m : Mode} {α : Type} (turn : Ctx m → Ctx m → Prop) (inner : Ctx m → Prop) (item : Iox m α) :
    Nat → Ctx m → Prop
  | 0, _ => True
  | fuel+1, c => ∀ n c1, Iox.blockSizeLeft c = .ok n c1 → n > 0 →
    inner c1 ∧ ∀ a c2, item c1 = .ok a c2 → turn c1 c2 ∧ EachTurn turn inner item fuel c2

namespace Parsing
variable {m : Mode} (P : Parsing m) {bound : Nat}

def Turn (c c' : Ctx m) : Prop := P.rank.Valid 0 c ∧ P.rank.Valid 0 c' ∧ P.rank.Kept c c' ∧ P.rank.left c' < P.rank.left c

theorem eachTurn {α : Type} {turn : Ctx m → Ctx m → Prop} (hturn : ∀ c c', P.Turn c c' → turn c c') {item : Iox m α}
    {inner : Ctx m → Prop} (hitem : P.Ends bound 0 0 (fun _ => 1) item)
    (hinner : ∀ c, P.rank.Valid 0 c → P.rank.left c ≤ bound → inner c) (fuel : Nat) {c : Ctx m}
    (hc : P.rank.Valid 0 c) (hb : P.rank.left c ≤ bound) : Iox.EachTurn turn inner item fuel c := by
  induction fuel generalizing c with
  | zero => trivial
  | succ fuel ih =>
    intro n c1 h1 _
    obtain ⟨hc1, -, hleft1⟩ := (P.sizeLeft c hc hb).ok h1
    refine ⟨hinner c1 hc1 (by omega), fun a c2 h2 => ?_⟩
    obtain ⟨hc2, hkept2, hleft2⟩ := (hitem c1 hc1 (by omega)).ok h2
    exact ⟨hturn c1 c2 ⟨hc1, hc2, hkept2, by omega⟩, ih hc2 (by omega)⟩

theorem inside {α : Type} {p q r b : Nat} {info : Info} {k : α → Nat} {x : Iox m α} {a : α} {u : Unit} {c c1 c2 : Ctx m}
    (hx : P.Ends bound p q k x) (h0 : 1 ≤ b) (hb : b ≤ 16) (hn : info.Named) (hr : r % 8 = (q + b) % 8)
    (hc : P.rank.Valid p c) (hleft : P.rank.left c ≤ bound) (h1 : x c = .ok a c1)
    (h2 : Iox.namedBlockBegin b info c1 = .ok u c2) : P.rank.Valid r c2 ∧ P.rank.left c2 ≤ bound := by
  obtain ⟨hc1, -, hleft1⟩ := (hx c hc hleft).ok h1
  obtain ⟨hc2, hleft2, -⟩ := (P.blockBegin h0 hb hn hc1).2 u c2 h2
  exact ⟨P.congr hr.symm hc2, by omega⟩

end Parsing

end Mopa.Io
