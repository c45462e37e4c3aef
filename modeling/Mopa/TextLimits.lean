import Mopa.TextProgress

/-! The limits of blocks in text parsing. They hold in every run whose steps are within them and
start in the text; a string that is refused at the terminating zero ends behind it. -/
namespace Mopa.Io
open Outcome

namespace Operation

def info : Operation → Info
  | uint _ _ _ info => info
  | uintReq _ _ _ info => info
  | shortString _ info => info
  | fixedString _ _ info => info
  | namedBlockBegin _ info => info
  | namedBlockEnd info => info

def Looks : Operation → Ctx .parseText → Prop
  | shortString .., c => c.bitpos % 8 = 0
  | fixedString .., c => c.bitpos % 8 = 0
  | namedBlockEnd _, c => c.scopeStack ≠ []
  | _, _ => True

/-- Where the operation looks at the text, the text is not at its end; and what it reads is
within the limit. -/
structure Limited (op : Operation) (c : Ctx .parseText) : Prop where
  inText : op.Looks c → Terminated c.parsePos
  within : op.WithinLimit c

theorem parseText_avoids {op : Operation} (hn : op.info.Named) {c : IcCtx} (h : op.Looks c → Terminated c.parsePos) :
    Avoids .undefined (op.exec (m := .parseText)) c := by
  have hstring (size : List UInt8 → Nat) {info : Info} (hn : info.Named) (h : c.bitpos % 8 = 0 → Terminated c.parsePos) :
      Avoids .undefined (do
        let str ← Icx.parseString info
        Icx.skipBytes (size str) info
        return str : Icx (List UInt8)) c := by
    by_cases hal : c.bitpos % 8 = 0
    · exact avoids_of_ends (@Icx.string_ends (some info) hn size) (h hal)
    · exact .of_error (bind_error (show Icx.parseString info c = _ from if_pos hal)) (by rintro ⟨⟩)
  cases op with
  | uint var w val info => exact (avoids_of_ends (Icx.iox_uint_ends hn) (h trivial)).bind fun _ _ _ => .of_ok rfl
  | uintReq var w val info =>
    refine (avoids_of_ends (Icx.iox_uint_ends hn) (h trivial)).bind fun v d _ => ?_
    split
    · exact .of_error rfl (by rintro ⟨⟩)
    · exact .of_ok rfl
  | shortString str info => exact (hstring _ hn h).bind fun _ _ _ => .of_ok rfl
  | fixedString n str info => exact (hstring _ hn h).bind fun _ _ _ => .of_ok rfl
  | namedBlockBegin b info => exact avoids_of_ends (Icx.namedBlockBegin_ends hn) (h trivial)
  | namedBlockEnd info =>
    refine Avoids.bind ?_ fun _ _ _ => .of_ok rfl
    by_cases hempty : c.scopeStack = []
    · have hend : Icx.blockEnd info c = .error (.exception info "unmatched named_block_end") c := by
        unfold Icx.blockEnd
        rw [get_bind, hempty]
        rfl
      exact .of_error hend (by rintro ⟨⟩)
    · exact avoids_of_ends Icx.blockEnd_ends (h hempty)

def content : List Operation → Ctx .parseText → Nat
  | [], _ => 0
  | op :: ops, c =>
    (match op.exec (m := .parseText) c with
      | .ok .. => op.bits c
      | .error .. => 0) + content ops (reached (op.exec c))

section Runs
variable {ops : List Operation} {c d : IcCtx}

theorem steps_parseText (hn : ∀ op ∈ ops, op.info.Named) (h : Along Limited ops c) :
    Along (m := .parseText) (Steps IcCtx.asBinary (8 * 1000000)) ops c := by
  refine h.mono fun op hop c hc hnested d hd => ?_
  rw [(leads_iff (parseText_avoids (hn op hop) hc.inText)).mp hd]
  exact (step_text (hnested.good (by decide)) hc.within).1

theorem content_le (hnames : ∀ op ∈ ops, op.info.Named) (hn : c.asBinary.Nested (8 * 1000000)) (hc : Along Limited ops c)
    (h : Reaches (m := .parseText) ops c d) : c.bitpos + content ops c ≤ d.bitpos := by
  induction ops generalizing c with
  | nil =>
    cases h
    exact le_rfl
  | cons op ops ih =>
    obtain ⟨hstep, hok⟩ := step_text (hn.good (by decide)) hc.1.within
    obtain ⟨e, he, h⟩ := h
    have hnext := (leads_iff (parseText_avoids (hnames op List.mem_cons_self) hc.1.inText)).mp he
    have hrest := ih (fun op' hop' => hnames op' (List.mem_cons_of_mem _ hop')) (hnext ▸ hstep.nested hn) (hc.2 e he) h
    refine Nat.le_trans ?_ hrest
    rw [content, ← Nat.add_assoc, ← hnext]
    refine Nat.add_le_add_right ?_ _
    rw [hnext]
    cases hr : op.exec (m := .parseText) c with
    | ok u c' => exact (hok u c' hr).ge
    | error t c' =>
      rw [hr] at hstep
      exact hstep.forward

end Runs

end Operation

theorem IcCtx.create_nested (text : List UInt8) : (IcCtx.create text).asBinary.Nested (8 * 1000000) where
  pos := Nat.zero_le _
  limits := List.pairwise_pair.mpr le_rfl
  enters := by
    rintro s ⟨⟩

/-- As long as what is read is in the text and within the limit, text parsing keeps the position
within it, and what was read up to the end of a block is no more than the length that stood in
front. -/
theorem text_block_limits {text : List UInt8} {pre : List Operation} (hpre : ∀ op ∈ pre, op.info.Named) {c : IcCtx}
    (hc : Operation.Reaches (m := .parseText) pre (IcCtx.create text) c) :
    (Operation.Along Operation.Limited pre (IcCtx.create text) → c.bitpos ≤ c.bitlimit) ∧
    ∀ (b : Nat) (info endInfo : Info) (ops : List Operation) (c0 c1 c2 c3 : IcCtx) (length n : Nat),
      (∀ op ∈ ops, op.info.Named) →
      Operation.Along Operation.Limited (pre ++ Operation.namedBlockBegin b info :: ops) (IcCtx.create text) →
      Icx.readUint b info c = .ok length c0 →
      Iox.namedBlockBegin (m := .parseText) b info c = .ok () c1 →
      (∀ l, l <+: ops → ∀ d : IcCtx, Operation.Reaches (m := .parseText) l c1 d →
        c.scopeStack.length < d.scopeStack.length) →
      Operation.Reaches (m := .parseText) ops c1 c2 →
      Iox.namedBlockEnd (m := .parseText) endInfo c2 = .ok n c3 →
      c3.scopeStack.length = c.scopeStack.length →
      n ≤ length ∧ Operation.content ops c1 ≤ 8 * n := by
  have hn (h : Operation.Along Operation.Limited pre (IcCtx.create text)) : c.asBinary.Nested (8 * 1000000) :=
    Operation.nested_of_steps (Operation.steps_parseText hpre h) (IcCtx.create_nested text) hc
  refine ⟨fun h => (hn h).pos, ?_⟩
  intro b info endInfo ops c0 c1 c2 c3 length n hops hall h0 h1 hopen hc2 h3 hdepth
  have hn := hn hall.left
  have hall := hall.right hc
  obtain ⟨hstep, hok⟩ := icx_namedBlockBegin_step (hn.good (by decide)) hall.1.within
  obtain ⟨-, hstack1, length', c0', h0', hlimit1⟩ := hok () c1 h1
  rw [h0] at h0'
  cases h0'
  have hn1 : c1.asBinary.Nested (8 * 1000000) := by
    have hstep := hstep.nested hn
    rwa [show Icx.namedBlockBegin b info c = .ok () c1 from h1] at hstep
  have hall : Operation.Along Operation.Limited ops c1 :=
    hall.2 c1 ((@Operation.leads_ok .parseText (.namedBlockBegin b info) _ _ _ _ h1).mpr rfl)
  have hsteps := Operation.steps_parseText hops hall
  have hin2 := Operation.inside_of_steps hsteps hn1 (.refl _) (fun l hl d hd => by
    show c1.scopeStack.length ≤ d.scopeStack.length
    rw [hstack1]
    exact hopen l hl d hd) hc2
  have hn2 := Operation.nested_of_steps hsteps hn1 hc2
  have hcontent := Operation.content_le hops hn1 hall hc2
  obtain ⟨-, s, hstack2, hlen⟩ := (icx_blockEnd_step (hn2.good (by decide))).2 n c3 h3
  -- the block that ends is the one that was entered
  have hlen2 : c2.scopeStack.length = c1.scopeStack.length := by
    rw [hstack2, hstack1, List.length_cons, List.length_cons, hdepth]
  obtain ⟨hstack, hlimit⟩ := hin2.eq hlen2
  have hstack : c2.scopeStack = c1.scopeStack := hstack
  have hlimit : c2.bitlimit = c1.bitlimit := hlimit
  rw [hstack2, hstack1] at hstack
  obtain ⟨rfl, -⟩ := List.cons.inj hstack
  have hpos1 : c1.bitpos = c.bitpos + b := (hok () c1 h1).1
  have hpos2 : c2.bitpos ≤ c2.bitlimit := hn2.pos
  have hbound : c2.bitlimit ≤ 8 * 1000000 := hn2.limit_le
  dsimp only at hlen
  rw [sub32_of_le (by omega) (by omega)] at hlen
  omega

theorem text_block_limits_one_byte : ∃ c1 c2 c3,
    Iox.namedBlockBegin (m := .parseText) 8 ⟨chars "len", 0⟩
      (IcCtx.create (chars "len:1\n\x7ba:5\n\x7d\n")) = .ok () c1 ∧
    Operation.Reaches (m := .parseText) [.uint .uint8 8 (0 : UInt8) ⟨chars "a", 0⟩] c1 c2 ∧
    Iox.namedBlockEnd (m := .parseText) ⟨chars "end", 0⟩ c2 = .ok 1 c3 ∧
    1 ≤ 1 ∧ Operation.content [.uint .uint8 8 (0 : UInt8) ⟨chars "a", 0⟩] c1 ≤ 8 * 1 := by
  obtain ⟨c0, h0⟩ := exists_ok_of_gives (show gives (Icx.readUint 8 ⟨chars "len", 0⟩
    (IcCtx.create (chars "len:1\n\x7ba:5\n\x7d\n"))) 1 = true by decide +kernel)
  obtain ⟨c1, h1⟩ := exists_ok_of_gives (show gives (Operation.exec (m := .parseText)
    (.namedBlockBegin 8 ⟨chars "len", 0⟩) (IcCtx.create (chars "len:1\n\x7ba:5\n\x7d\n"))) () = true by decide +kernel)
  have hc1 : c1 = reached (Operation.exec (m := .parseText) (.namedBlockBegin 8 ⟨chars "len", 0⟩)
    (IcCtx.create (chars "len:1\n\x7ba:5\n\x7d\n"))) := (congrArg reached h1).symm
  obtain ⟨c2, h2⟩ := exists_ok_of_gives (show gives (Operation.exec (m := .parseText)
      (.uint .uint8 8 (0 : UInt8) ⟨chars "a", 0⟩) c1) () = true by
    rw [hc1]
    decide +kernel)
  have hc2 : c2 = reached (Operation.exec (m := .parseText) (.uint .uint8 8 (0 : UInt8) ⟨chars "a", 0⟩) c1) :=
    (congrArg reached h2).symm
  rw [hc1] at hc2
  obtain ⟨c3, h3⟩ := exists_ok_of_gives (show gives (Iox.namedBlockEnd (m := .parseText) ⟨chars "end", 0⟩ c2) 1 = true by
    rw [hc2]
    decide +kernel)
  have hdepth : c3.scopeStack.length = 0 := by
    have hlen := congrArg (fun r => (reached r).scopeStack.length) h3
    rw [hc2] at hlen
    exact hlen.symm.trans (by decide +kernel)
  have hfield (d : IcCtx) :
      Operation.Leads (m := .parseText) (.uint .uint8 8 (0 : UInt8) ⟨chars "a", 0⟩) c1 d ↔ d = c2 :=
    Operation.leads_ok (m := .parseText) h2
  have hrun : Operation.Reaches (m := .parseText) [.uint .uint8 8 (0 : UInt8) ⟨chars "a", 0⟩] c1 c2 :=
    ⟨c2, (hfield c2).mpr rfl, rfl⟩
  have hopen (l : List Operation) (hl : l <+: [.uint .uint8 8 (0 : UInt8) ⟨chars "a", 0⟩]) (d : IcCtx)
      (hd : Operation.Reaches (m := .parseText) l c1 d) : 0 < d.scopeStack.length := by
    obtain rfl | rfl := by simpa using (List.mem_inits _ _).mpr hl
    · cases hd
      rw [hc1]
      decide +kernel
    · obtain ⟨e, he, rfl⟩ := hd
      rw [(hfield _).mp he, hc2]
      decide +kernel
  have hall : Operation.Along Operation.Limited ([] ++ [.namedBlockBegin 8 ⟨chars "len", 0⟩,
      .uint .uint8 8 (0 : UInt8) ⟨chars "a", 0⟩]) (IcCtx.create (chars "len:1\n\x7ba:5\n\x7d\n")) := by
    refine ⟨⟨fun _ => terminated_append _, fun length c' h => ?_⟩, fun d hd => ⟨⟨fun _ => ?_, fun _ _ _ => ?_⟩,
      fun _ _ => trivial⟩⟩
    · cases h0.symm.trans h
      decide +kernel
    · rw [(Operation.leads_ok (m := .parseText) h1).mp hd, hc1]
      unfold Terminated
      decide +kernel
    · rw [(Operation.leads_ok (m := .parseText) h1).mp hd, hc1]
      decide +kernel
  have hnames : ∀ op ∈ [Operation.uint .uint8 8 (0 : UInt8) ⟨chars "a", 0⟩], op.info.Named := by
    intro op hop
    cases List.mem_singleton.mp hop
    exact (by decide : Info.Named ⟨chars "a", 0⟩)
  have h := (@text_block_limits _ [] (by simp) _ rfl).2 8 _ _ _ c0 c1 c2 c3 1 1 hnames hall h0 h1 hopen hrun h3 hdepth
  exact ⟨c1, c2, c3, h1, hrun, h3, h⟩

/-- A field of one byte in a block that is announced with no byte: the position passes the
limit, and the end of the block returns 1. -/
theorem text_block_overrun : ∃ c1 c2 c3,
    Iox.namedBlockBegin (m := .parseText) 8 ⟨chars "len", 0⟩
      (IcCtx.create (chars "len:0\n\x7ba:5\n\x7d\n")) = .ok () c1 ∧
    Operation.execAll (m := .parseText) [.uint .uint8 8 (0 : UInt8) ⟨chars "a", 0⟩] c1 = .ok () c2 ∧
    ¬ c2.bitpos ≤ c2.bitlimit ∧
    Iox.namedBlockEnd (m := .parseText) ⟨chars "end", 0⟩ c2 = .ok 1 c3 ∧
    (∃ c0, Icx.readUint 8 ⟨chars "len", 0⟩ (IcCtx.create (chars "len:0\n\x7ba:5\n\x7d\n")) = .ok 0 c0) ∧
    ¬ 1 ≤ 0 := by
  have hrun : gives (Iox.namedBlock (m := .parseText) 8 ⟨chars "len", 0⟩ ⟨chars "end", 0⟩ (do
      Operation.execAll [.uint .uint8 8 (0 : UInt8) ⟨chars "a", 0⟩]
      let c ← get
      return decide (c.bitpos ≤ c.bitlimit))
      (IcCtx.create (chars "len:0\n\x7ba:5\n\x7d\n"))) (1, false) = true := by decide +kernel
  have hnumber : gives (Icx.readUint 8 ⟨chars "len", 0⟩
      (IcCtx.create (chars "len:0\n\x7ba:5\n\x7d\n"))) 0 = true := by decide +kernel
  obtain ⟨c, h⟩ := exists_ok_of_gives hrun
  obtain ⟨_, c1, h1, h⟩ := bind_eq_ok.mp h
  obtain ⟨within, c2', hbody, h⟩ := bind_eq_ok.mp h
  obtain ⟨_, c2, h2, hbody⟩ := bind_eq_ok.mp hbody
  obtain ⟨_, c3, h3, h⟩ := bind_eq_ok.mp h
  cases hbody
  obtain ⟨hn, hwithin⟩ := Prod.mk.inj (EStateM.Result.ok.inj h).1
  cases hn
  exact ⟨c1, _, c3, h1, h2, of_decide_eq_false hwithin, h3, exists_ok_of_gives hnumber, by decide⟩

end Mopa.Io
