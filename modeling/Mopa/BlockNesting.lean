import Mopa.Operations

/-! Named blocks in binary parsing: whatever operations do and wherever they throw, the
position stays within the limits of all open blocks, and a block that ends was read to
its last byte. -/
namespace Mopa.Io
open Bits Outcome

/-- Variables are wide enough, and lengths of blocks have up to 24 bits. -/
def Operation.Parses : Operation → Prop
  | uint var w _ _ => w ≤ var.width
  | uintReq var w _ _ => w ≤ var.width
  | shortString .. => True
  | fixedString .. => True
  | namedBlockBegin b _ => b ≤ 24
  | namedBlockEnd _ => True

namespace IbCtx

structure Moved (d d' : IbCtx) : Prop where
  stack : d'.scopeStack = d.scopeStack
  limit : d'.bitlimit = d.bitlimit
  forward : d.bitpos ≤ d'.bitpos
  within : d'.bitpos ≤ d.bitlimit

theorem Moved.refl {d : IbCtx} (h : d.Good) : d.Moved d := ⟨rfl, rfl, le_rfl, h.pos⟩

theorem Moved.trans {d d' d'' : IbCtx} (h : d.Moved d') (h' : d'.Moved d'') : d.Moved d'' :=
  ⟨h'.stack.trans h.stack, h'.limit.trans h.limit, h.forward.trans h'.forward, h.limit ▸ h'.within⟩

theorem Moved.good {d d' : IbCtx} (h : d.Moved d') (hd : d.Good) : d'.Good :=
  ⟨h.limit ▸ h.within, h.limit ▸ hd.limit⟩

theorem Moved.skip {d : IbCtx} {n : Nat} (h : d.bitpos + n ≤ d.bitlimit) : d.Moved (d.skip n) :=
  ⟨rfl, rfl, Nat.le_add_right _ _, h⟩

/-- What an operation does to the blocks: it moves along in one, enters one or leaves one. -/
inductive Step (d d' : IbCtx) : Prop
  | moved : d.Moved d' → Step d d'
  | entered (info : Info) : d'.scopeStack = ⟨info, d'.bitpos, d.bitlimit⟩ :: d.scopeStack →
      d'.bitpos % 8 = 0 → d.bitpos ≤ d'.bitpos → d'.bitpos ≤ d'.bitlimit → d'.bitlimit ≤ d.bitlimit → Step d d'
  | left (s : IScope) : d.scopeStack = s :: d'.scopeStack → d'.bitlimit = s.bitlimitAtEnter →
      d'.bitpos = d.bitpos → Step d d'

end IbCtx

/-- The program moves along in the innermost block, even if it throws. -/
def Moves {α : Type} (x : Ibx α) : Prop := ∀ d : IbCtx, d.Good → d.Moved (reached (x d))

namespace Moves
variable {α β : Type} {info : Info} {w : Nat}

protected theorem pure (a : α) : Moves (pure a : Ibx α) := fun _ hd => .refl hd

protected theorem throwX (message : String) : Moves (throwX info message : Ibx α) := fun _ hd => .refl hd

protected theorem bind {x : Ibx α} {f : α → Ibx β} (hx : Moves x) (hf : ∀ a, Moves (f a)) :
    Moves (x >>= f) := fun d hd =>
  reached_bind (hx d hd) fun a d' _ h => h.trans (hf a d' (h.good hd))

theorem uint8 (hw : w ≤ 8) : Moves (Ibx.uint8 w info) := by
  intro d hd
  rw [ibx_uint8_apply (hd.lt (by omega)) hw]
  split
  · next h => exact .skip h
  · exact .refl hd

theorem uint32 : Moves (Ibx.uint32 w info) := by
  intro d hd
  by_cases hspan : d.bitpos % 8 + w ≤ 32
  · rw [ibx_uint32_apply (hd.lt (by omega)) hspan]
    split
    · next h => exact .skip h
    · exact .refl hd
  · unfold Ibx.uint32
    split
    · exact .refl hd
    · unfold IbCtx.nocheckUint32
      dsimp only
      rw [if_neg hspan]
      exact .refl hd

theorem uint {var : Variable} {val : var.Word} (hw : w ≤ var.width) :
    Moves (Iox.uint (m := .parseBinary) var w val info) := by
  cases var with
  | uint8 => exact uint8 hw
  | uint16 => exact uint32.bind fun _ => .pure _
  | uint32 => exact uint32

theorem takeBytes {d : IbCtx} (hd : d.Good) {len : Nat} (h : d.bitpos + 8 * len ≤ d.bitlimit) :
    d.Moved (reached (Ibx.takeBytes len d)) := by
  rw [ibx_takeBytes_apply (hd.limit.trans_lt (by decide)) h]
  exact .skip h

theorem shortString (str : List UInt8) : Moves (Iox.shortStringIo (m := .parseBinary) str info) := by
  intro d hd
  rw [Reads.shortString_apply]
  split
  · exact .refl hd
  · refine Moves.bind (uint8 le_rfl) (fun len d hd => ?_) d hd
    have hpos := hd.pos
    have hlimit := hd.limit
    have hlen := len.toNat_lt
    rw [u32_of_lt (by omega)]
    split
    · exact .refl hd
    · exact takeBytes hd (by omega)

theorem fixedString (n : Nat) (str : List UInt8) : Moves (Iox.fixedStringIo n (m := .parseBinary) str info) := by
  intro d hd
  have hpos := hd.pos
  have hlimit := hd.limit
  have hlen : n % 256 < 256 := Nat.mod_lt _ (by decide)
  rw [Reads.fixedString_apply, u32_of_lt (by omega)]
  split
  · exact .refl hd
  · split
    · exact .refl hd
    · exact takeBytes hd (by omega)

end Moves

namespace Operation

theorem moves {op : Operation} (hop : op.IsField) (hp : op.Parses) : Moves (op.exec (m := .parseBinary)) := by
  cases op with
  | uint var w val info => exact (Moves.uint hp).bind fun _ => .pure _
  | uintReq var w val info =>
    refine (Moves.uint hp).bind fun a => ?_
    split
    · exact .throwX _
    · exact .pure _
  | shortString str info => exact (Moves.shortString str).bind fun _ => .pure _
  | fixedString n str info => exact (Moves.fixedString n str).bind fun _ => .pure _
  | namedBlockBegin b info => cases hop
  | namedBlockEnd info => cases hop

theorem step_namedBlockBegin {b : Nat} {info : Info} (hb : b ≤ 24) {d : IbCtx} (hd : d.Good) :
    d.Step (reached (Ibx.namedBlockBegin b info d)) := by
  have hpos := hd.pos.trans hd.limit
  have hpow : 2^b ≤ 2^24 := Nat.pow_le_pow_right (by decide) hb
  have hlt := d.next_lt b
  rw [ibx_namedBlockBegin_apply (by omega) (by omega)]
  split
  · next hroom =>
    split
    · exact .moved (.skip hroom)
    · next hal =>
      split
      · next hfit =>
        refine .entered info rfl (not_not.mp hal) (Nat.le_add_right _ _) ?_ hfit
        exact Nat.le_add_right _ _
      · exact .moved (.skip hroom)
  · exact .moved (.refl hd)

theorem step_namedBlockEnd {info : Info} {d : IbCtx} (hd : d.Good) :
    d.Step (reached (Ibx.blockEnd info d)) := by
  cases hs : d.scopeStack with
  | nil =>
    unfold Ibx.blockEnd
    rw [hs]
    exact .moved (.refl hd)
  | cons s outer =>
    rw [ibx_blockEnd_apply s outer hs]
    split
    · exact .moved (.refl hd)
    · split
      · exact .moved (.refl hd)
      · exact .left s hs rfl rfl

theorem step {op : Operation} (hp : op.Parses) {d : IbCtx} (hd : d.Good) :
    d.Step (reached (op.exec (m := .parseBinary) d)) := by
  by_cases hop : op.IsField
  · exact .moved (moves hop hp d hd)
  · cases op with
    | namedBlockBegin b info => exact step_namedBlockBegin hp hd
    | namedBlockEnd info =>
      refine reached_bind (P := d.Step) (step_namedBlockEnd hd) fun n d' _ h => ?_
      exact h
    | uint => exact absurd trivial hop
    | uintReq => exact absurd trivial hop
    | shortString => exact absurd trivial hop
    | fixedString => exact absurd trivial hop

end Operation

section Defined
variable {info : Info}

theorem ibx_uint_avoids (var : Variable) (w : Nat) (val : var.Word) (c : IbCtx) :
    Avoids .undefined (Iox.uint (m := .parseBinary) var w val info) c := by
  have h32 : Avoids .undefined (Ibx.uint32 w info) c := by
    intro c' h
    unfold Ibx.uint32 at h
    split at h
    · cases h
    · cases h
  cases var with
  | uint8 =>
    intro c' h
    replace h : Ibx.uint8 w info c = .error .undefined c' := h
    unfold Ibx.uint8 at h
    split at h
    · cases h
    · cases h
  | uint16 => exact h32.bind fun _ _ _ => .of_ok rfl
  | uint32 => exact h32

theorem ibx_blockBegin_avoids (length : Nat) (c : IbCtx) : Avoids .undefined (Ibx.blockBegin length info) c := by
  intro c' h
  unfold Ibx.blockBegin at h
  split at h
  · cases h
  · split at h
    · cases h
    · cases h

theorem ibx_namedBlockBegin_avoids (b : Nat) (c : IbCtx) : Avoids .undefined (Ibx.namedBlockBegin b info) c :=
  (ibx_uint_avoids .uint32 b (0 : UInt32) c).bind fun length c1 _ => ibx_blockBegin_avoids length.toNat c1

theorem ibx_blockEnd_avoids (c : IbCtx) : Avoids .undefined (Ibx.blockEnd info) c := by
  intro c' h
  unfold Ibx.blockEnd at h
  split at h
  · cases h
  · split at h
    · cases h
    · dsimp only at h
      split at h
      · cases h
      · cases h

theorem ibx_shortString_avoids (str : List UInt8) (c : IbCtx) :
    Avoids .undefined (Iox.shortStringIo (m := .parseBinary) str info) c := by
  by_cases hal : c.bitpos % 8 ≠ 0
  · exact .of_error (if_pos hal) (by rintro ⟨⟩)
  · have hrun := (Reads.shortString_apply str info c).trans (if_neg hal)
    have hlength : Avoids .undefined (Ibx.uint8 8 info) c := ibx_uint_avoids .uint8 8 (0 : UInt8) c
    intro c' h
    refine hlength.bind (fun len d _ d' h => ?_) c' (hrun.symm.trans h)
    split at h
    · cases h
    · cases h

theorem ibx_fixedString_avoids (n : Nat) (str : List UInt8) (c : IbCtx) :
    Avoids .undefined (Iox.fixedStringIo n (m := .parseBinary) str info) c := by
  intro c' h
  rw [Reads.fixedString_apply] at h
  split at h
  · cases h
  · split at h
    · cases h
    · cases h

theorem Operation.parseBinary_avoids (op : Operation) (c : IbCtx) : Avoids .undefined (op.exec (m := .parseBinary)) c := by
  cases op with
  | uint var w val info => exact (ibx_uint_avoids var w val c).bind fun _ _ _ => .of_ok rfl
  | uintReq var w val info =>
    refine (ibx_uint_avoids var w val c).bind fun v d _ => ?_
    split
    · exact .of_error rfl (by rintro ⟨⟩)
    · exact .of_ok rfl
  | shortString str info => exact (ibx_shortString_avoids str c).bind fun _ _ _ => .of_ok rfl
  | fixedString n str info => exact (ibx_fixedString_avoids n str c).bind fun _ _ _ => .of_ok rfl
  | namedBlockBegin b info => exact ibx_namedBlockBegin_avoids b c
  | namedBlockEnd info => exact (ibx_blockEnd_avoids c).bind fun _ _ _ => .of_ok rfl

end Defined

namespace IbCtx

def limits (d : IbCtx) : List Nat := d.bitlimit :: d.scopeStack.map IScope.bitlimitAtEnter

structure Nested (bound : Nat) (d : IbCtx) : Prop where
  pos : d.bitpos ≤ d.bitlimit
  limits : (d.limits ++ [bound]).Pairwise (· ≤ ·)
  enters : ∀ s ∈ d.scopeStack, s.bitposAtEnter % 8 = 0 ∧ s.bitposAtEnter ≤ d.bitpos

theorem Nested.create {data : Memory UInt8} {size : Nat} (hsize : size ≤ 2^28) :
    (IbCtx.create data size).Nested (8 * size) where
  pos := Nat.zero_le _
  limits := by
    refine List.pairwise_pair.mpr ?_
    show u32 (size * 8) ≤ 8 * size
    rw [u32_of_lt (by omega), Nat.mul_comm]
  enters := by
    rintro s ⟨⟩

theorem Nested.limit_le {bound : Nat} {d : IbCtx} (h : d.Nested bound) : d.bitlimit ≤ bound :=
  List.rel_of_pairwise_cons h.limits (List.mem_append_right _ List.mem_cons_self)

theorem Nested.le_enter {bound : Nat} {d : IbCtx} (h : d.Nested bound) {s : IScope} (hs : s ∈ d.scopeStack) :
    d.bitlimit ≤ s.bitlimitAtEnter :=
  List.rel_of_pairwise_cons h.limits (List.mem_append_left _ (List.mem_map_of_mem hs))

theorem Nested.good {bound : Nat} (hbound : bound ≤ 2^31) {d : IbCtx} (h : d.Nested bound) : d.Good :=
  ⟨h.pos, h.limit_le.trans hbound⟩

theorem Step.nested {bound : Nat} {d d' : IbCtx} (h : d.Step d') (hn : d.Nested bound) : d'.Nested bound := by
  cases h with
  | moved h =>
    refine ⟨h.limit ▸ h.within, by rw [IbCtx.limits, h.stack, h.limit]; exact hn.limits, fun s hs => ?_⟩
    obtain ⟨hal, hle⟩ := hn.enters s (h.stack ▸ hs)
    exact ⟨hal, hle.trans h.forward⟩
  | entered info hstack hal hforward hpos hlimit =>
    refine ⟨hpos, ?_, fun s hs => ?_⟩
    · rw [IbCtx.limits, hstack]
      exact List.pairwise_cons_cons_iff_of_trans.mpr ⟨hlimit, hn.limits⟩
    · rw [hstack] at hs
      obtain rfl | hs := List.mem_cons.mp hs
      · exact ⟨hal, le_rfl⟩
      · obtain ⟨hal', hle⟩ := hn.enters s hs
        exact ⟨hal', hle.trans hforward⟩
  | left s hstack hlimit hpos =>
    have hlimits := hn.limits
    rw [IbCtx.limits, hstack] at hlimits
    refine ⟨?_, by rw [IbCtx.limits, hlimit]; exact hlimits.tail, fun t ht => ?_⟩
    · rw [hpos, hlimit]
      exact hn.pos.trans (List.rel_of_pairwise_cons hlimits List.mem_cons_self)
    · rw [hpos]
      exact hn.enters t (by rw [hstack]; exact List.mem_cons_of_mem s ht)

theorem Step.forward {d d' : IbCtx} (h : d.Step d') : d.bitpos ≤ d'.bitpos := by
  cases h with
  | moved h => exact h.forward
  | entered _ _ _ hforward => exact hforward
  | left _ _ _ hpos => exact hpos.ge

structure Inside (d d' : IbCtx) : Prop where
  stack : d.scopeStack <:+ d'.scopeStack
  limits : d.limits <:+ d'.limits

theorem length_limits (d : IbCtx) : d.limits.length = d.scopeStack.length + 1 := by
  rw [limits, List.length_cons, List.length_map]

theorem Inside.refl (d : IbCtx) : d.Inside d := ⟨List.suffix_refl _, List.suffix_refl _⟩

theorem Step.inside {d d' d'' : IbCtx} (h : d'.Step d'') (hi : d.Inside d')
    (hlen : d.scopeStack.length ≤ d''.scopeStack.length) : d.Inside d'' := by
  obtain ⟨hs, hl⟩ := hi
  cases h with
  | moved h =>
    have hlimits : d''.limits = d'.limits := by rw [limits, limits, h.stack, h.limit]
    exact ⟨by rwa [h.stack], by rwa [hlimits]⟩
  | entered info hstack _ _ _ _ =>
    have hlimits : d''.limits = d''.bitlimit :: d'.limits := by rw [limits, limits, hstack]; rfl
    exact ⟨by rw [hstack]; exact hs.trans (List.suffix_cons _ _),
      by rw [hlimits]; exact hl.trans (List.suffix_cons _ _)⟩
  | left s hstack hlimit _ =>
    have hlimits : d'.limits = d'.bitlimit :: d''.limits := by
      rw [limits, limits, hstack, hlimit]
      rfl
    rw [hstack] at hs
    rw [hlimits] at hl
    refine ⟨(List.suffix_cons_iff.mp hs).resolve_left fun he => ?_,
      (List.suffix_cons_iff.mp hl).resolve_left fun he => ?_⟩
    · rw [he, List.length_cons] at hlen
      omega
    · have he := congrArg List.length he
      rw [List.length_cons, length_limits, length_limits] at he
      omega

theorem Inside.eq {d d' : IbCtx} (h : d.Inside d') (hlen : d'.scopeStack.length = d.scopeStack.length) :
    d'.scopeStack = d.scopeStack ∧ d'.bitlimit = d.bitlimit := by
  have hl := h.limits.eq_of_length (by rw [length_limits, length_limits, hlen])
  exact ⟨(h.stack.eq_of_length hlen.symm).symm, (List.cons.inj hl).1.symm⟩

theorem Inside.limit_le {bound : Nat} {d d' : IbCtx} (h : d.Inside d') (hn : d'.Nested bound) :
    d'.bitlimit ≤ d.bitlimit := by
  obtain he | hmem := List.mem_cons.mp (h.limits.subset (List.mem_cons_self : d.bitlimit ∈ d.limits))
  · exact he.ge
  · exact List.rel_of_pairwise_cons hn.limits (List.mem_append_left _ hmem)

end IbCtx

namespace Operation

section Runs
variable {m : Mode} {view : Ctx m → IbCtx} {bound : Nat} {ops : List Operation} {c d : Ctx m}

def Steps (view : Ctx m → IbCtx) (bound : Nat) (op : Operation) (c : Ctx m) : Prop :=
  (view c).Nested bound → ∀ d, op.Leads c d → (view c).Step (view d)

/-- In a run whose steps are those of blocks, the blocks stay nested. -/
theorem nested_of_steps (hsteps : Along (Steps view bound) ops c) (hn : (view c).Nested bound) (h : Reaches ops c d) :
    (view d).Nested bound := by
  induction ops generalizing c with
  | nil =>
    cases h
    exact hn
  | cons op ops ih =>
    obtain ⟨e, he, h⟩ := h
    exact ih (hsteps.2 e he) ((hsteps.1 hn e he).nested hn) h

theorem inside_of_steps {b : IbCtx} (hsteps : Along (Steps view bound) ops c) (hn : (view c).Nested bound)
    (hb : b.Inside (view c))
    (hopen : ∀ l, l <+: ops → ∀ e, Reaches l c e → b.scopeStack.length ≤ (view e).scopeStack.length)
    (h : Reaches ops c d) : b.Inside (view d) := by
  induction ops generalizing c with
  | nil =>
    cases h
    exact hb
  | cons op ops ih =>
    obtain ⟨e, he, h⟩ := h
    have hstep := hsteps.1 hn e he
    have hdepth := hopen [op] (List.prefix_append [op] ops) e ⟨e, he, rfl⟩
    refine ih (hsteps.2 e he) (hstep.nested hn) (hstep.inside hb hdepth) (fun l hl e' he' => ?_) h
    exact hopen (op :: l) (List.cons_prefix_cons.mpr ⟨rfl, hl⟩) e' ⟨e, he, he'⟩

end Runs

theorem steps_parseBinary {bound : Nat} (hbound : bound ≤ 2^31) {ops : List Operation} (hops : ∀ op ∈ ops, op.Parses)
    (c : IbCtx) : Along (m := .parseBinary) (Steps id bound) ops c := by
  refine Along.of_forall (m := .parseBinary) (fun op hop c hn d hd => ?_) c
  rw [(leads_iff (parseBinary_avoids op c)).mp hd]
  exact step (hops op hop) (hn.good hbound)

end Operation

/-- Blocks in binary parsing are nested after every sequence of operations, also after
exceptions. When `named_block_end` returns, the block was read to the length that stood
in front of it, and nothing within was read from behind it. -/
theorem block_nesting {data : Memory UInt8} {size : Nat} (hsize : size ≤ 2^28) {pre : List Operation}
    (hpre : ∀ op ∈ pre, op.Parses) {c : IbCtx}
    (hc : Operation.Reaches (m := .parseBinary) pre (IbCtx.create data size) c) :
    (c.bitpos ≤ c.bitlimit ∧ c.bitlimit ≤ 8 * size ∧ ∀ s ∈ c.scopeStack,
      c.bitlimit ≤ s.bitlimitAtEnter ∧ s.bitposAtEnter % 8 = 0 ∧ s.bitposAtEnter ≤ c.bitpos) ∧
    ∀ (b : Nat) (info endInfo : Info) (ops : List Operation) (c1 c2 c3 : IbCtx) (n : Nat),
      b ≤ 24 → (∀ op ∈ ops, op.Parses) → Iox.namedBlockBegin (m := .parseBinary) b info c = .ok () c1 →
      (∀ l, l <+: ops → ∀ d : IbCtx, Operation.Reaches (m := .parseBinary) l c1 d →
        c.scopeStack.length < d.scopeStack.length) →
      Operation.Reaches (m := .parseBinary) ops c1 c2 →
      Iox.namedBlockEnd (m := .parseBinary) endInfo c2 = .ok n c3 →
      c3.scopeStack.length = c.scopeStack.length →
      n = toNat (c.next b) ∧ c2.bitpos = c1.bitpos + 8 * n ∧ c3.bitpos = c2.bitpos ∧
        c3.bitlimit = c.bitlimit ∧ c3.scopeStack = c.scopeStack ∧
        ∀ l, l <+: ops → ∀ d : IbCtx, Operation.Reaches (m := .parseBinary) l c1 d → d.bitpos ≤ c1.bitpos + 8 * n := by
  have hbound : 8 * size ≤ 2^31 := by omega
  have hn : c.Nested (8 * size) := Operation.nested_of_steps (Operation.steps_parseBinary hbound hpre _) (.create hsize) hc
  refine ⟨⟨hn.pos, hn.limit_le, fun s hs => ⟨hn.le_enter hs, hn.enters s hs⟩⟩, ?_⟩
  intro b info endInfo ops c1 c2 c3 n hb hops h1 hopen hc2 h3 hlen
  have hlow := (hn.good hbound).pos.trans (hn.good hbound).limit
  have hpow : 2^b ≤ 2^24 := Nat.pow_le_pow_right (by decide) hb
  obtain ⟨length, hlength, hs, hal, hfit, rfl⟩ := ibx_namedBlockBegin_ok hb (by omega) h1
  have hstep : c.Step (reached (Ibx.namedBlockBegin b info c)) := Operation.step_namedBlockBegin hb (hn.good hbound)
  have hn1 : ((c.skip b).enter length info).Nested (8 * size) := by
    rw [show Ibx.namedBlockBegin b info c = .ok () ((c.skip b).enter length info) from h1] at hstep
    exact hstep.nested hn
  have hsteps (l : List Operation) (hl : l <+: ops) := Operation.steps_parseBinary hbound
    (fun op hop => hops op (hl.subset hop)) ((c.skip b).enter length info)
  have hinside (l : List Operation) (hl : l <+: ops) (d : IbCtx)
      (hd : Operation.Reaches (m := .parseBinary) l ((c.skip b).enter length info) d) :
      ((c.skip b).enter length info).Inside d :=
    Operation.inside_of_steps (hsteps l hl) hn1 (.refl _) (fun l' hl' => hopen l' (hl'.trans hl)) hd
  have hin2 := hinside ops (List.prefix_refl _) c2 hc2
  have hn2 : c2.Nested (8 * size) := Operation.nested_of_steps (hsteps ops (List.prefix_refl _)) hn1 hc2
  cases hstack : c2.scopeStack with
  | nil =>
    have hdepth := hin2.stack.length_le
    rw [hstack] at hdepth
    cases hdepth
  | cons s outer =>
    have h3 : Ibx.blockEnd endInfo c2 = .ok n c3 := h3
    rw [ibx_blockEnd_apply s outer hstack] at h3
    split at h3
    · cases h3
    · next hdone =>
      split at h3
      · cases h3
      · cases h3
        -- the block that ends is the one that was entered
        obtain ⟨hstack2, hlimit2⟩ := hin2.eq (by rw [hstack]; exact congrArg (· + 1) hlen)
        rw [hstack] at hstack2
        obtain ⟨rfl, rfl⟩ := List.cons.inj hstack2
        have hpos2 : c2.bitpos = c.bitpos + b + 8 * length :=
          Nat.le_antisymm (hn2.pos.trans hlimit2.le) (hlimit2.ge.trans (not_lt.mp hdone))
        have hlen2 : sub32 c2.bitpos (c.skip b).bitpos = 8 * length := by
          have := hn.limit_le
          rw [hpos2, IbCtx.skip_bitpos, sub32_of_le (Nat.le_add_right _ _) (by omega), Nat.add_sub_cancel_left]
        have hannounced : toNat (c.next b) = length := by
          rw [hs, toNat_ofNat_of_lt hlength]
        dsimp only
        rw [hlen2, Nat.mul_div_cancel_left length (by decide), hannounced]
        refine ⟨rfl, hpos2, rfl, rfl, rfl, fun l hl d hd => ?_⟩
        have hnl : d.Nested (8 * size) := Operation.nested_of_steps (hsteps l hl) hn1 hd
        exact hnl.pos.trans ((hinside l hl d hd).limit_le hnl)

theorem block_nesting_one_byte : ∃ c1 c2 c3,
    Iox.namedBlockBegin (m := .parseBinary) 8 ⟨chars "len", 0⟩ (IbCtx.create (fun _ => 1) 4) = .ok () c1 ∧
    Operation.Reaches (m := .parseBinary)
      [.uint .uint16 16 (0 : UInt16) ⟨chars "a", 0⟩, .uint .uint8 8 (0 : UInt8) ⟨chars "b", 0⟩] c1 c2 ∧
    Iox.namedBlockEnd (m := .parseBinary) ⟨chars "end", 0⟩ c2 = .ok 1 c3 ∧
    c3.bitpos = c1.bitpos + 8 * 1 ∧ c3.bitlimit = 32 ∧ c3.scopeStack = [] := by
  have h1 : Iox.namedBlockBegin (m := .parseBinary) 8 ⟨chars "len", 0⟩ (IbCtx.create (fun _ => 1) 4) =
    .ok () ⟨8, 16, fun _ => 1, [⟨⟨chars "len", 0⟩, 8, 32⟩]⟩ := rfl
  generalize hc1 : (⟨8, 16, fun _ => 1, [⟨⟨chars "len", 0⟩, 8, 32⟩]⟩ : IbCtx) = c1 at h1
  have ha (d : IbCtx) :
      Operation.Leads (m := .parseBinary) (.uint .uint16 16 (0 : UInt16) ⟨chars "a", 0⟩) c1 d ↔ d = c1 := by
    subst hc1
    exact Operation.leads_exception (m := .parseBinary) rfl
  have hb (d : IbCtx) : Operation.Leads (m := .parseBinary) (.uint .uint8 8 (0 : UInt8) ⟨chars "b", 0⟩) c1 d ↔
      d = { c1 with bitpos := 16 } := by
    subst hc1
    exact Operation.leads_ok (m := .parseBinary) rfl
  have hrun : Operation.Reaches (m := .parseBinary) [.uint .uint16 16 (0 : UInt16) ⟨chars "a", 0⟩,
      .uint .uint8 8 (0 : UInt8) ⟨chars "b", 0⟩] c1 { c1 with bitpos := 16 } :=
    ⟨c1, (ha c1).mpr rfl, _, (hb _).mpr rfl, rfl⟩
  have h3 : Iox.namedBlockEnd (m := .parseBinary) ⟨chars "end", 0⟩ { c1 with bitpos := 16 } =
      .ok 1 ⟨16, 32, fun _ => 1, []⟩ := by
    subst hc1
    rfl
  have hdepth : 0 < c1.scopeStack.length := by
    subst hc1
    decide
  have hopen (l : List Operation)
      (hl : l <+: [.uint .uint16 16 (0 : UInt16) ⟨chars "a", 0⟩, .uint .uint8 8 (0 : UInt8) ⟨chars "b", 0⟩]) (d : IbCtx)
      (hd : Operation.Reaches (m := .parseBinary) l c1 d) : 0 < d.scopeStack.length := by
    obtain rfl | rfl | rfl := by simpa using (List.mem_inits _ _).mpr hl
    · cases hd
      exact hdepth
    · obtain ⟨e, he, rfl⟩ := hd
      rw [(ha _).mp he]
      exact hdepth
    · obtain ⟨e, he, e', he', rfl⟩ := hd
      rw [(ha _).mp he] at he'
      rw [(hb _).mp he']
      exact hdepth
  obtain ⟨-, hpos, hpos3, hlimit, hstack, -⟩ := (block_nesting (by decide)
    (show ∀ op ∈ ([] : List Operation), op.Parses by simp) rfl).2 8 _ _ _ c1 _ _ 1 (by decide)
    (by simp [Operation.Parses, Variable.width]) h1 hopen hrun h3 rfl
  exact ⟨c1, _, _, h1, hrun, h3, hpos3.trans hpos, hlimit, hstack⟩

end Mopa.Io
