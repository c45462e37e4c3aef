import Mopa.TextConstruction

/-! Lengths of blocks in text construction. The beginning of a block moves the position
without a check and, unlike in binary mode, its end checks nothing either. -/
namespace Mopa.Io
open Outcome

/-- Widths are those of the variables, and lengths of blocks have up to 16 bits. -/
def Operation.Sized : Operation → Prop
  | uint var w _ _ => 1 ≤ w ∧ w ≤ var.width
  | uintReq var w _ _ => 1 ≤ w ∧ w ≤ var.width
  | shortString .. => True
  | fixedString .. => True
  | namedBlockBegin b _ => 1 ≤ b ∧ b ≤ 16
  | namedBlockEnd _ => True

/-- The length of a block that begins has room, and the size of a string does not wrap
the position. -/
def Operation.HasRoom : Operation → Ctx .constructText → Prop
  | fixedString _ str _, c => c.bitpos + 8 * str.length < 2^32
  | namedBlockBegin b _, c => c.bitpos + b ≤ c.bitlimit
  | _, _ => True

namespace OcCtx

structure Moved (c c' : OcCtx) : Prop where
  stack : c'.scopeStack = c.scopeStack
  limit : c'.bitlimit = c.bitlimit
  forward : c.bitpos ≤ c'.bitpos
  within : c'.bitpos ≤ c.bitlimit

theorem Moved.trans {c c' c'' : OcCtx} (h : c.Moved c') (h' : c'.Moved c'') : c.Moved c'' :=
  ⟨h'.stack.trans h.stack, h'.limit.trans h.limit, h.forward.trans h'.forward, h.limit ▸ h'.within⟩

/-- The position is within the limit, and limits are those of nested blocks. -/
structure Nested (c : OcCtx) : Prop where
  pos : c.bitpos ≤ c.bitlimit
  limits : ((c.bitlimit :: c.scopeStack.map OScope.bitlimitAtEnter) ++ [8 * 1000000]).Pairwise (· ≤ ·)

theorem Nested.create : OcCtx.create.Nested := ⟨by decide, by decide⟩

theorem Nested.limit_le {c : OcCtx} (h : c.Nested) : c.bitlimit ≤ 8 * 1000000 :=
  List.rel_of_pairwise_cons h.limits (List.mem_append_right _ List.mem_cons_self)

theorem Moved.nested {c c' : OcCtx} (h : c.Moved c') (hn : c.Nested) : c'.Nested :=
  ⟨h.limit ▸ h.within, by rw [h.stack, h.limit]; exact hn.limits⟩

end OcCtx

theorem ocx_uint_moved {c c' : OcCtx} (hn : c.Nested) {var : Variable} {w : Nat} {val a : var.Word} {info : Info}
    (hw : w ≤ var.width) (h : Iox.uint (m := .constructText) var w val info c = .ok a c') : c.Moved c' := by
  have hpos := hn.pos.trans hn.limit_le
  have hw32 : w ≤ 32 := hw.trans (by cases var <;> decide)
  have hwrite (x : UInt32) (u : Unit) (c1 : OcCtx) (h : Ocx.uint w x info c = .ok u c1) : c.Moved c1 := by
    rw [ocx_uint_apply, u32_of_lt (by omega)] at h
    split at h
    · cases h
    · next hroom =>
      split at h
      · cases h
      · cases h
        exact ⟨rfl, rfl, Nat.le_add_right _ _, not_lt.mp hroom⟩
  cases var with
  | uint8 =>
    obtain ⟨u, c1, h1, hr⟩ := bind_eq_ok.mp h
    cases hr
    exact hwrite _ _ _ h1
  | uint16 =>
    obtain ⟨u, c1, h1, hr⟩ := bind_eq_ok.mp h
    cases hr
    exact hwrite _ _ _ h1
  | uint32 =>
    obtain ⟨u, c1, h1, hr⟩ := bind_eq_ok.mp h
    cases hr
    exact hwrite _ _ _ h1

theorem ocx_shortString_moved {c c' : OcCtx} (hn : c.Nested) {str a : List UInt8} {info : Info}
    (h : Iox.shortStringIo (m := .constructText) str info c = .ok a c') : c.Moved c' := by
  have hpos := hn.pos.trans hn.limit_le
  rw [ocx_shortString_apply] at h
  split at h
  · cases h
  · next hlen =>
    rw [u32_of_lt (n := (u32 str.length + 1) * 8) (by omega), u32_of_lt (by omega)] at h
    split at h
    · cases h
    · next hroom =>
      split at h
      · cases h
      · cases h
        exact ⟨rfl, rfl, Nat.le_add_right _ _, not_lt.mp hroom⟩

theorem ocx_fixedString_moved {c c' : OcCtx} {n : Nat} {str a : List UInt8} {info : Info}
    (hroom : c.bitpos + 8 * str.length < 2^32)
    (h : Iox.fixedStringIo n (m := .constructText) str info c = .ok a c') : c.Moved c' := by
  rw [ocx_fixedString_apply, u32_of_lt (n := str.length) (by omega), u32_of_lt (n := str.length * 8) (by omega),
    u32_of_lt (by omega)] at h
  split at h
  · cases h
  · split at h
    · cases h
    · next hroom =>
      split at h
      · cases h
      · split at h
        · cases h
        · cases h
          exact ⟨rfl, rfl, Nat.le_add_right _ _, not_lt.mp hroom⟩

theorem ocx_namedBlockBegin_ok {c c' : OcCtx} (hn : c.Nested) {b : Nat} {info : Info} {u : Unit} (hb : b ≤ 16)
    (hroom : c.bitpos + b ≤ c.bitlimit) (h : Ocx.namedBlockBegin b info c = .ok u c') :
    (∃ pos, c'.scopeStack = ⟨info, c'.bitpos, c.bitlimit, pos⟩ :: c.scopeStack) ∧ c'.bitpos = c.bitpos + b ∧
      c'.bitpos ≤ c'.bitlimit ∧ c'.bitlimit ≤ c.bitlimit ∧ c'.bitlimit ≤ c'.bitpos + 8 * (2^b - 1) := by
  have hlimit := hn.limit_le
  have hpow : 2^b ≤ 2^16 := Nat.pow_le_pow_right (by decide) hb
  have hsize : u32 (u32 (2^b - 1) * 8) = 8 * (2^b - 1) := by
    rw [u32_of_lt (n := 2^b - 1) (by omega), u32_of_lt (by omega), Nat.mul_comm]
  have hinner : innerLimit c.bitlimit (c.bitpos + b) b = min c.bitlimit (c.bitpos + b + 8 * (2^b - 1)) := by
    rw [innerLimit_eq (by omega) (by omega), hsize, u32_of_lt (by omega)]
  rw [ocx_namedBlockBegin_apply, u32_of_lt (by omega), hinner] at h
  split at h
  · cases h
  · cases h
    refine ⟨⟨_, rfl⟩, rfl, ?_, Nat.min_le_left _ _, Nat.min_le_right _ _⟩
    exact Nat.le_min.mpr ⟨hroom, Nat.le_add_right _ _⟩

theorem ocx_namedBlockEnd_ok {c c' : OcCtx} {s : OScope} {outer : List OScope} (hs : c.scopeStack = s :: outer)
    {info : Info} {n : Nat} (h : Ocx.namedBlockEnd info c = .ok n c') :
    c'.scopeStack = outer ∧ c'.bitlimit = s.bitlimitAtEnter ∧ c'.bitpos = c.bitpos ∧
      n = sub32 c.bitpos s.bitposAtEnter / 8 := by
  rw [ocx_namedBlockEnd_apply hs] at h
  split at h
  · cases h
  · cases h
    exact ⟨rfl, rfl, rfl, rfl⟩

namespace Operation

theorem exec_moved {op : Operation} (hop : op.IsField) (hz : op.Sized) {c c' : OcCtx} (hn : c.Nested)
    (hroom : op.HasRoom c) {u : Unit} (h : op.exec (m := .constructText) c = .ok u c') : c.Moved c' := by
  cases op with
  | uint var w val info =>
    obtain ⟨a, c1, h, hr⟩ := bind_eq_ok.mp h
    cases hr
    exact ocx_uint_moved hn hz.2 h
  | uintReq var w val info =>
    obtain ⟨a, c1, h, hr⟩ := bind_eq_ok.mp h
    rw [if_neg fun h => by cases h.1] at hr
    cases hr
    exact ocx_uint_moved hn hz.2 h
  | shortString str info =>
    obtain ⟨a, c1, h, hr⟩ := bind_eq_ok.mp h
    cases hr
    exact ocx_shortString_moved hn h
  | fixedString n str info =>
    obtain ⟨a, c1, h, hr⟩ := bind_eq_ok.mp h
    cases hr
    exact ocx_fixedString_moved hroom h
  | namedBlockBegin b info => cases hop
  | namedBlockEnd info => cases hop

theorem exec_text_nested {op : Operation} (hz : op.Sized) {c c' : OcCtx} (hn : c.Nested) (hroom : op.HasRoom c)
    {u : Unit} (h : op.exec (m := .constructText) c = .ok u c') : c'.Nested := by
  by_cases hop : op.IsField
  · exact (exec_moved hop hz hn hroom h).nested hn
  · cases op with
    | namedBlockBegin b info =>
      obtain ⟨⟨pos, hstack⟩, -, hpos, hlimit, -⟩ := ocx_namedBlockBegin_ok hn hz.2 hroom h
      refine ⟨hpos, ?_⟩
      rw [hstack]
      exact List.pairwise_cons_cons_iff_of_trans.mpr ⟨hlimit, hn.limits⟩
    | namedBlockEnd info =>
      obtain ⟨n, c1, h, hr⟩ := bind_eq_ok.mp h
      cases hr
      cases hs : c.scopeStack with
      | nil =>
        have h : Ocx.namedBlockEnd info c = .ok n c' := h
        unfold Ocx.namedBlockEnd at h
        rw [get_bind, hs] at h
        cases h
      | cons s outer =>
        obtain ⟨hstack, hlimit, hpos, -⟩ := ocx_namedBlockEnd_ok hs h
        have hlimits := hn.limits
        rw [hs] at hlimits
        refine ⟨?_, by rw [hstack, hlimit]; exact hlimits.tail⟩
        rw [hpos, hlimit]
        exact hn.pos.trans (List.rel_of_pairwise_cons hlimits List.mem_cons_self)
    | uint => exact absurd trivial hop
    | uintReq => exact absurd trivial hop
    | shortString => exact absurd trivial hop
    | fixedString => exact absurd trivial hop

theorem execAll_text_nested {ops : List Operation} (hops : ∀ op ∈ ops, op.Sized) {c c' : OcCtx} (hn : c.Nested)
    (hroom : Throughout HasRoom ops c) {u : Unit} (h : execAll (m := .constructText) ops c = .ok u c') :
    c'.Nested := by
  induction ops generalizing c with
  | nil =>
    cases h
    exact hn
  | cons op ops ih =>
    obtain ⟨_, c1, h1, h2⟩ := bind_eq_ok.mp h
    exact ih (fun op hop => hops op (List.mem_cons_of_mem _ hop))
      (exec_text_nested (hops op List.mem_cons_self) hn hroom.1 h1) (hroom.2 c1 h1) h2

theorem Balanced.moved {ops : List Operation} (hb : Balanced ops) (hops : ∀ op ∈ ops, op.Sized) {c c' : OcCtx}
    (hn : c.Nested) (hroom : Throughout HasRoom ops c) {u : Unit}
    (h : execAll (m := .constructText) ops c = .ok u c') : c.Moved c' := by
  induction hb generalizing c c' u with
  | nil =>
    cases h
    exact ⟨rfl, rfl, le_rfl, hn.pos⟩
  | @field op ops hop _ ih =>
    obtain ⟨_, c1, h1, h2⟩ := bind_eq_ok.mp h
    have hmoved := exec_moved hop (hops op List.mem_cons_self) hn hroom.1 h1
    exact hmoved.trans (ih (fun op hop => hops op (List.mem_cons_of_mem _ hop)) (hmoved.nested hn)
      (hroom.2 c1 h1) h2)
  | @block body ops b info endInfo hbody hrest ihb iho =>
    obtain ⟨_, c1, h1, h⟩ := bind_eq_ok.mp h
    have hroom1 := hroom.2 c1 h1
    have hz := hops _ List.mem_cons_self
    obtain ⟨⟨pos, hstack⟩, hpos, -, -, -⟩ := ocx_namedBlockBegin_ok hn hz.2 hroom.1 h1
    rw [execAll_append] at h
    obtain ⟨_, c2, h2, h⟩ := bind_eq_ok.mp h
    have hmoved := ihb (fun op hop => hops op (List.mem_cons_of_mem _ (List.mem_append_left _ hop)))
      (exec_text_nested hz hn hroom.1 h1) hroom1.left h2
    have hroom2 := hroom1.append h2
    obtain ⟨_, c3, h3, h⟩ := bind_eq_ok.mp h
    have hn2 := hmoved.nested (exec_text_nested hz hn hroom.1 h1)
    obtain ⟨n, c4, h4, hr⟩ := bind_eq_ok.mp h3
    cases hr
    obtain ⟨hstack3, hlimit3, hpos3, -⟩ := ocx_namedBlockEnd_ok (hmoved.stack.trans hstack) h4
    have hn3 : c3.Nested := @exec_text_nested (.namedBlockEnd endInfo) trivial _ _ hn2 hroom2.1 _ h3
    have hclosed : c.Moved c3 := ⟨hstack3, hlimit3, by
      rw [hpos3]
      exact (Nat.le_add_right _ _).trans (hpos.ge.trans hmoved.forward), hn3.pos.trans hlimit3.le⟩
    exact hclosed.trans (iho (fun op hop =>
      hops op (List.mem_cons_of_mem _ (List.mem_append_right _ (List.mem_cons_of_mem _ hop)))) hn3
      (hroom2.2 c3 h3) h)

end Operation

/-- As long as every length of a block has room when the block begins, the end of a block
returns no more than its length can hold. -/
theorem text_block_lengths {pre body : List Operation} {b : Nat} {info endInfo : Info} {c c1 c2 c3 : OcCtx} {n : Nat}
    (hops : ∀ op ∈ pre ++ Operation.namedBlockBegin b info :: body, op.Sized) (hbody : Operation.Balanced body)
    (hroom : Operation.Throughout Operation.HasRoom (pre ++ Operation.namedBlockBegin b info :: body) OcCtx.create)
    (hpre : Operation.execAll (m := .constructText) pre OcCtx.create = .ok () c)
    (h1 : Iox.namedBlockBegin (m := .constructText) b info c = .ok () c1)
    (h2 : Operation.execAll (m := .constructText) body c1 = .ok () c2)
    (h3 : Iox.namedBlockEnd (m := .constructText) endInfo c2 = .ok n c3) : n ≤ 2^b - 1 := by
  have hn := Operation.execAll_text_nested (fun op hop => hops op (List.mem_append_left _ hop)) .create
    hroom.left hpre
  have hroom := hroom.append hpre
  have hz : 1 ≤ b ∧ b ≤ 16 := hops _ (List.mem_append_right _ List.mem_cons_self)
  obtain ⟨⟨pos, hstack⟩, -, -, hlimit, hmax⟩ := ocx_namedBlockBegin_ok hn hz.2 hroom.1 h1
  have hn1 : c1.Nested := @Operation.exec_text_nested (.namedBlockBegin b info) hz _ _ hn hroom.1 _ h1
  have hmoved := hbody.moved (fun op hop => hops op (List.mem_append_right _ (List.mem_cons_of_mem _ hop))) hn1
    (hroom.2 c1 h1) h2
  obtain ⟨-, -, -, rfl⟩ := ocx_namedBlockEnd_ok (hmoved.stack.trans hstack) h3
  have hwithin := hmoved.within
  have hbound := hn1.limit_le
  rw [sub32_of_le hmoved.forward (by omega)]
  omega

theorem text_block_lengths_one_byte : ∃ c1 c2 c3,
    Iox.namedBlockBegin (m := .constructText) 8 ⟨chars "len", 0⟩ OcCtx.create = .ok () c1 ∧
    Operation.execAll (m := .constructText)
      [.namedBlockBegin 8 ⟨chars "inner", 0⟩, .namedBlockEnd ⟨chars "end", 0⟩] c1 = .ok () c2 ∧
    Iox.namedBlockEnd (m := .constructText) ⟨chars "end", 0⟩ c2 = .ok 1 c3 ∧ 1 ≤ 2^8 - 1 := by
  have hrun : gives (Iox.namedBlock (m := .constructText) 8 ⟨chars "len", 0⟩ ⟨chars "end", 0⟩
      (Operation.execAll [.namedBlockBegin 8 ⟨chars "inner", 0⟩, .namedBlockEnd ⟨chars "end", 0⟩])
      OcCtx.create) (1, ()) = true := by decide +kernel
  obtain ⟨c, h⟩ := exists_ok_of_gives hrun
  obtain ⟨_, c1, h1, h⟩ := bind_eq_ok.mp h
  obtain ⟨_, c2, h2, h⟩ := bind_eq_ok.mp h
  obtain ⟨_, c3, h3, h⟩ := bind_eq_ok.mp h
  cases h
  refine ⟨c1, c2, _, h1, h2, h3, @text_block_lengths [] _ _ _ _ _ _ _ _ _ ?_ (.block 8 _ _ .nil .nil) ?_ rfl h1 h2 h3⟩
  · simp [Operation.Sized]
  · refine ⟨show 0 + 8 ≤ 8 * 1000000 by decide, fun c hc => ⟨?_, fun c' _ => ⟨trivial, fun _ _ => trivial⟩⟩⟩
    cases hc
    exact Nat.le_of_ble_eq_true rfl

/-- A block of one length byte that is full when an empty block begins in it gets 256 bytes. -/
theorem text_block_too_long : ∃ c1 c2 c3,
    Operation.Balanced [.fixedString 255 (List.replicate 255 65) ⟨chars "s", 0⟩,
      .namedBlockBegin 8 ⟨chars "inner", 0⟩, .namedBlockEnd ⟨chars "end", 0⟩] ∧
    Iox.namedBlockBegin (m := .constructText) 8 ⟨chars "len", 0⟩ OcCtx.create = .ok () c1 ∧
    Operation.execAll (m := .constructText) [.fixedString 255 (List.replicate 255 65) ⟨chars "s", 0⟩,
      .namedBlockBegin 8 ⟨chars "inner", 0⟩, .namedBlockEnd ⟨chars "end", 0⟩] c1 = .ok () c2 ∧
    Iox.namedBlockEnd (m := .constructText) ⟨chars "end", 0⟩ c2 = .ok 256 c3 ∧ ¬ 256 ≤ 2^8 - 1 := by
  have hrun : gives (Iox.namedBlock (m := .constructText) 8 ⟨chars "len", 0⟩ ⟨chars "end", 0⟩
      (Operation.execAll [.fixedString 255 (List.replicate 255 65) ⟨chars "s", 0⟩,
        .namedBlockBegin 8 ⟨chars "inner", 0⟩, .namedBlockEnd ⟨chars "end", 0⟩])
      OcCtx.create) (256, ()) = true := by decide +kernel
  obtain ⟨c, h⟩ := exists_ok_of_gives hrun
  obtain ⟨_, c1, h1, h⟩ := bind_eq_ok.mp h
  obtain ⟨_, c2, h2, h⟩ := bind_eq_ok.mp h
  obtain ⟨_, c3, h3, h⟩ := bind_eq_ok.mp h
  cases h
  exact ⟨c1, c2, _, .field trivial (.block 8 _ _ .nil .nil), h1, h2, h3, by decide⟩

end Mopa.Io
