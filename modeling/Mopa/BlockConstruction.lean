import Mopa.Operations
import Mopa.FormatBinary

/-! Named blocks in binary construction. The beginning of a block moves the position
without a check; what is beyond the limit is noticed at the end of the block. -/
namespace Mopa.Io
open Bits Outcome

/-- Widths are those of the variables, values fit, strings are shorter than sums can
count and lengths of blocks have up to 16 bits. -/
def Operation.Constructs : Operation → Prop
  | uint var w val _ => 1 ≤ w ∧ w ≤ var.width ∧ Variable.toNat val < 2^w
  | uintReq var w val _ => 1 ≤ w ∧ w ≤ var.width ∧ Variable.toNat val < 2^w
  | shortString str _ => str.length < 2^28
  | fixedString _ str _ => str.length < 2^28
  | namedBlockBegin b _ => 1 ≤ b ∧ b ≤ 16
  | namedBlockEnd _ => True

namespace Operation

theorem Balanced.writes {ops : List Operation} (h : Balanced ops) (hops : ∀ op ∈ ops, op.Constructs) :
    ∃ e : Encoder Unit, Writes (execAll (m := .constructBinary) ops) e := by
  induction h with
  | nil => exact ⟨_, .pure ()⟩
  | @field op ops hop _ ih =>
    obtain ⟨e, he⟩ := ih fun op hop => hops op (List.mem_cons_of_mem _ hop)
    have hc := hops op List.mem_cons_self
    cases op with
    | uint var w val info =>
      exact ⟨_, ((Format.writes_uint hc.1 hc.2.1 hc.2.2 (by decide)).bind fun _ => .pure ()).bind fun _ => he⟩
    | uintReq var w val info =>
      refine ⟨_, ((Format.writes_uint hc.1 hc.2.1 hc.2.2 (by decide)).bind (g := fun _ => pure ()) fun a => ?_).bind fun _ => he⟩
      rw [if_neg fun h => by cases h.1]
      exact .pure ()
    | shortString str info => exact ⟨_, ((writes_shortString str info hc (by decide)).bind fun _ => .pure ()).bind fun _ => he⟩
    | fixedString n str info =>
      have hlen : str.length < 2^28 := hc
      exact ⟨_, ((writes_fixedString n str info hlen fun _ => by omega).bind fun _ => .pure ()).bind fun _ => he⟩
    | namedBlockBegin b info => cases hop
    | namedBlockEnd info => cases hop
  | @block body ops b info endInfo _ _ ihb iho =>
    obtain ⟨e, he⟩ := ihb fun op hop => hops op (List.mem_cons_of_mem _ (List.mem_append_left _ hop))
    obtain ⟨e', he'⟩ := iho fun op hop =>
      hops op (List.mem_cons_of_mem _ (List.mem_append_right _ (List.mem_cons_of_mem _ hop)))
    have hb : 1 ≤ b ∧ b ≤ 16 := hops _ List.mem_cons_self
    have hrun : execAll (m := .constructBinary) (namedBlockBegin b info :: (body ++ namedBlockEnd endInfo :: ops)) =
        (Iox.namedBlock b info endInfo (execAll body) >>= fun _ => execAll ops) := by
      show (Iox.namedBlockBegin b info >>= fun _ => execAll (body ++ namedBlockEnd endInfo :: ops)) = _
      rw [execAll_append]
      simp only [Iox.namedBlock, execAll, exec, bind_assoc, pure_bind]
    rw [hrun]
    exact ⟨_, (he.block hb.1 hb.2 info endInfo (by decide)).bind fun _ => he'⟩

end Operation

/-- The scope was entered beyond the limit of its block: its end throws. -/
def OScope.Beyond (s : OScope) : Prop :=
  u32 (s.positionForWrite + sub32 s.bitposAtEnter s.positionForWrite) > s.bitlimitAtEnter

namespace ObCtx

def limits (c : ObCtx) : List Nat := c.bitlimit :: c.scopeStack.map OScope.bitlimitAtEnter

/-- The position is within the limit, unless some block was entered beyond its own. -/
structure Nested (bound : Nat) (c : ObCtx) : Prop where
  limits : (c.limits ++ [bound]).Pairwise (· ≤ ·)
  word : c.bitpos < 2^32
  inside : (∀ s ∈ c.scopeStack, ¬ s.Beyond) → c.bitpos ≤ c.bitlimit

theorem Nested.create {data : Memory UInt8} {size : Nat} (hsize : size ≤ 2^27) :
    (ObCtx.create data size).Nested (8 * size) where
  limits := by
    refine List.pairwise_pair.mpr ?_
    show u32 (size * 8) ≤ 8 * size
    rw [u32_of_lt (by omega), Nat.mul_comm]
  word := show 0 < 2^32 by decide
  inside := fun _ => Nat.zero_le _

theorem Nested.limit_le {bound : Nat} {c : ObCtx} (h : c.Nested bound) : c.bitlimit ≤ bound :=
  List.rel_of_pairwise_cons h.limits (List.mem_append_right _ List.mem_cons_self)

end ObCtx

theorem u32_lt (n : Nat) : u32 n < 2^32 := Nat.mod_lt _ (by decide)

theorem u32_add_sub32 {a b : Nat} (ha : a < 2^32) (hb : b < 2^32) : u32 (a + sub32 b a) = b := by
  unfold u32 sub32
  omega

theorem sub32_add {a b : Nat} (ha : a < 2^32) (hb : b < 2^32) : sub32 (u32 (a+b)) a = b := by
  unfold u32 sub32
  omega

theorem obx_namedBlockBegin_ok {c c' : ObCtx} {b : Nat} {info : Info} {u : Unit} (hb : b ≤ 16)
    (hlimit : c.bitlimit ≤ 2^30) (h : Obx.namedBlockBegin b info c = .ok u c') :
    u32 (c.bitpos + b) % 8 = 0 ∧ ∃ limit, c' = { c with
      bitpos := u32 (c.bitpos + b)
      bitlimit := limit
      scopeStack := ⟨info, u32 (c.bitpos + b), c.bitlimit, c.bitpos⟩ :: c.scopeStack } ∧
    limit ≤ c.bitlimit ∧ (u32 (c.bitpos + b) ≤ c.bitlimit →
      u32 (c.bitpos + b) ≤ limit ∧ limit ≤ u32 (c.bitpos + b) + 8 * (2^b - 1)) := by
  have hpow : 2^b ≤ 2^16 := Nat.pow_le_pow_right (by decide) hb
  have hsize : u32 (u32 (2^b - 1) * 8) = 8 * (2^b - 1) := by
    rw [u32_of_lt (n := 2^b - 1) (by omega), u32_of_lt (by omega), Nat.mul_comm]
  have hword := u32_lt (c.bitpos + b)
  rw [obx_namedBlockBegin_apply, hsize] at h
  split at h
  · cases h
  · next hal =>
    cases h
    refine ⟨by omega, _, rfl, ?_⟩
    split
    · rw [u32_add_sub32 hword (by omega)]
      refine ⟨le_rfl, fun hin => ⟨hin, ?_⟩⟩
      next hover =>
      rw [u32_of_lt (n := u32 (c.bitpos + b) + 8 * (2^b - 1)) (by omega)] at hover
      omega
    · next hover =>
      refine ⟨by omega, fun hin => ?_⟩
      rw [u32_of_lt (n := u32 (c.bitpos + b) + 8 * (2^b - 1)) (by omega)]
      omega

theorem obx_uint_frame {var : Variable} {w : Nat} {val a : var.Word} {info : Info} {c c' : ObCtx}
    (h : Iox.uint (m := .constructBinary) var w val info c = .ok a c') :
    c'.scopeStack = c.scopeStack ∧ c'.bitlimit = c.bitlimit ∧ c'.bitpos = u32 (c.bitpos + w) ∧
      c'.bitpos ≤ c.bitlimit := by
  cases var with
  | uint8 =>
    obtain ⟨u, c1, h1, hr⟩ := bind_eq_ok.mp h
    cases hr
    exact obx_uint8_frame h1
  | uint16 =>
    obtain ⟨u, c1, h1, hr⟩ := bind_eq_ok.mp h
    cases hr
    exact obx_uint16_frame h1
  | uint32 =>
    obtain ⟨u, c1, h1, hr⟩ := bind_eq_ok.mp h
    cases hr
    exact obx_uint32_frame h1

theorem obx_shortString_frame {str a : List UInt8} {info : Info} {c c' : ObCtx} (hlen : str.length < 2^28)
    (h : Iox.shortStringIo (m := .constructBinary) str info c = .ok a c') :
    c'.scopeStack = c.scopeStack ∧ c'.bitlimit = c.bitlimit ∧
      c'.bitpos = u32 (c.bitpos + u32 ((str.length + 1) * 8)) ∧ c'.bitpos ≤ c.bitlimit ∧ c.bitpos % 8 = 0 ∧
      str.length ≤ 255 := by
  rw [obx_shortString_apply, u32_of_lt (n := str.length) (by omega)] at h
  split at h
  · cases h
  · next hal =>
    split at h
    · cases h
    · next hshort =>
      split at h
      · cases h
      · next hfit =>
        obtain ⟨u, c1, h1, h⟩ := bind_eq_ok.mp h
        obtain ⟨u, c2, h2, h⟩ := bind_eq_ok.mp h
        cases h
        obtain ⟨hstack, hlimit, hpos, -⟩ := obx_uint8_frame h1
        cases h2
        have hpos' : u32 (c1.bitpos + u32 ((str.take str.length).length * 8)) =
            u32 (c.bitpos + u32 ((str.length + 1) * 8)) := by
          rw [hpos, List.take_length]
          unfold u32
          omega
        exact ⟨hstack, hlimit, hpos', hpos'.trans_le (not_lt.mp hfit), not_not.mp hal, not_lt.mp hshort⟩

theorem obx_fixedString_frame {n : Nat} {str a : List UInt8} {info : Info} {c c' : ObCtx} (hlen : str.length < 2^28)
    (h : Iox.fixedStringIo n (m := .constructBinary) str info c = .ok a c') :
    c'.scopeStack = c.scopeStack ∧ c'.bitlimit = c.bitlimit ∧
      c'.bitpos = u32 (c.bitpos + u32 (str.length * 8)) ∧ c'.bitpos ≤ c.bitlimit ∧ c.bitpos % 8 = 0 ∧
      str.length = n := by
  rw [obx_fixedString_apply, u32_of_lt (n := str.length) (by omega)] at h
  split at h
  · cases h
  · next hal =>
    split at h
    · cases h
    · next hn =>
      split at h
      · cases h
      · next hfit =>
        obtain ⟨u, c1, h1, h⟩ := bind_eq_ok.mp h
        cases h
        cases h1
        have hpos' : u32 (c.bitpos + u32 ((str.take str.length).length * 8)) =
            u32 (c.bitpos + u32 (str.length * 8)) := by
          rw [List.take_length]
        exact ⟨rfl, rfl, hpos', hpos'.trans_le (not_lt.mp hfit), not_not.mp hal, not_not.mp hn⟩

namespace Operation

theorem exec_field {op : Operation} (hop : op.IsField) (hc : op.Constructs) {c c' : ObCtx} {u : Unit}
    (h : op.exec (m := .constructBinary) c = .ok u c') :
    c'.scopeStack = c.scopeStack ∧ c'.bitlimit = c.bitlimit ∧ c'.bitpos ≤ c.bitlimit := by
  cases op with
  | uint var w val info =>
    obtain ⟨a, c1, h, hr⟩ := bind_eq_ok.mp h
    cases hr
    obtain ⟨hstack, hlimit, -, hpos⟩ := obx_uint_frame h
    exact ⟨hstack, hlimit, hpos⟩
  | uintReq var w val info =>
    obtain ⟨a, c1, h, hr⟩ := bind_eq_ok.mp h
    rw [if_neg fun h => by cases h.1] at hr
    cases hr
    obtain ⟨hstack, hlimit, -, hpos⟩ := obx_uint_frame h
    exact ⟨hstack, hlimit, hpos⟩
  | shortString str info =>
    obtain ⟨a, c1, h, hr⟩ := bind_eq_ok.mp h
    cases hr
    obtain ⟨hstack, hlimit, -, hpos, -⟩ := obx_shortString_frame hc h
    exact ⟨hstack, hlimit, hpos⟩
  | fixedString n str info =>
    obtain ⟨a, c1, h, hr⟩ := bind_eq_ok.mp h
    cases hr
    obtain ⟨hstack, hlimit, -, hpos, -⟩ := obx_fixedString_frame hc h
    exact ⟨hstack, hlimit, hpos⟩
  | namedBlockBegin b info => cases hop
  | namedBlockEnd info => cases hop

theorem exec_nested {bound : Nat} (hbound : bound ≤ 2^30) {op : Operation} (hc : op.Constructs) {c c' : ObCtx}
    {u : Unit} (hn : c.Nested bound) (h : op.exec (m := .constructBinary) c = .ok u c') : c'.Nested bound := by
  have hlimit := hn.limit_le
  by_cases hop : op.IsField
  · obtain ⟨hstack, hl, hpos⟩ := exec_field hop hc h
    exact ⟨by rw [ObCtx.limits, hstack, hl]; exact hn.limits, by omega, fun _ => by rw [hl]; exact hpos⟩
  · cases op with
    | namedBlockBegin b info =>
      obtain ⟨-, limit, rfl, hle, hin⟩ := obx_namedBlockBegin_ok hc.2 (by omega) h
      refine ⟨List.pairwise_cons_cons_iff_of_trans.mpr ⟨hle, hn.limits⟩, u32_lt _, fun hall => (hin ?_).1⟩
      have hlast := hall _ List.mem_cons_self
      unfold OScope.Beyond at hlast
      dsimp only at hlast
      rw [u32_add_sub32 hn.word (u32_lt _)] at hlast
      omega
    | namedBlockEnd info =>
      obtain ⟨n, c1, h, hr⟩ := bind_eq_ok.mp h
      cases hr
      cases hs : c.scopeStack with
      | nil =>
        cases (obx_namedBlockEnd_nil hs).symm.trans h
      | cons s outer =>
        obtain ⟨hstack, hl, hpos⟩ := obx_namedBlockEnd_frame hs h
        have hlimits := hn.limits
        rw [ObCtx.limits, hs] at hlimits
        refine ⟨by rw [ObCtx.limits, hstack, hl]; exact hlimits.tail, by rw [hpos]; exact hn.word, fun hall => ?_⟩
        rw [hstack] at hall
        have hlast : ¬ s.Beyond := fun hbeyond => not_fails_of_ok h (obx_namedBlockEnd_fails hs hbeyond)
        have hin := hn.inside (by rw [hs]; exact List.forall_mem_cons.mpr ⟨hlast, hall⟩)
        rw [hpos, hl]
        exact hin.trans (List.rel_of_pairwise_cons hlimits List.mem_cons_self)
    | uint => exact absurd trivial hop
    | uintReq => exact absurd trivial hop
    | shortString => exact absurd trivial hop
    | fixedString => exact absurd trivial hop

theorem execAll_nested {bound : Nat} (hbound : bound ≤ 2^30) {ops : List Operation}
    (hops : ∀ op ∈ ops, op.Constructs) {c c' : ObCtx} {u : Unit} (hn : c.Nested bound)
    (h : execAll (m := .constructBinary) ops c = .ok u c') : c'.Nested bound := by
  induction ops generalizing c with
  | nil =>
    cases h
    exact hn
  | cons op ops ih =>
    obtain ⟨_, c1, h1, h2⟩ := bind_eq_ok.mp h
    exact ih (fun op hop => hops op (List.mem_cons_of_mem _ hop))
      (exec_nested hbound (hops op List.mem_cons_self) hn h1) h2

end Operation

/-- A block from its beginning to its end, after any run: the length that comes back is
that of the body, it stands in the bits in front of the body, and nothing else changes. -/
theorem obx_block_closed {bound : Nat} (hbound : bound ≤ 2^30) {b : Nat} (h0 : 1 ≤ b) (hb : b ≤ 16)
    {info endInfo : Info} {e : Encoder Unit} {x : Obx Unit} (hx : Writes x e) {c c1 c2 c3 : ObCtx} {u u' : Unit}
    {n : Nat} (hn : c.Nested bound) (h1 : Obx.namedBlockBegin b info c = .ok u c1) (h2 : x c1 = .ok u' c2)
    (h3 : Obx.namedBlockEnd endInfo c2 = .ok n c3) :
    c2.bitpos = c1.bitpos + 8 * n ∧ n ≤ 2^b - 1 ∧ (ofMemory c3.data).read c.bitpos b = ofNat b n ∧
      (∀ i, i < c.bitpos ∨ c.bitpos + b ≤ i → ofMemory c3.data i = ofMemory c2.data i) ∧
      c3.bitpos = c2.bitpos ∧ c3.bitlimit = c.bitlimit := by
  have hlimit := hn.limit_le
  have hword := hn.word
  have hpow0 := Nat.two_pow_pos b
  have hpow : 2^b ≤ 2^16 := Nat.pow_le_pow_right (by decide) hb
  obtain ⟨hal, limit, rfl, hle, hin⟩ := obx_namedBlockBegin_ok hb (by omega) h1
  obtain ⟨hstack, -⟩ := hx.balanced _ _ _ h2
  obtain ⟨-, hl3, hp3⟩ := obx_namedBlockEnd_frame hstack h3
  have henter : sub32 (u32 (c.bitpos + b)) c.bitpos = b := sub32_add hword (by omega)
  -- the end has not thrown, so the block was entered within the limit
  have hentered : u32 (c.bitpos + b) ≤ c.bitlimit := by
    by_contra hover
    refine not_fails_of_ok h3 (obx_namedBlockEnd_fails hstack ?_)
    dsimp only
    rw [henter]
    omega
  obtain ⟨hpos, hmax⟩ := hin hentered
  obtain ⟨bits, -, hfit, hc2⟩ := hx.of_ok ⟨hpos, show limit ≤ 2^30 by omega⟩ h2
  have hp2 : c2.bitpos = u32 (c.bitpos + b) + bits.length := by
    rw [hc2]
    rfl
  have hfit : u32 (c.bitpos + b) + bits.length ≤ limit := hfit
  have hlen : sub32 c2.bitpos (u32 (c.bitpos + b)) = bits.length := by
    rw [hp2, sub32_of_le (Nat.le_add_right _ _) (by omega), Nat.add_sub_cancel_left]
  rw [obx_namedBlockEnd_apply endInfo _ _ _ hstack] at h3
  dsimp only at h3 ⊢
  rw [hlen, henter] at h3
  split at h3
  · cases h3
  · next hbytes =>
    obtain ⟨u, c4, h4, h3⟩ := bind_eq_ok.mp h3
    cases h3
    have hval : (UInt32.ofNat (bits.length / 8)).toNat = bits.length / 8 := by
      rw [UInt32.toNat_ofNat', Nat.mod_eq_of_lt (by omega)]
    rw [obx_uint32_apply] at h4
    split at h4
    · cases h4
    · split at h4
      · next hspan =>
        cases h4
        have hwrite := (nocheckUint32_write ⟨c.bitpos, c.bitlimit, c2.data, c.scopeStack⟩ b
          (UInt32.ofNat (bits.length / 8)) h0 hspan (by rw [hval]; omega)).1
        rw [hval] at hwrite
        refine ⟨by omega, by omega, ?_, fun i hi => ?_, hp3, hl3⟩
        · have hread := Memory.read_write_same (ofMemory c2.data) c.bitpos (ofNat b (bits.length / 8))
          rw [length_ofNat] at hread
          exact (congrArg (fun m => Memory.read m c.bitpos b) hwrite).trans hread
        · refine (congrFun hwrite i).trans (Memory.write_outside _ _ _ _ ?_)
          rwa [length_ofNat]
      · cases h4

/-- Block lengths that construction fills in are right: in every run without exceptions the
end of a block gives the length of its body and puts it into the bits that the beginning
has reserved, and the position is within the buffer when all blocks are closed. -/
theorem back_patched_lengths {data : Memory UInt8} {size : Nat} (hsize : size ≤ 2^27) :
    (∀ (pre body : List Operation) (b : Nat) (info endInfo : Info) (c c1 c2 c3 : ObCtx) (n : Nat),
      (∀ op ∈ pre ++ Operation.namedBlockBegin b info :: body, op.Constructs) → Operation.Balanced body →
      Operation.execAll (m := .constructBinary) pre (ObCtx.create data size) = .ok () c →
      Iox.namedBlockBegin (m := .constructBinary) b info c = .ok () c1 →
      Operation.execAll (m := .constructBinary) body c1 = .ok () c2 →
      Iox.namedBlockEnd (m := .constructBinary) endInfo c2 = .ok n c3 →
      c2.bitpos = c1.bitpos + 8 * n ∧ n ≤ 2^b - 1 ∧ (ofMemory c3.data).read c.bitpos b = ofNat b n ∧
        (∀ i, i < c.bitpos ∨ c.bitpos + b ≤ i → ofMemory c3.data i = ofMemory c2.data i) ∧
        c3.bitpos = c2.bitpos ∧ c3.bitlimit = c.bitlimit) ∧
    (∀ (ops : List Operation) (c : ObCtx), (∀ op ∈ ops, op.Constructs) →
      Operation.execAll (m := .constructBinary) ops (ObCtx.create data size) = .ok () c →
      c.scopeStack = [] → c.bitpos ≤ 8 * size) := by
  constructor
  · intro pre body b info endInfo c c1 c2 c3 n hops hbody hpre h1 h2 h3
    have hn := Operation.execAll_nested (by omega)
      (fun op hop => hops op (List.mem_append_left _ hop)) (ObCtx.Nested.create hsize) hpre
    have hb : 1 ≤ b ∧ b ≤ 16 := hops _ (List.mem_append_right _ List.mem_cons_self)
    obtain ⟨e, he⟩ := hbody.writes fun op hop =>
      hops op (List.mem_append_right _ (List.mem_cons_of_mem _ hop))
    exact obx_block_closed (by omega) hb.1 hb.2 he hn h1 h2 h3
  · intro ops c hops hrun hclosed
    have hn := Operation.execAll_nested (by omega) hops (ObCtx.Nested.create hsize) hrun
    refine (hn.inside fun s hs => ?_).trans hn.limit_le
    rw [hclosed] at hs
    cases hs

theorem back_patched_lengths_two_bytes : ∃ c1 c2 c3,
    Iox.namedBlockBegin (m := .constructBinary) 8 ⟨chars "len", 0⟩ (ObCtx.create (fun _ => 0xff) 4) = .ok () c1 ∧
    Operation.execAll (m := .constructBinary) [.uint .uint16 16 (0x1234 : UInt16) ⟨chars "a", 0⟩] c1 = .ok () c2 ∧
    Iox.namedBlockEnd (m := .constructBinary) ⟨chars "end", 0⟩ c2 = .ok 2 c3 ∧
    (ofMemory c3.data).read 0 8 = ofNat 8 2 ∧ c2.bitpos = c1.bitpos + 8 * 2 := by
  have hrun : gives (Iox.namedBlock (m := .constructBinary) 8 ⟨chars "len", 0⟩ ⟨chars "end", 0⟩
      (Operation.execAll [.uint .uint16 16 (0x1234 : UInt16) ⟨chars "a", 0⟩])
      (ObCtx.create (fun _ => 0xff) 4)) (2, ()) = true := by decide +kernel
  obtain ⟨c, h⟩ := exists_ok_of_gives hrun
  obtain ⟨_, c1, h1, h⟩ := bind_eq_ok.mp h
  obtain ⟨_, c2, h2, h⟩ := bind_eq_ok.mp h
  obtain ⟨_, c3, h3, h⟩ := bind_eq_ok.mp h
  cases h
  obtain ⟨hpos, -, hread, -⟩ := (back_patched_lengths (by decide)).1 []
    [.uint .uint16 16 (0x1234 : UInt16) ⟨chars "a", 0⟩] 8 _ _ _ c1 c2 _ 2
    (by simp [Operation.Constructs, Variable.width, Variable.toNat]) (.field trivial .nil) rfl h1 h2 h3
  exact ⟨c1, c2, _, h1, h2, h3, hread, hpos⟩

end Mopa.Io
