import Mopa.BinaryOutput

/-! Parsing in binary mode: what it reads where the bits of an encoding stand, and
which bits stand where it has read something. -/
namespace Mopa.Io
open Bits Outcome

namespace IbCtx

structure Good (d : IbCtx) (top : Nat := 2^31) : Prop where
  pos : d.bitpos ≤ d.bitlimit
  limit : d.bitlimit ≤ top

theorem Good.lt {d : IbCtx} {top : Nat} (h : d.Good top) {n : Nat} (hn : top + n < 2^32) : d.bitpos + n < 2^32 := by
  have := h.pos.trans h.limit
  omega

theorem Good.limit_lt {d : IbCtx} {top : Nat} (h : d.Good top) (htop : top ≤ highTop) : d.bitlimit < 2^32 :=
  (h.limit.trans htop).trans_lt (by decide)

def skip (d : IbCtx) (n : Nat) : IbCtx := { d with bitpos := d.bitpos + n }

@[simp] theorem skip_bitpos (d : IbCtx) (n : Nat) : (d.skip n).bitpos = d.bitpos + n := rfl
@[simp] theorem skip_bitlimit (d : IbCtx) (n : Nat) : (d.skip n).bitlimit = d.bitlimit := rfl
@[simp] theorem skip_data (d : IbCtx) (n : Nat) : (d.skip n).data = d.data := rfl
@[simp] theorem skip_scopeStack (d : IbCtx) (n : Nat) : (d.skip n).scopeStack = d.scopeStack := rfl

@[simp] theorem skip_zero (d : IbCtx) : d.skip 0 = d := rfl

theorem skip_skip (d : IbCtx) (m n : Nat) : (d.skip m).skip n = d.skip (m+n) := by
  unfold skip
  rw [Nat.add_assoc]

def next (d : IbCtx) (n : Nat) : List Bool := (ofMemory d.data).read d.bitpos n

@[simp] theorem length_next (d : IbCtx) (n : Nat) : (d.next n).length = n := Memory.read_length _ _ _

theorem next_add (d : IbCtx) (m n : Nat) : d.next (m+n) = d.next m ++ (d.skip m).next n :=
  Memory.read_add _ _ _ _

theorem next_bytes {d : IbCtx} (h : d.bitpos % 8 = 0) (n : Nat) :
    d.next (8*n) = ofBytes (d.data.read (d.bitpos/8) n) := by
  rw [← ofMemory_read, next, show 8*(d.bitpos/8) = d.bitpos by omega]

theorem next_lt (d : IbCtx) (w : Nat) : toNat (d.next w) < 2^w := by
  have h := toNat_lt (d.next w)
  rwa [length_next] at h

structure Sees (d : IbCtx) (bits : List Bool) : Prop where
  stands : d.next bits.length = bits
  room : d.bitpos + bits.length ≤ d.bitlimit
  limit : d.bitlimit < 2^32

namespace Sees
variable {d : IbCtx} {as bs : List Bool}

theorem lt (h : d.Sees as) : d.bitpos + as.length < 2^32 := h.room.trans_lt h.limit

theorem append_iff : d.Sees (as ++ bs) ↔ d.Sees as ∧ (d.skip as.length).Sees bs := by
  constructor
  · rintro ⟨hbits, hroom, hlimit⟩
    rw [List.length_append] at hbits hroom
    rw [next_add] at hbits
    obtain ⟨ha, hb⟩ := List.append_inj hbits (length_next _ _)
    exact ⟨⟨ha, by omega, hlimit⟩, ⟨hb, by rw [skip_bitpos, skip_bitlimit]; omega, hlimit⟩⟩
  · rintro ⟨ha, hb⟩
    have hroom := hb.room
    rw [skip_bitpos, skip_bitlimit] at hroom
    refine ⟨?_, by rw [List.length_append]; omega, ha.limit⟩
    rw [List.length_append, next_add, ha.stands, hb.stands]

theorem left (h : d.Sees (as ++ bs)) : d.Sees as := (append_iff.mp h).1

theorem right (h : d.Sees (as ++ bs)) : (d.skip as.length).Sees bs := (append_iff.mp h).2

theorem right_good {top : Nat} (h : d.Sees as) (hd : d.Good top) : (d.skip as.length).Good top := ⟨h.room, hd.limit⟩

theorem nil {top : Nat} (h : d.Good top) (htop : top ≤ highTop) : d.Sees [] := ⟨rfl, h.pos, h.limit_lt htop⟩

theorem read_bytes {bytes : List UInt8} (h : d.Sees (ofBytes bytes)) (hp : d.bitpos % 8 = 0) :
    d.data.read (d.bitpos/8) bytes.length = bytes := by
  have hbits := h.stands
  rw [length_ofBytes, next_bytes hp] at hbits
  exact ofBytes_inj hbits

end Sees

theorem sees_next {d : IbCtx} {n : Nat} (hroom : d.bitpos + n ≤ d.bitlimit) (hlimit : d.bitlimit < 2^32) :
    d.Sees (d.next n) :=
  ⟨by rw [length_next], by rwa [length_next], hlimit⟩

def enter (d : IbCtx) (length : Nat) (info : Info) : IbCtx :=
  { d with
    bitlimit := d.bitpos + 8 * length
    scopeStack := ⟨info, d.bitpos, d.bitlimit⟩ :: d.scopeStack }

end IbCtx

section Operations
variable {d : IbCtx} {w : Nat} {info : Info}

theorem ibx_uint8_apply (hp : d.bitpos + w < 2^32) (hw : w ≤ 8) :
    Ibx.uint8 w info d = if d.bitpos + w ≤ d.bitlimit then .ok (UInt8.ofNat (toNat (d.next w))) (d.skip w)
      else .error (.exception info "left %d bits, needed %d") d := by
  have hu : u32 (d.bitpos + w) = d.bitpos + w := u32_of_lt hp
  have hval : (d.nocheckUint8 w).1 = UInt8.ofNat (toNat (d.next w)) := by
    rw [← UInt8.toNat_inj, nocheckUint8_read d w hw, UInt8.toNat_ofNat']
    exact (field_mod d.data d.bitpos hw).symm
  have hctx : (d.nocheckUint8 w).2 = d.skip w := by
    show { d with bitpos := u32 (d.bitpos + w) } = _
    rw [hu]
    rfl
  unfold Ibx.uint8
  rw [hu, hval, hctx]
  by_cases h : d.bitpos + w ≤ d.bitlimit
  · rw [if_pos h, if_neg (by omega)]
  · rw [if_neg h, if_pos (by omega)]
    rfl

theorem ibx_uint32_apply (hp : d.bitpos + w < 2^32) (hw : d.bitpos % 8 + w ≤ 32) :
    Ibx.uint32 w info d = if d.bitpos + w ≤ d.bitlimit then .ok (UInt32.ofNat (toNat (d.next w))) (d.skip w)
      else .error (.exception info "left %d bits, needed %d") d := by
  have hu : u32 (d.bitpos + w) = d.bitpos + w := u32_of_lt hp
  unfold Ibx.uint32
  rw [nocheckUint32_read d w hw, hu]
  by_cases h : d.bitpos + w ≤ d.bitlimit
  · rw [if_pos h, if_neg (by omega)]
    rfl
  · rw [if_neg h, if_pos (by omega)]
    rfl

theorem ibx_blockBegin_apply {length : Nat} (hp : d.bitpos + 8 * length < 2^32) :
    Ibx.blockBegin length info d =
      if d.bitpos % 8 ≠ 0 then .error (.exception info "starting bit not byte-aligned") d
      else if d.bitpos + 8 * length ≤ d.bitlimit then .ok () (d.enter length info)
      else .error (.exception info "block size %d exceeds available %d") d := by
  have hsize : u32 (length * 8) = 8 * length := by rw [u32_of_lt (by omega), Nat.mul_comm]
  unfold Ibx.blockBegin
  rw [hsize, u32_of_lt hp]
  split
  · rfl
  · by_cases h : d.bitpos + 8 * length ≤ d.bitlimit
    · rw [if_pos h, if_neg (by omega)]
      rfl
    · rw [if_neg h, if_pos (by omega)]
      rfl

theorem ibx_blockEnd_apply (s : IScope) (outer : List IScope) (hs : d.scopeStack = s :: outer) :
    Ibx.blockEnd info d =
      if d.bitpos < d.bitlimit then .error (.exception info "block ends with %d bits remaining") d
      else if sub32 d.bitpos s.bitposAtEnter % 8 ≠ 0 then
        .error (.exception info "block length not byte-aligned") d
      else .ok (sub32 d.bitpos s.bitposAtEnter / 8)
        { d with bitlimit := s.bitlimitAtEnter, scopeStack := outer } := by
  unfold Ibx.blockEnd
  rw [hs]
  rfl

theorem ibx_takeBytes_apply (hl : d.bitlimit < 2^32) {len : Nat} (hroom : d.bitpos + 8 * len ≤ d.bitlimit) :
    Ibx.takeBytes len d = .ok (d.data.read (d.bitpos/8) len) (d.skip (8 * len)) := by
  unfold Ibx.takeBytes
  rw [Nat.mul_comm len, u32_of_lt (by omega)]
  rfl

theorem ibx_namedBlockBegin_apply {b : Nat} (hb : d.bitpos % 8 + b ≤ 32) (hp : d.bitpos + b + 8 * toNat (d.next b) < 2^32) :
    Ibx.namedBlockBegin b info d =
      if d.bitpos + b ≤ d.bitlimit then
        if (d.bitpos + b) % 8 ≠ 0 then .error (.exception info "starting bit not byte-aligned") (d.skip b)
        else if d.bitpos + b + 8 * toNat (d.next b) ≤ d.bitlimit then
          .ok () ((d.skip b).enter (toNat (d.next b)) info)
        else .error (.exception info "block size %d exceeds available %d") (d.skip b)
      else .error (.exception info "left %d bits, needed %d") d := by
  have hval : (UInt32.ofNat (toNat (d.next b))).toNat = toNat (d.next b) := by
    rw [UInt32.toNat_ofNat', Nat.mod_eq_of_lt (by omega)]
  have h32 : Ibx.uint32 b info d = _ := ibx_uint32_apply (Nat.lt_of_le_of_lt (Nat.le_add_right _ _) hp) hb
  by_cases h : d.bitpos + b ≤ d.bitlimit
  · rw [if_pos h] at h32 ⊢
    refine (bind_ok h32).trans ?_
    rw [hval, ibx_blockBegin_apply (d := d.skip b) hp]
    rfl
  · rw [if_neg h] at h32 ⊢
    exact bind_error h32

theorem ibx_namedBlockBegin_enter {b n : Nat} (hb : b ≤ 32) (hn : n < 2^b) (hread : d.next b = ofNat b n)
    (hal : (d.bitpos + b) % 8 = 0) (hroom : d.bitpos + b + 8 * n ≤ d.bitlimit) (hl : d.bitlimit < 2^32) :
    Ibx.namedBlockBegin b info d = .ok () ((d.skip b).enter n info) := by
  have hval : toNat (d.next b) = n := by rw [hread, toNat_ofNat_of_lt hn]
  rw [ibx_namedBlockBegin_apply (by omega) (by omega), hval, if_pos (by omega), if_neg (by omega), if_pos hroom]

theorem ibx_blockEnd_close {b n : Nat} (beginInfo : Info) (hp : d.bitpos + b + 8 * n < 2^32) :
    Ibx.blockEnd info (((d.skip b).enter n beginInfo).skip (8 * n)) = .ok n (d.skip (b + 8 * n)) := by
  have hdone : ¬ (((d.skip b).enter n beginInfo).skip (8 * n)).bitpos <
      (((d.skip b).enter n beginInfo).skip (8 * n)).bitlimit := Nat.lt_irrefl _
  have hdiff : sub32 (((d.skip b).enter n beginInfo).skip (8 * n)).bitpos (d.bitpos + b) = 8 * n := by
    show sub32 (d.bitpos + b + 8 * n) (d.bitpos + b) = _
    rw [sub32_of_le (by omega) (by omega)]
    omega
  rw [ibx_blockEnd_apply ⟨beginInfo, d.bitpos + b, d.bitlimit⟩ d.scopeStack rfl, if_neg hdone]
  dsimp only
  rw [hdiff, if_neg (by omega), Nat.mul_div_cancel_left n (by decide), ← IbCtx.skip_skip]
  rfl

theorem ibx_blockEnd_ok {d' : IbCtx} {b n k len : Nat} {beginInfo : Info} (hin : k ≤ 8 * len)
    (hp : d.bitpos + b + 8 * len < 2^32)
    (h : Ibx.blockEnd info (((d.skip b).enter len beginInfo).skip k) = .ok n d') :
    k = 8 * len ∧ n = len ∧ d' = d.skip (b + 8 * len) := by
  by_cases hk : k = 8 * len
  · rw [hk, ibx_blockEnd_close beginInfo hp] at h
    cases h
    exact ⟨hk, rfl, rfl⟩
  · have hleft : (((d.skip b).enter len beginInfo).skip k).bitpos <
        (((d.skip b).enter len beginInfo).skip k).bitlimit := by
      show d.bitpos + b + k < d.bitpos + b + 8 * len
      omega
    rw [ibx_blockEnd_apply ⟨beginInfo, d.bitpos + b, d.bitlimit⟩ d.scopeStack rfl, if_pos hleft] at h
    cases h

end Operations

/-- At the bits, with the given limit, the program gives the value and passes the bits. -/
def Reads {α : Type} (y : Ibx α) (a : α) (p limit : Nat) (bits : List Bool) : Prop :=
  ∀ d : IbCtx, d.bitpos = p → d.bitlimit = limit → d.Sees bits → y d = .ok a (d.skip bits.length)

namespace Reads
variable {α β : Type} {p limit : Nat} {as bs : List Bool}

protected theorem pure (a : α) : Reads (pure a) a p limit [] := fun _ _ _ _ => rfl

protected theorem bind {y : Ibx α} {f : α → Ibx β} {a : α} {b : β} (hy : Reads y a p limit as)
    (hf : Reads (f a) b (p + as.length) limit bs) : Reads (y >>= f) b p limit (as ++ bs) := by
  intro d hp hl hs
  rw [bind_ok (hy d hp hl hs.left), hf (d.skip as.length) (by rw [IbCtx.skip_bitpos, hp]) hl hs.right,
    IbCtx.skip_skip, List.length_append]

theorem map {y : Ibx α} {a : α} (hy : Reads y a p limit as) (f : α → β) :
    Reads (do return f (← y)) (f a) p limit as := by
  have h := hy.bind (f := fun a => pure (f a)) (Reads.pure (f a))
  rwa [List.append_nil] at h

theorem uint8 {w : Nat} {val : UInt8} {info : Info} (hw : w ≤ 8) (hv : val.toNat < 2^w) :
    Reads (Ibx.uint8 w info) val p limit (ofNat w val.toNat) := by
  intro d _ _ hs
  have hroom := hs.room
  have hbits := hs.stands
  have hlt := hs.lt
  rw [length_ofNat] at *
  rw [ibx_uint8_apply hlt hw, if_pos hroom, hbits, toNat_ofNat_of_lt hv, UInt8.ofNat_toNat]

theorem uint32 {w : Nat} {val : UInt32} {info : Info} (hw : p % 8 + w ≤ 32) (hv : val.toNat < 2^w) :
    Reads (Ibx.uint32 w info) val p limit (ofNat w val.toNat) := by
  intro d hp _ hs
  have hroom := hs.room
  have hbits := hs.stands
  have hlt := hs.lt
  rw [length_ofNat] at *
  rw [ibx_uint32_apply hlt (by rw [hp]; exact hw), if_pos hroom, hbits, toNat_ofNat_of_lt hv,
    UInt32.ofNat_toNat]

theorem takeBytes {str : List UInt8} (hp : p % 8 = 0) :
    Reads (Ibx.takeBytes str.length) str p limit (ofBytes str) := by
  intro d hd _ hs
  have hroom := hs.room
  rw [length_ofBytes] at *
  rw [ibx_takeBytes_apply hs.limit hroom, hs.read_bytes (by rw [hd]; exact hp)]

theorem shortString_apply (fresh : List UInt8) (info : Info) (d : IbCtx) :
    Iox.shortStringIo (m := .parseBinary) fresh info d =
      if d.bitpos % 8 ≠ 0 then .error (.exception info "String '%s' not byte-aligned") d
      else (Ibx.uint8 8 info >>= fun len d =>
        if u32 (d.bitpos + len.toNat * 8) > d.bitlimit then
          .error (.exception info "String '%s' is %d length, only %d bits available") d
        else Ibx.takeBytes len.toNat d) d := rfl

theorem fixedString_apply (n : Nat) (fresh : List UInt8) (info : Info) (d : IbCtx) :
    Iox.fixedStringIo n (m := .parseBinary) fresh info d =
      if d.bitpos % 8 ≠ 0 then .error (.exception info "String '%s' not byte-aligned") d
      else if u32 (d.bitpos + n % 256 * 8) > d.bitlimit then
        .error (.exception info "String '%s' is %d length, only %d bytes available") d
      else Ibx.takeBytes (n % 256) d := rfl

theorem shortString {str : List UInt8} {fresh : List UInt8} {info : Info} (hp : p % 8 = 0)
    (hlen : str.length ≤ 255) :
    Reads (Iox.shortStringIo (m := .parseBinary) fresh info) str p limit
      (ofNat 8 str.length ++ ofBytes str) := by
  have hval : (UInt8.ofNat str.length).toNat = str.length := by
    rw [UInt8.toNat_ofNat', Nat.mod_eq_of_lt (by omega)]
  have h8 : Reads (Ibx.uint8 8 info) (UInt8.ofNat str.length) p limit (ofNat 8 str.length) := by
    have h : Reads (Ibx.uint8 8 info) (UInt8.ofNat str.length) p limit _ := uint8 le_rfl (by rw [hval]; omega)
    rwa [hval] at h
  have htake : Reads (fun d : IbCtx =>
      if u32 (d.bitpos + (UInt8.ofNat str.length).toNat * 8) > d.bitlimit then
        .error (.exception info "String '%s' is %d length, only %d bits available") d
      else Ibx.takeBytes (UInt8.ofNat str.length).toNat d) str (p+8) limit (ofBytes str) := by
    intro d hd hl hs
    have hroom := hs.room
    have hlimit := hs.limit
    rw [length_ofBytes] at hroom
    dsimp only
    rw [hval, u32_of_lt (by omega), if_neg (by omega)]
    exact takeBytes (by omega) d hd hl hs
  intro d hd hl hs
  rw [shortString_apply, if_neg (by rw [hd]; omega)]
  exact h8.bind (by rwa [length_ofNat]) d hd hl hs

theorem fixedString {n : Nat} {str : List UInt8} {fresh : List UInt8} {info : Info} (hp : p % 8 = 0)
    (hlen : str.length = n) (hn : n ≤ 255) :
    Reads (Iox.fixedStringIo n (m := .parseBinary) fresh info) str p limit (ofBytes str) := by
  intro d hd hl hs
  have hroom := hs.room
  have hlimit := hs.limit
  rw [length_ofBytes] at hroom
  subst hlen
  rw [fixedString_apply, if_neg (by rw [hd]; omega), Nat.mod_eq_of_lt (by omega), u32_of_lt (by omega), if_neg (by omega)]
  exact takeBytes hp d hd hl hs

theorem block_apply {y : Ibx α} {a : α} {b n : Nat} {info endInfo : Info} {d : IbCtx} (hal : (d.bitpos + b) % 8 = 0)
    (hb : b ≤ 32) (hn : n < 2^b) (hlen : as.length = 8 * n)
    (hroom : d.bitpos + b + as.length ≤ d.bitlimit) (hl : d.bitlimit < 2^32)
    (hs : d.next (b + as.length) = ofNat b n ++ as)
    (hy : Reads y a (d.bitpos + b) (d.bitpos + b + as.length) as) :
    Iox.namedBlock (m := .parseBinary) b info endInfo y d = .ok (n, a) (d.skip (b + as.length)) := by
  rw [IbCtx.next_add] at hs
  obtain ⟨hs1, hs2⟩ := List.append_inj hs (by rw [IbCtx.length_next, length_ofNat])
  have hbegin : Ibx.namedBlockBegin b info d = .ok () ((d.skip b).enter n info) :=
    ibx_namedBlockBegin_enter hb hn hs1 hal (by omega) hl
  have hbody : y ((d.skip b).enter n info) = .ok a (((d.skip b).enter n info).skip as.length) :=
    hy _ rfl (show d.bitpos + b + 8 * n = _ by omega)
      ⟨hs2, show d.bitpos + b + as.length ≤ d.bitpos + b + 8 * n by omega,
        show d.bitpos + b + 8 * n < 2^32 by omega⟩
  rw [hlen] at hbody ⊢
  have hend : Ibx.blockEnd endInfo (((d.skip b).enter n info).skip (8 * n)) = _ := ibx_blockEnd_close info (by omega)
  refine (bind_ok hbegin).trans ((bind_ok hbody).trans ?_)
  exact (bind_ok hend).trans rfl

theorem block {y : Ibx α} {a : α} {b : Nat} {info endInfo : Info} {n : Nat} (hp : (p + b) % 8 = 0)
    (hb : b ≤ 32) (hn : n < 2^b) (hlen : as.length = 8 * n)
    (hy : Reads y a (p + b) (p + b + as.length) as) :
    Reads (Iox.namedBlock (m := .parseBinary) b info endInfo y) (n, a) p limit (ofNat b n ++ as) := by
  rintro d rfl rfl hs
  have hroom := hs.room
  have hlimit := hs.limit
  have hstands := hs.stands
  rw [List.length_append, length_ofNat] at hroom hstands ⊢
  exact block_apply hp hb hn hlen (by omega) hlimit hstands hy

theorem items {e : α → Encoder α} {io : α → Ibx α} {fresh : α} {list acc list' : List α} {fuel total : Nat}
    (hio : ∀ a ∈ list, ∀ p a' bits, bits.length ≤ total → e a p = some (a', bits) →
      bits ≠ [] ∧ Reads (io fresh) a' p limit bits)
    (henc : Encoder.items e list p = some (list', bs)) (htotal : bs.length ≤ total) (hfuel : bs.length < fuel)
    (hend : limit = p + bs.length) :
    Reads (Iox.parseItems (m := .parseBinary) fresh io fuel acc) (acc ++ list') p limit bs := by
  induction list generalizing p fuel acc list' bs with
  | nil =>
    cases henc
    obtain ⟨fuel, rfl⟩ := Nat.exists_eq_succ_of_ne_zero (show fuel ≠ 0 by omega)
    intro d hd hl hs
    have hleft : sub32 d.bitlimit d.bitpos = 0 := by
      rw [hl, hd, hend]
      simp [sub32]
    have hsize : Ibx.blockSizeLeft d = .ok 0 d := congrArg (EStateM.Result.ok · d) hleft
    refine (bind_ok hsize).trans ?_
    rw [List.append_nil]
    rfl
  | cons a list ih =>
    obtain ⟨a', as, _, h1, hrest, rfl⟩ := Encoder.bind_eq_some.mp henc
    obtain ⟨rest, bs, _, h2, hpure, rfl⟩ := Encoder.bind_eq_some.mp hrest
    obtain ⟨rfl, rfl⟩ := Encoder.pure_eq_some.mp hpure
    rw [List.append_nil] at *
    rw [List.length_append] at hend hfuel htotal
    obtain ⟨hne, hread⟩ := hio a List.mem_cons_self p a' as (by omega) h1
    have hpos : 0 < as.length := List.length_pos_iff.mpr hne
    obtain ⟨fuel, rfl⟩ := Nat.exists_eq_succ_of_ne_zero (show fuel ≠ 0 by omega)
    intro d hd hl hs
    have hlimit := hs.limit
    have hroom := hs.room
    have hsize : Ibx.blockSizeLeft d = .ok (as.length + bs.length) d := by
      refine congrArg (EStateM.Result.ok · d) ?_
      rw [sub32_of_le (by omega) (by omega), hl, hd]
      omega
    have hread' : Reads (Iox.parseItems (m := .parseBinary) fresh io fuel (acc ++ [a'])) _ _ limit bs :=
      ih (fun x hx => hio x (List.mem_cons_of_mem a hx)) h2 (by omega) (by omega) (by omega)
    refine (bind_ok hsize).trans ?_
    rw [if_pos (by omega), List.append_cons]
    exact hread.bind hread' d hd hl hs

end Reads

/-- From a position at offset `p` in its byte on, what the program reads is encoded
by the bits that it passes, and it stops at offset `q`. -/
def Accepts {α : Type} (y : Ibx α) (e : α → Encoder α) (p q : Nat) (top : Nat := 2^31) : Prop :=
  ∀ d a d', d.Good top → d.bitpos % 8 = p % 8 → y d = .ok a d' → d'.bitpos % 8 = q % 8 ∧
    ∃ bits, e a d.bitpos = some (a, bits) ∧ d.Sees bits ∧ d' = d.skip bits.length

theorem ibx_uint8_ok {d d' : IbCtx} {w : Nat} {val : UInt8} {info : Info} (hp : d.bitpos + w < 2^32)
    (hl : d.bitlimit < 2^32) (hw : w ≤ 8) (h : Ibx.uint8 w info d = .ok val d') :
    val.toNat < 2^w ∧ d.Sees (ofNat w val.toNat) ∧ d' = d.skip w := by
  rw [ibx_uint8_apply hp hw] at h
  split at h
  · next hroom =>
    cases h
    have hlt := d.next_lt w
    have hval : (UInt8.ofNat (toNat (d.next w))).toNat = toNat (d.next w) := by
      rw [UInt8.toNat_ofNat', Nat.mod_eq_of_lt (hlt.trans_le (Nat.pow_le_pow_right (by decide) hw))]
    rw [hval]
    refine ⟨hlt, ?_, rfl⟩
    have hs := IbCtx.sees_next hroom hl
    rwa [← ofNat_toNat (d.next w), IbCtx.length_next] at hs
  · cases h

theorem ibx_uint32_ok {d d' : IbCtx} {w top : Nat} {val : UInt32} {info : Info} (hd : d.Good top) (htop : top ≤ highTop)
    (hw : d.bitpos % 8 + w ≤ 32) (h : Ibx.uint32 w info d = .ok val d') :
    val.toNat < 2^w ∧ d.Sees (ofNat w val.toNat) ∧ d' = d.skip w := by
  have hhigh : highTop = 2^32 - 2^20 := rfl
  rw [ibx_uint32_apply (hd.lt (by omega)) hw] at h
  split at h
  · next hroom =>
    cases h
    have hlt := d.next_lt w
    have hval : (UInt32.ofNat (toNat (d.next w))).toNat = toNat (d.next w) := by
      rw [UInt32.toNat_ofNat', Nat.mod_eq_of_lt (hlt.trans_le (Nat.pow_le_pow_right (by decide) (by omega)))]
    rw [hval]
    refine ⟨hlt, ?_, rfl⟩
    have hs := IbCtx.sees_next hroom (hd.limit_lt htop)
    rwa [← ofNat_toNat (d.next w), IbCtx.length_next] at hs
  · cases h

theorem ibx_takeBytes_ok {d d' : IbCtx} {len top : Nat} {str : List UInt8} (hd : d.Good top) (htop : top ≤ highTop)
    (hp : d.bitpos % 8 = 0) (hroom : d.bitpos + 8 * len ≤ d.bitlimit)
    (h : Ibx.takeBytes len d = .ok str d') :
    str.length = len ∧ d.Sees (ofBytes str) ∧ d' = d.skip (8 * len) := by
  rw [ibx_takeBytes_apply (hd.limit_lt htop) hroom] at h
  cases h
  refine ⟨Memory.read_length _ _ _, ?_, rfl⟩
  rw [← IbCtx.next_bytes hp]
  exact IbCtx.sees_next hroom (hd.limit_lt htop)

theorem Accepts.congr {α : Type} {y : Ibx α} {e : α → Encoder α} {p q q' top : Nat} (h : Accepts y e p q top)
    (hq : q' % 8 = q % 8) : Accepts y e p q' top := by
  intro d a d' hd hp ha
  obtain ⟨hq', hbits⟩ := h d a d' hd hp ha
  exact ⟨hq'.trans hq.symm, hbits⟩

/-- Two programs that are run one after the other, the second one on a position and a
format that depend on what the first one gave. -/
theorem Accepts.pair {α γ : Type} {β : α → Type} {x : Ibx α} {y : (a : α) → Ibx (β a)} {ex : α → Encoder α}
    {ey : (a : α) → β a → Encoder (β a)} {g : (a : α) → β a → γ} {e : γ → Encoder γ} {p q r top : Nat}
    (hx : Accepts x ex p r top) (hy : ∀ a, Accepts (y a) (ey a) r q top)
    (he : ∀ a b p as bs, ex a p = some (a, as) → ey a b (p + as.length) = some (b, bs) →
      e (g a b) p = some (g a b, as ++ bs)) :
    Accepts (do
      let a ← x
      let b ← y a
      return g a b) e p q top := by
  intro d c d' hd hp h
  obtain ⟨a, d1, h1, h⟩ := bind_eq_ok.mp h
  obtain ⟨b, d2, h2, h⟩ := bind_eq_ok.mp h
  cases h
  obtain ⟨hr, as, hea, hs1, rfl⟩ := hx d a d1 hd hp h1
  obtain ⟨hq, bs, heb, hs2, rfl⟩ := hy a _ b d' (hs1.right_good hd) hr h2
  exact ⟨hq, as ++ bs, he a b _ as bs hea heb, IbCtx.Sees.append_iff.mpr ⟨hs1, hs2⟩,
    by rw [IbCtx.skip_skip, List.length_append]⟩

theorem ibx_namedBlockBegin_ok {d d' : IbCtx} {b : Nat} {info : Info} {u : Unit} (hb : b ≤ 24)
    (hp : d.bitpos + b + 8 * 2^b ≤ 2^32) (h : Ibx.namedBlockBegin b info d = .ok u d') :
    ∃ length, length < 2^b ∧ d.next b = ofNat b length ∧ (d.bitpos + b) % 8 = 0 ∧
      d.bitpos + b + 8 * length ≤ d.bitlimit ∧ d' = (d.skip b).enter length info := by
  have hlt := d.next_lt b
  rw [ibx_namedBlockBegin_apply (by omega) (by omega)] at h
  split at h
  · split at h
    · cases h
    · next hal =>
      split at h
      · next hfit =>
        cases h
        have hlen := ofNat_toNat (d.next b)
        rw [IbCtx.length_next] at hlen
        exact ⟨_, d.next_lt b, hlen.symm, not_not.mp hal, hfit, rfl⟩
      · cases h
  · cases h

namespace Accepts
variable {α : Type} {p q top : Nat}

theorem shortString (fresh : List UInt8) (info : Info) (htop : top ≤ highTop) :
    Accepts (Iox.shortStringIo (m := .parseBinary) fresh info) encodeShortString p p top := by
  have hhigh : highTop = 2^32 - 2^20 := rfl
  intro d str d' hd hp h
  rw [Reads.shortString_apply] at h
  split at h
  · cases h
  · next hal =>
    obtain ⟨len, d1, h1, h2⟩ := bind_eq_ok.mp h
    obtain ⟨hlen, hs1, rfl⟩ := ibx_uint8_ok (hd.lt (by omega)) (hd.limit_lt htop) le_rfl h1
    have hroom1 := hs1.room
    have hlimit := hd.limit
    rw [length_ofNat] at hroom1
    have hu : u32 (d.bitpos + 8 + len.toNat * 8) = d.bitpos + 8 + len.toNat * 8 := u32_of_lt (by omega)
    rw [IbCtx.skip_bitpos, IbCtx.skip_bitlimit, hu] at h2
    split at h2
    · cases h2
    · next hroom =>
      have hgood : (d.skip 8).Good top := ⟨hroom1, hlimit⟩
      obtain ⟨hstr, hs2, rfl⟩ := ibx_takeBytes_ok hgood htop (by rw [IbCtx.skip_bitpos]; omega)
        (by rw [IbCtx.skip_bitpos, IbCtx.skip_bitlimit]; omega) h2
      refine ⟨by simp only [IbCtx.skip_bitpos]; omega, ofNat 8 str.length ++ ofBytes str, ?_, ?_, ?_⟩
      · exact encodeShortString_eq_some.mpr ⟨rfl, ⟨by omega, by omega⟩, rfl⟩
      · rw [hstr]
        exact IbCtx.Sees.append_iff.mpr ⟨hs1, by rwa [length_ofNat]⟩
      · rw [IbCtx.skip_skip, List.length_append, length_ofNat, length_ofBytes, hstr]

theorem fixedString {n : Nat} (hn : n ≤ 255) (fresh : List UInt8) (info : Info) (htop : top ≤ highTop) :
    Accepts (Iox.fixedStringIo n (m := .parseBinary) fresh info) (encodeFixedString n) p p top := by
  have hhigh : highTop = 2^32 - 2^20 := rfl
  intro d str d' hd hp h
  have hpos := hd.pos
  have hlimit := hd.limit
  rw [Reads.fixedString_apply, show n % 256 = n by omega, u32_of_lt (by omega)] at h
  split at h
  · cases h
  · split at h
    · cases h
    · obtain ⟨hstr, hs, rfl⟩ := ibx_takeBytes_ok hd htop (by omega) (by omega) h
      refine ⟨by rw [IbCtx.skip_bitpos]; omega, ofBytes str, ?_, hs, by rw [length_ofBytes, hstr]⟩
      exact encodeFixedString_eq_some.mpr ⟨rfl, ⟨by omega, hstr⟩, rfl⟩

theorem block {y : Ibx α} {e : α → Encoder α} {b : Nat} {info endInfo : Info} (hb : b ≤ 16) (htop : top ≤ highTop)
    (hy : Accepts y e (p+b) q top) :
    Accepts (Iox.namedBlock (m := .parseBinary) b info endInfo y) (fun r => Encoder.block b (e r.2)) p 0 top := by
  have hhigh : highTop = 2^32 - 2^20 := rfl
  have hpow : 2^b ≤ 2^16 := Nat.pow_le_pow_right (by decide) hb
  rintro d ⟨n, a⟩ d' hd hp h
  have hpos := hd.pos
  have hlimit := hd.limit
  obtain ⟨u, d2, hbegin, h⟩ := bind_eq_ok.mp h
  obtain ⟨a, d3, hbody, h⟩ := bind_eq_ok.mp h
  obtain ⟨n, d4, hend, h⟩ := bind_eq_ok.mp h
  cases h
  obtain ⟨len, hlen, hs1, hal, hroom, rfl⟩ := ibx_namedBlockBegin_ok (by omega) (by omega) hbegin
  have hgood : ((d.skip b).enter len info).Good top :=
    ⟨Nat.le_add_right _ _, show d.bitpos + b + 8 * len ≤ top by omega⟩
  obtain ⟨-, bits, he, hs, rfl⟩ := hy _ a d3 hgood (show (d.bitpos + b) % 8 = _ by omega) hbody
  have hinside : d.bitpos + b + bits.length ≤ d.bitpos + b + 8 * len := hs.room
  obtain ⟨hbits, rfl, rfl⟩ := ibx_blockEnd_ok (by omega) (by omega) hend
  have hlength : (ofNat b n ++ bits).length = b + 8 * n := by rw [List.length_append, length_ofNat, hbits]
  refine ⟨show (d.bitpos + (b + 8 * n)) % 8 = 0 by omega, ofNat b n ++ bits,
    Encoder.block_eq_some.mpr ⟨hal, bits, he, hbits, hlen, rfl⟩, ⟨?_, by rw [hlength]; omega, by omega⟩, by rw [hlength]⟩
  rw [hlength, IbCtx.next_add, hs1, ← hbits]
  exact congrArg (ofNat b n ++ ·) hs.stands

theorem items {e : α → Encoder α} {io : α → Ibx α} {fresh : α} {fuel : Nat}
    (hio : Accepts (io fresh) e p p top) (htop : top ≤ highTop) (acc : List α) {d d' : IbCtx} {list : List α} (hd : d.Good top)
    (hp : d.bitpos % 8 = p % 8)
    (h : Iox.parseItems (m := .parseBinary) fresh io fuel acc d = .ok list d') :
    ∃ list' bits, list = acc ++ list' ∧ Encoder.items e list' d.bitpos = some (list', bits) ∧
      d.Sees bits ∧ d' = d.skip bits.length ∧ d'.bitpos % 8 = p % 8 := by
  induction fuel generalizing acc d with
  | zero => cases h
  | succ fuel ih =>
    obtain ⟨left, d1, hleft, h⟩ := bind_eq_ok.mp h
    cases hleft
    split at h
    · obtain ⟨a, d1, h1, h⟩ := bind_eq_ok.mp h
      obtain ⟨hp1, as, he, hs, rfl⟩ := hio d a d1 hd hp h1
      obtain ⟨list', bits, rfl, hes, hss, rfl, hq⟩ := ih (acc ++ [a]) (hs.right_good hd) hp1 h
      refine ⟨a :: list', as ++ bits, by rw [List.append_assoc]; rfl, ?_,
        IbCtx.Sees.append_iff.mpr ⟨hs, hss⟩, by rw [IbCtx.skip_skip, List.length_append], hq⟩
      exact Encoder.bind_eq_some.mpr ⟨a, as, bits, he, Encoder.bind_eq_some.mpr
        ⟨list', bits, [], hes, rfl, (List.append_nil bits).symm⟩, rfl⟩
    · cases h
      exact ⟨[], [], (List.append_nil list).symm, rfl, .nil hd htop, rfl, hp⟩

theorem list {e : α → Encoder α} {io : α → Ibx α} {fresh : α} (fuel : Nat) (hio : Accepts (io fresh) e p p top)
    (htop : top ≤ highTop) : Accepts (Iox.parseItems (m := .parseBinary) fresh io fuel []) (Encoder.items e) p p top := by
  intro d list d' hd hp h
  obtain ⟨list', bits, rfl, he, hs, hd', hq⟩ := items hio htop [] hd hp h
  exact ⟨hq, bits, he, hs, hd'⟩

end Accepts

end Mopa.Io
