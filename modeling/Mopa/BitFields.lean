import Mopa.IoContext
import Mathlib.Tactic.IntervalCases

/-! The bit routines of `io.h` read and write exactly the bits at the position. -/
namespace Mopa.Io
open Bits

@[simp] theorem int8_toNat (b : UInt8) : (int8 b).toNat = b.toNat := by
  have := b.toNat_lt
  rw [int8, BitVec.toNat_setWidth, UInt8.toNat_toBitVec, Nat.mod_eq_of_lt (by omega)]

theorem byte_toNat (x : BitVec 32) : (byte x).toNat = x.toNat % 2^8 := by
  rw [byte, UInt8.toNat, BitVec.toNat_setWidth]

theorem shiftLeft_toNat (x : BitVec 32) (k : Nat) (h : x.toNat * 2^k < 2^32) :
    (x <<< k).toNat = x.toNat * 2^k := by
  rw [BitVec.toNat_shiftLeft, Nat.shiftLeft_eq, Nat.mod_eq_of_lt h]

theorem or_byte_toNat (x : BitVec 32) (k : Nat) (b : UInt8) (hk : x.toNat = k * 2^8) :
    (x ||| int8 b).toNat = k * 2^8 + b.toNat := by
  rw [BitVec.toNat_or, int8_toNat, hk, ← Nat.shiftLeft_eq,
    ← Nat.shiftLeft_add_eq_or_of_lt b.toNat_lt, Nat.shiftLeft_eq]

theorem toNat_ofBytes_snoc (bytes : List UInt8) (b : UInt8) :
    toNat (ofBytes (bytes ++ [b])) = toNat (ofBytes bytes) * 2^8 + b.toNat := by
  rw [ofBytes_append, toNat_append, ofBytes_cons, ofBytes_nil, List.append_nil, length_ofNat,
    toNat_ofNat_of_lt b.toNat_lt]

theorem word1 (a : UInt8) : (int8 a).toNat = toNat (ofBytes [a]) := by
  rw [← List.nil_append [a], toNat_ofBytes_snoc, int8_toNat]
  simp [Bits.toNat]

theorem word2 (a b : UInt8) : ((int8 a <<< 8) ||| int8 b).toNat = toNat (ofBytes [a, b]) := by
  have ha := a.toNat_lt
  rw [show [a, b] = [a] ++ [b] from rfl, toNat_ofBytes_snoc, ← word1, int8_toNat]
  exact or_byte_toNat _ _ _ (by rw [shiftLeft_toNat _ _ (by rw [int8_toNat]; omega), int8_toNat])

theorem shiftLeft_or (x : BitVec 32) (y : UInt8) (k : Nat) :
    (x <<< (k+8)) ||| (int8 y <<< k) = ((x <<< 8) ||| int8 y) <<< k := by
  rw [BitVec.shiftLeft_or_distrib, Nat.add_comm k 8, BitVec.shiftLeft_add]

theorem word3 (a b c : UInt8) :
    ((int8 a <<< 16) ||| (int8 b <<< 8) ||| int8 c).toNat = toNat (ofBytes [a, b, c]) := by
  have hlt := toNat_lt (ofBytes [a, b])
  simp only [length_ofBytes, List.length_cons, List.length_nil] at hlt
  rw [show [a, b, c] = [a, b] ++ [c] from rfl, toNat_ofBytes_snoc, ← word2] at *
  rw [shiftLeft_or (int8 a) b 8]
  exact or_byte_toNat _ _ _ (shiftLeft_toNat _ _ (by omega))

theorem word4 (a b c d : UInt8) :
    ((int8 a <<< 24) ||| (int8 b <<< 16) ||| (int8 c <<< 8) ||| int8 d).toNat =
      toNat (ofBytes [a, b, c, d]) := by
  have hlt := toNat_lt (ofBytes [a, b, c])
  simp only [length_ofBytes, List.length_cons, List.length_nil] at hlt
  rw [show [a, b, c, d] = [a, b, c] ++ [d] from rfl, toNat_ofBytes_snoc, ← word3] at *
  have hsplit : (int8 a <<< 24) ||| (int8 b <<< 16) ||| (int8 c <<< 8) =
      ((int8 a <<< 16) ||| (int8 b <<< 8) ||| int8 c) <<< 8 := by
    rw [shiftLeft_or (int8 a) b 16, show (16 : Nat) = 8 + 8 from rfl, shiftLeft_or _ c 8,
      ← shiftLeft_or (int8 a) b 8]
  rw [hsplit]
  exact or_byte_toNat _ _ _ (shiftLeft_toNat _ _ (by omega))

theorem slice_toNat (x : BitVec 32) (n s w : Nat) (bytes : List UInt8) (hx : x.toNat = toNat (ofBytes bytes))
    (hlen : 8 * bytes.length = n) (hn : n ≤ 32) (h : s + w ≤ n) :
    (((x <<< s) &&& BitVec.ofNat 32 (2^n - 1)) >>> (n - w)).toNat =
      toNat (((ofBytes bytes).drop s).take w) := by
  have hbits : ofBytes bytes = ofNat n x.toNat := by
    rw [hx, ← hlen, ← length_ofBytes, ofNat_toNat]
  have hmask : 2^n - 1 < 2^32 := lt_of_lt_of_le (by have := Nat.two_pow_pos n; omega)
    (Nat.pow_le_pow_right (by decide) hn)
  rw [hbits, toNat_slice _ h, BitVec.toNat_ushiftRight, BitVec.toNat_and, BitVec.toNat_shiftLeft,
    BitVec.toNat_ofNat, Nat.mod_eq_of_lt hmask, Nat.and_two_pow_sub_one_eq_mod,
    Nat.mod_mod_of_dvd _ (Nat.pow_dvd_pow 2 hn)]

theorem read_field (m : Memory UInt8) (p k w : Nat) (h : p % 8 + w ≤ 8 * k) :
    (ofMemory m).read p w = ((ofBytes (m.read (p/8) k)).drop (p%8)).take w := by
  rw [← ofMemory_read, Memory.read_drop _ _ _ _ (by omega), Memory.read_take _ _ _ _ (by omega)]
  congr 1
  omega

theorem slice_field (m : Memory UInt8) (p w k : Nat) (x : BitVec 32)
    (hx : x.toNat = toNat (ofBytes (m.read (p/8) k))) (hk : 8 * k ≤ 32) (h : p % 8 + w ≤ 8 * k) :
    (((x <<< (p%8)) &&& BitVec.ofNat 32 (2^(8*k) - 1)) >>> (8*k - w)).toNat =
      toNat ((ofMemory m).read p w) := by
  rw [read_field m p k w h]
  exact slice_toNat x (8*k) _ w _ hx (by rw [Memory.read_length]) hk h

theorem field_lt (m : Memory UInt8) (p w : Nat) : toNat ((ofMemory m).read p w) < 2^w := by
  have h := toNat_lt ((ofMemory m).read p w)
  rwa [Memory.read_length] at h

theorem field_mod (m : Memory UInt8) (p : Nat) {w n : Nat} (h : w ≤ n) :
    toNat ((ofMemory m).read p w) % 2^n = toNat ((ofMemory m).read p w) :=
  Nat.mod_eq_of_lt ((field_lt m p w).trans_le (Nat.pow_le_pow_right (by decide) h))

theorem nocheckUint8_read (c : IbCtx) (w : Nat) (hw : w ≤ 8) :
    (c.nocheckUint8 w).1.toNat = toNat ((ofMemory c.data).read c.bitpos w) := by
  unfold IbCtx.nocheckUint8
  dsimp only
  rw [← field_mod c.data c.bitpos hw]
  split
  · next h =>
    rw [byte_toNat, ← slice_field c.data c.bitpos w 1 _ (word1 _) (by decide) h]
    rfl
  · next h =>
    rw [byte_toNat, ← slice_field c.data c.bitpos w 2 _ (word2 _ _) (by decide) (by omega)]
    rfl

theorem nocheckUint16_read (c : IbCtx) (w : Nat) (hw : w ≤ 16) :
    (c.nocheckUint16 w).1.toNat = toNat ((ofMemory c.data).read c.bitpos w) := by
  unfold IbCtx.nocheckUint16
  dsimp only
  rw [← field_mod c.data c.bitpos hw, UInt16.toNat, BitVec.toNat_setWidth]
  split
  · next h =>
    rw [← slice_field c.data c.bitpos w 2 _ (word2 _ _) (by decide) h]
    rfl
  · next h =>
    rw [← slice_field c.data c.bitpos w 3 _ (word3 _ _ _) (by decide) (by omega)]
    rfl

theorem nocheckUint32_read (c : IbCtx) (w : Nat) (h : c.bitpos % 8 + w ≤ 32) :
    c.nocheckUint32 w = (UInt32.ofNat (toNat ((ofMemory c.data).read c.bitpos w)),
      { c with bitpos := u32 (c.bitpos + w) }) := by
  unfold IbCtx.nocheckUint32
  dsimp only
  rw [if_pos h]
  refine congrArg (·, _) (UInt32.toNat_inj.mp ?_)
  rw [UInt32.toNat_ofNat', field_mod c.data c.bitpos (show w ≤ 32 by omega),
    ← slice_field c.data c.bitpos w 4 _ (word4 _ _ _ _) (by decide) h]
  rw [show BitVec.ofNat 32 (2^(8*4) - 1) = BitVec.allOnes 32 from rfl, BitVec.and_allOnes]
  rfl

theorem patch_bits (tmp v mask : BitVec 32) (n s w : Nat) (hmask : mask.toNat = 2^w - 1) (hn : n ≤ 32)
    (h : s + w ≤ n) (hv : v.toNat < 2^w) :
    ofNat n ((tmp &&& ~~~(mask <<< (n-s-w))) ||| (v <<< (n-s-w))).toNat =
      (ofNat n tmp.toNat).take s ++ ofNat w v.toNat ++ (ofNat n tmp.toNat).drop (s+w) := by
  have hmbit (i : Nat) : mask.getLsbD i = decide (i < w) := by
    rw [BitVec.getLsbD, hmask, Nat.testBit_two_pow_sub_one]
  have hvbit (i : Nat) (hi : w ≤ i) : v.getLsbD i = false := by
    rw [BitVec.getLsbD]
    exact Nat.testBit_lt_two_pow (hv.trans_le (Nat.pow_le_pow_right (by decide) hi))
  refine List.ext_getElem (by simp; omega) fun i hi _ => ?_
  rw [length_ofNat] at hi
  rw [ofNat_getElem]
  show BitVec.getLsbD _ _ = _
  simp only [BitVec.getLsbD_or, BitVec.getLsbD_and, BitVec.getLsbD_not, BitVec.getLsbD_shiftLeft, hmbit,
    List.append_assoc, decide_eq_true (show n-1-i < 32 by omega), Bool.true_and]
  by_cases h1 : i < s
  · rw [List.getElem_append_left (by simp; omega), List.getElem_take, ofNat_getElem,
      hvbit _ (by omega), decide_eq_false (show ¬ n-1-i < n-s-w by omega),
      decide_eq_false (show ¬ n-1-i-(n-s-w) < w by omega)]
    simp [BitVec.getLsbD]
  · rw [List.getElem_append_right (by simp; omega)]
    by_cases h2 : i < s + w
    · rw [List.getElem_append_left (by simp; omega), ofNat_getElem,
        decide_eq_false (show ¬ n-1-i < n-s-w by omega),
        decide_eq_true (show n-1-i-(n-s-w) < w by omega)]
      simp only [Bool.not_false, Bool.true_and, Bool.not_true, Bool.and_false, Bool.false_or, BitVec.getLsbD]
      congr 1
      simp
      omega
    · rw [List.getElem_append_right (by simp; omega), List.getElem_drop, ofNat_getElem,
        decide_eq_true (show n-1-i < n-s-w by omega)]
      simp only [Bool.not_true, Bool.false_and, Bool.not_false, Bool.and_true, Bool.or_false, BitVec.getLsbD]
      congr 1
      simp
      omega

theorem ofBytes_byte (x : BitVec 32) : ofNat 8 (byte x).toNat = ofNat 8 x.toNat := by
  rw [byte_toNat, ofNat_mod]

theorem ofNat_snoc (n : Nat) (x : BitVec 32) :
    ofNat (n+8) x.toNat = ofNat n (x >>> 8).toNat ++ ofBytes [byte x] := by
  rw [ofNat_append, BitVec.toNat_ushiftRight, ofBytes_cons, ofBytes_byte, ofBytes_nil, List.append_nil]

theorem byte_and (x : BitVec 32) : byte (x &&& 0xff) = byte x := by
  apply UInt8.toNat_inj.mp
  rw [byte_toNat, byte_toNat, BitVec.toNat_and]
  exact (congrArg (· % 2^8) (Nat.and_two_pow_sub_one_eq_mod x.toNat 8)).trans (Nat.mod_mod _ _)

theorem ofBytes_word1 (x : BitVec 32) : ofBytes [byte x] = ofNat 8 x.toNat := by
  rw [show 8 = 0 + 8 from rfl, ofNat_snoc, ofNat_zero, List.nil_append]

theorem ofBytes_word2 (x : BitVec 32) : ofBytes [byte (x >>> 8), byte x] = ofNat 16 x.toNat := by
  rw [show 16 = 8 + 8 from rfl, ofNat_snoc, ← ofBytes_word1, ← ofBytes_append]
  rfl

theorem ofBytes_word3 (x : BitVec 32) :
    ofBytes [byte (x >>> 16), byte (x >>> 8), byte x] = ofNat 24 x.toNat := by
  rw [show 24 = 16 + 8 from rfl, ofNat_snoc, ← ofBytes_word2, ← ofBytes_append, ← BitVec.shiftRight_add]
  rfl

theorem ofBytes_word4 (x : BitVec 32) :
    ofBytes [byte (x >>> 24), byte (x >>> 16), byte (x >>> 8), byte x] = ofNat 32 x.toNat := by
  refine Eq.trans ?_ (ofNat_snoc 24 x).symm
  rw [← ofBytes_word3, ← ofBytes_append, ← BitVec.shiftRight_add, ← BitVec.shiftRight_add]
  rfl

theorem write_field (m : Memory UInt8) (p w k : Nat) (tmp v mask : BitVec 32) (bytes : List UInt8)
    (htmp : tmp.toNat = toNat (ofBytes (m.read (p/8) k))) (hmask : mask.toNat = 2^w - 1)
    (hk : 8 * k ≤ 32) (h : p % 8 + w ≤ 8 * k) (hv : v.toNat < 2^w)
    (hbytes : ofBytes bytes =
      ofNat (8*k) ((tmp &&& ~~~(mask <<< (8*k - p%8 - w))) ||| (v <<< (8*k - p%8 - w))).toNat) :
    ofMemory (m.write (p/8) bytes) = (ofMemory m).write p (ofNat w v.toNat) := by
  have hword : ofNat (8*k) tmp.toNat = (ofMemory m).read (8*(p/8)) (8*k) := by
    rw [ofMemory_read, htmp]
    exact (congrArg (fun n => ofNat n _) (by simp)).trans (ofNat_toNat _)
  have hs := Memory.write_splice (ofMemory m) (8*(p/8)) (8*k) (p%8) (ofNat w v.toNat)
    (by rw [length_ofNat]; exact h)
  rw [length_ofNat, ← hword, ← patch_bits tmp v mask _ _ _ hmask hk h hv,
    show 8*(p/8) + p%8 = p by omega] at hs
  rw [ofMemory_write, hbytes, hs]

theorem mask_toNat (w : Nat) (hw : w < 32) : ((1#32 <<< w) - 1).toNat = 2^w - 1 := by
  have hpos := Nat.two_pow_pos w
  have hs : (1#32 <<< w).toNat = 2^w := by
    rw [shiftLeft_toNat _ _ (by simpa using Nat.pow_lt_pow_right (by decide) hw)]
    simp
  have hle : (1 : BitVec 32) ≤ 1#32 <<< w := by
    rw [BitVec.le_def, hs]
    exact hpos
  rw [BitVec.toNat_sub_of_le hle, hs]
  rfl

theorem mask32_toNat (w : Nat) (h0 : 1 ≤ w) (hw : w ≤ 32) : ((2#32 <<< (w-1)) - 1).toNat = 2^w - 1 := by
  interval_cases w <;> rfl

theorem setWidth_toNat (x : BitVec 32) (n : Nat) (h : x.toNat < 2^n) :
    ((x.setWidth n).setWidth 32).toNat = x.toNat := by
  rw [BitVec.toNat_setWidth, BitVec.toNat_setWidth, Nat.mod_eq_of_lt h, Nat.mod_eq_of_lt x.isLt]

theorem mask_setWidth (n w : Nat) (hw : w ≤ n) (hw' : w < 32) :
    ((((1#32 <<< w) - 1).setWidth n).setWidth 32).toNat = 2^w - 1 := by
  have hpos := Nat.two_pow_pos w
  have hle : 2^w ≤ 2^n := Nat.pow_le_pow_right (by decide) hw
  rw [setWidth_toNat _ _ (by rw [mask_toNat w hw']; omega), mask_toNat w hw']

theorem ofNat_setWidth (x : BitVec 32) : ofNat 16 ((x.setWidth 16).setWidth 32).toNat = ofNat 16 x.toNat := by
  rw [BitVec.toNat_setWidth, BitVec.toNat_setWidth, ← ofNat_mod 16 x.toNat]
  congr 1
  omega

theorem word2_setWidth (a b : UInt8) :
    ((((int8 a <<< 8) ||| int8 b).setWidth 16).setWidth 32).toNat = toNat (ofBytes [a, b]) := by
  rw [setWidth_toNat _ _ (by rw [word2]; exact toNat_lt (ofBytes [a, b])), word2]

theorem ofBytes_word2' (x : BitVec 32) :
    ofBytes [byte ((x.setWidth 16).setWidth 32 >>> 8), byte ((x.setWidth 16).setWidth 32 &&& 0xff)] =
      ofNat 16 x.toNat := by
  rw [byte_and, ofBytes_word2, ofNat_setWidth]

theorem nocheckUint8_write (c : ObCtx) (w : Nat) (val : UInt8) (hw : w ≤ 8) (hv : val.toNat < 2^w) :
    ofMemory (c.nocheckUint8 w val).data = (ofMemory c.data).write c.bitpos (ofNat w val.toNat) := by
  unfold ObCtx.nocheckUint8
  dsimp only
  rw [← int8_toNat val] at hv ⊢
  split
  · next h =>
    exact write_field c.data c.bitpos w 1 _ _ _ _ (word1 _) (mask_setWidth 8 w hw (by omega)) (by decide) h
      hv (ofBytes_word1 _)
  · next h =>
    exact write_field c.data c.bitpos w 2 _ _ _ _ (word2_setWidth _ _)
      (mask_setWidth 16 w (by omega) (by omega)) (by decide) (by omega) hv (ofBytes_word2' _)

theorem nocheckUint16_write (c : ObCtx) (w : Nat) (val : UInt16) (hw : w ≤ 16) (hv : val.toNat < 2^w) :
    ofMemory (c.nocheckUint16 w val).data = (ofMemory c.data).write c.bitpos (ofNat w val.toNat) := by
  have hval : (val.toBitVec.setWidth 32).toNat = val.toNat := by
    have := val.toNat_lt
    rw [BitVec.toNat_setWidth, UInt16.toNat_toBitVec, Nat.mod_eq_of_lt (by omega)]
  unfold ObCtx.nocheckUint16
  dsimp only
  rw [← hval] at hv ⊢
  split
  · next h =>
    exact write_field c.data c.bitpos w 2 _ _ _ _ (word2_setWidth _ _)
      (mask_setWidth 16 w hw (by omega)) (by decide) h hv (ofBytes_word2' _)
  · next h =>
    exact write_field c.data c.bitpos w 3 _ _ _ _ (word3 _ _ _) (mask_toNat w (by omega)) (by decide)
      (by omega) hv (by rw [byte_and]; exact ofBytes_word3 _)

theorem nocheckUint32_write (c : ObCtx) (w : Nat) (val : UInt32) (h0 : 1 ≤ w)
    (h : c.bitpos % 8 + w ≤ 32) (hv : val.toNat < 2^w) :
    ofMemory (c.nocheckUint32 w val).data = (ofMemory c.data).write c.bitpos (ofNat w val.toNat) ∧
    (c.nocheckUint32 w val).bitpos = u32 (c.bitpos + w) := by
  unfold ObCtx.nocheckUint32
  dsimp only
  rw [if_pos h]
  exact ⟨write_field c.data c.bitpos w 4 _ _ _ _ (word4 _ _ _ _) (mask32_toNat w h0 (by omega)) (by decide) h
    hv (ofBytes_word4 _), rfl⟩

theorem nocheckUint8_bitpos (c : IbCtx) (w : Nat) : (c.nocheckUint8 w).2 = { c with bitpos := u32 (c.bitpos + w) } := rfl

theorem nocheckUint16_bitpos (c : IbCtx) (w : Nat) : (c.nocheckUint16 w).2 = { c with bitpos := u32 (c.bitpos + w) } := rfl

theorem ofMemory_inj {m m' : Memory UInt8} (h : ofMemory m = ofMemory m') : m = m' := by
  rw [← toMemory_ofMemory m, h, toMemory_ofMemory]

theorem ObCtx.ext_bits {c c' : ObCtx} (hdata : ofMemory c.data = ofMemory c'.data) (hpos : c.bitpos = c'.bitpos)
    (hlimit : c.bitlimit = c'.bitlimit) (hstack : c.scopeStack = c'.scopeStack) : c = c' := by
  obtain ⟨p, l, m, s⟩ := c
  obtain ⟨p', l', m', s'⟩ := c'
  obtain rfl : m = m' := ofMemory_inj hdata
  obtain rfl : p = p' := hpos
  obtain rfl : l = l' := hlimit
  obtain rfl : s = s' := hstack
  rfl

theorem nocheckUint32_scopes (c : ObCtx) (w : Nat) (val : UInt32) :
    (c.nocheckUint32 w val).bitlimit = c.bitlimit ∧ (c.nocheckUint32 w val).scopeStack = c.scopeStack := by
  unfold ObCtx.nocheckUint32
  dsimp only
  split
  · exact ⟨rfl, rfl⟩
  · exact ⟨rfl, rfl⟩

/-- What a narrow routine does, the wider ones do with the same bits of a wider variable. A
field in 16 bits never reaches the fifth byte, where the widest routines give up. -/
theorem integer_routines_agree (w : Nat) (h0 : 1 ≤ w) :
    (∀ c : IbCtx, w ≤ 8 →
      Prod.map UInt8.toNat id (c.nocheckUint8 w) = Prod.map UInt16.toNat id (c.nocheckUint16 w)) ∧
    (∀ c : IbCtx, w ≤ 16 →
      Prod.map UInt16.toNat id (c.nocheckUint16 w) = Prod.map UInt32.toNat id (c.nocheckUint32 w)) ∧
    (∀ (c : ObCtx) (val : UInt8), w ≤ 8 → val.toNat < 2^w → c.nocheckUint8 w val = c.nocheckUint16 w val.toUInt16) ∧
    ∀ (c : ObCtx) (val : UInt16), w ≤ 16 → val.toNat < 2^w → c.nocheckUint16 w val = c.nocheckUint32 w val.toUInt32 := by
  refine ⟨fun c hw => ?_, fun c hw => ?_, fun c val hw hv => ?_, fun c val hw hv => ?_⟩
  · have hread := (nocheckUint8_read c w hw).trans (nocheckUint16_read c w (by omega)).symm
    exact Prod.ext hread ((nocheckUint8_bitpos c w).trans (nocheckUint16_bitpos c w).symm)
  · have hspan : c.bitpos % 8 + w ≤ 32 := by omega
    rw [nocheckUint32_read c w hspan]
    refine Prod.ext ((nocheckUint16_read c w hw).trans ?_) (nocheckUint16_bitpos c w)
    exact (UInt32.toNat_ofNat'.trans (field_mod c.data c.bitpos (show w ≤ 32 by omega))).symm
  · have hwide := nocheckUint16_write c w val.toUInt16 (by omega) (by rwa [UInt8.toNat_toUInt16])
    rw [UInt8.toNat_toUInt16] at hwide
    exact ObCtx.ext_bits ((nocheckUint8_write c w val hw hv).trans hwide.symm) rfl rfl rfl
  · have hspan : c.bitpos % 8 + w ≤ 32 := by omega
    obtain ⟨hwide, hpos⟩ := nocheckUint32_write c w val.toUInt32 h0 hspan (by rwa [UInt16.toNat_toUInt32])
    obtain ⟨hlimit, hstack⟩ := nocheckUint32_scopes c w val.toUInt32
    rw [UInt16.toNat_toUInt32] at hwide
    exact ObCtx.ext_bits ((nocheckUint16_write c w val hw hv).trans hwide.symm) hpos.symm hlimit.symm hstack.symm

theorem integer_routines_agree_seven :
    (ObCtx.nocheckUint8 ⟨3, 64, fun _ => 0xff, []⟩ 7 0x2a).data.read 0 4 = [0xea, 0xbf, 0xff, 0xff] ∧
    (ObCtx.nocheckUint32 ⟨3, 64, fun _ => 0xff, []⟩ 7 0x2a).data.read 0 4 = [0xea, 0xbf, 0xff, 0xff] := by
  obtain ⟨-, -, hnarrow, hwide⟩ := integer_routines_agree 7 (by decide)
  have hslow : (ObCtx.nocheckUint8 ⟨3, 64, fun _ => 0xff, []⟩ 7 0x2a).data.read 0 4 = [0xea, 0xbf, 0xff, 0xff] := by decide
  refine ⟨hslow, ?_⟩
  rw [hnarrow _ _ (by decide) (by decide), hwide _ _ (by decide) (by decide)] at hslow
  exact hslow

end Mopa.Io
