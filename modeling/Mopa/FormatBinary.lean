import Mopa.Format

/-! Binary construction of a format writes its encoding, binary parsing reads it back. -/
namespace Mopa.Io
open Bits Outcome

theorem Writes.congr {α : Type} {x : Obx α} {e e' : Encoder α} {top : Nat} (h : Writes x e top)
    (he : ∀ p, e p = e' p) : Writes x e' top := by
  obtain rfl : e = e' := funext he
  exact h

namespace Format
variable {var : Variable} {w p limit span top : Nat} {info : Info}

theorem encodeUint_eq_some {val val' : var.Word} {bits : List Bool} :
    encodeUint span var w val p = some (val', bits) ↔ val' = val ∧
      (Variable.toNat val < 2^w ∧ (var = .uint32 → p % 8 + w ≤ span)) ∧ bits = ofNat w (Variable.toNat val) :=
  Encoder.field_eq_some

theorem writes_uint {val : var.Word} (h0 : 1 ≤ w) (hw : w ≤ var.width) (hv : Variable.toNat val < 2^w)
    (htop : top ≤ highTop) : Writes (Iox.uint (m := .constructBinary) var w val info) (encodeUint 32 var w val) top := by
  cases var with
  | uint8 =>
    refine ((writes_uint8 info hw hv htop).bind fun _ => .pure val).congr fun p => ?_
    rw [encodeUint_eq_some.mpr ⟨rfl, ⟨hv, fun h => by cases h⟩, rfl⟩]
    exact congrArg (fun bits => some (val, bits)) (List.append_nil _)
  | uint16 =>
    refine ((writes_uint16 info hw hv htop).bind fun _ => .pure val).congr fun p => ?_
    rw [encodeUint_eq_some.mpr ⟨rfl, ⟨hv, fun h => by cases h⟩, rfl⟩]
    exact congrArg (fun bits => some (val, bits)) (List.append_nil _)
  | uint32 =>
    refine ((writes_uint32 info h0 hv htop).bind fun _ => .pure val).congr fun p => ?_
    by_cases hspan : p % 8 + w ≤ 32
    · have hf : Encoder.field (fun p => p % 8 + w ≤ 32) (ofNat w (UInt32.toNat val)) () p = some ((), _) :=
        if_pos hspan
      refine (Encoder.bind_eq_some.mpr ⟨(), _, [], hf, rfl, rfl⟩).trans ?_
      rw [List.append_nil, encodeUint_eq_some.mpr ⟨rfl, ⟨hv, fun _ => hspan⟩, rfl⟩]
      rfl
    · have hf : Encoder.field (fun p => p % 8 + w ≤ 32) (ofNat w (UInt32.toNat val)) () p = none :=
        if_neg hspan
      exact (Encoder.bind_none hf).trans (Encoder.field_eq_none fun h => hspan (h.2 rfl)).symm

theorem reads_uint {val val' : var.Word} (fresh : var.Word) {bits : List Bool} (hw : w ≤ var.width)
    (he : encodeUint 32 var w val p = some (val', bits)) :
    Reads (Iox.uint (m := .parseBinary) var w fresh info) val' p limit bits := by
  obtain ⟨rfl, ⟨hv, hs⟩, rfl⟩ := encodeUint_eq_some.mp he
  cases var with
  | uint8 => exact .uint8 hw hv
  | uint16 =>
    have h32 : Reads (Ibx.uint32 w info) (UInt16.toUInt32 val') p limit _ := .uint32 (by have : w ≤ 16 := hw; omega) hv
    have h := h32.map UInt32.toUInt16
    rwa [UInt16.toUInt16_toUInt32] at h
  | uint32 => exact .uint32 (hs rfl) hv

theorem accepts_uint (fresh : var.Word) (hw : w ≤ var.width) (hs : var = .uint32 → p % 8 + w ≤ 32)
    (htop : top ≤ highTop) : Accepts (Iox.uint (m := .parseBinary) var w fresh info) (encodeUint 32 var w) p (p+w) top := by
  have hhigh : highTop = 2^32 - 2^20 := rfl
  intro d val d' hd hp h
  cases var with
  | uint8 =>
    have hw : w ≤ 8 := hw
    obtain ⟨hv, hsees, rfl⟩ := ibx_uint8_ok (hd.lt (by omega)) (hd.limit_lt htop) hw h
    refine ⟨by rw [IbCtx.skip_bitpos]; omega, _, encodeUint_eq_some.mpr ⟨rfl, ⟨hv, fun h => by cases h⟩, rfl⟩,
      hsees, by rw [length_ofNat]⟩
  | uint16 =>
    obtain ⟨val, d', h, hr⟩ := bind_eq_ok.mp h
    cases hr
    have hw : w ≤ 16 := hw
    obtain ⟨hv, hsees, rfl⟩ := ibx_uint32_ok hd htop (by omega) h
    have hval : (UInt32.toUInt16 val).toNat = val.toNat :=
      Nat.mod_eq_of_lt (hv.trans_le (Nat.pow_le_pow_right (by decide) hw))
    refine ⟨by rw [IbCtx.skip_bitpos]; omega, ofNat w val.toNat, encodeUint_eq_some.mpr
      ⟨rfl, ⟨lt_of_eq_of_lt hval hv, fun h => by cases h⟩, congrArg (ofNat w) hval.symm⟩, hsees,
      by rw [length_ofNat]⟩
  | uint32 =>
    have hs := hs rfl
    obtain ⟨hv, hsees, rfl⟩ := ibx_uint32_ok hd htop (by omega) h
    refine ⟨by rw [IbCtx.skip_bitpos]; omega, _, encodeUint_eq_some.mpr ⟨rfl, ⟨hv, fun _ => by omega⟩, rfl⟩,
      hsees, by rw [length_ofNat]⟩

theorem items_eq_some {α : Type} {e : α → Encoder α} {close : α → α} {size : α → Nat} {list list' : List α}
    {bits : List Bool} (he : ∀ a ∈ list, ∀ p a' bits, e a p = some (a', bits) → a' = close a ∧ bits.length = size a)
    (h : Encoder.items e list p = some (list', bits)) :
    list' = list.map close ∧ bits.length = (list.map size).sum := by
  induction list generalizing p list' bits with
  | nil =>
    cases h
    exact ⟨rfl, rfl⟩
  | cons a list ih =>
    obtain ⟨a', as, _, h1, hrest, rfl⟩ := Encoder.bind_eq_some.mp h
    obtain ⟨rest, bs, _, h2, hpure, rfl⟩ := Encoder.bind_eq_some.mp hrest
    obtain ⟨rfl, rfl⟩ := Encoder.pure_eq_some.mp hpure
    obtain ⟨rfl, hsize⟩ := he a List.mem_cons_self _ _ _ h1
    obtain ⟨rfl, hsizes⟩ := ih (fun x hx => he x (List.mem_cons_of_mem a hx)) h2
    refine ⟨rfl, ?_⟩
    rw [List.append_nil, List.length_append, hsize, hsizes, List.map_cons, List.sum_cons]

theorem encode_eq_some {f : Format} {v v' : f.Value} {bits : List Bool}
    (h : f.encode span v p = some (v', bits)) : v' = f.close v ∧ bits.length = f.size v := by
  induction f generalizing p bits with
  | empty =>
    cases h
    exact ⟨rfl, rfl⟩
  | uint var w info =>
    obtain ⟨rfl, -, rfl⟩ := encodeUint_eq_some.mp h
    exact ⟨rfl, length_ofNat _ _⟩
  | required var w val info =>
    obtain ⟨val', as, _, h1, hpure, rfl⟩ := Encoder.bind_eq_some.mp h
    obtain ⟨-, -, rfl⟩ := encodeUint_eq_some.mp h1
    obtain ⟨-, rfl⟩ := Encoder.pure_eq_some.mp hpure
    exact ⟨rfl, by rw [List.append_nil, length_ofNat]; rfl⟩
  | shortString info =>
    obtain ⟨rfl, -, rfl⟩ := encodeShortString_eq_some.mp h
    exact ⟨rfl, by rw [List.length_append, length_ofNat, length_ofBytes]; rfl⟩
  | fixedString numChars info =>
    obtain ⟨rfl, ⟨-, hlen⟩, rfl⟩ := encodeFixedString_eq_some.mp h
    exact ⟨rfl, by rw [length_ofBytes, hlen]; rfl⟩
  | select w info cases ih =>
    obtain ⟨n, as, _, h1, hrest, rfl⟩ := Encoder.bind_eq_some.mp h
    obtain ⟨a, bs, _, h2, hpure, rfl⟩ := Encoder.bind_eq_some.mp hrest
    obtain ⟨rfl, rfl⟩ := Encoder.pure_eq_some.mp hpure
    obtain ⟨-, -, rfl⟩ := encodeUint_eq_some.mp h1
    obtain ⟨rfl, hsize⟩ := ih v.1 h2
    exact ⟨rfl, by rw [List.append_nil, List.length_append, length_ofNat, hsize]; rfl⟩
  | block b info endInfo body ih =>
    obtain ⟨n, a⟩ := v'
    obtain ⟨-, as, h1, hn, -, rfl⟩ := Encoder.block_eq_some.mp h
    obtain ⟨rfl, hsize⟩ := ih h1
    refine ⟨Prod.ext ?_ rfl, by rw [List.length_append, length_ofNat, hsize]; rfl⟩
    show n = body.size v.2 / 8
    omega
  | listBlock b info endInfo body item ihb ihi =>
    obtain ⟨n, a⟩ := v'
    obtain ⟨-, bits, h1, hn, -, rfl⟩ := Encoder.block_eq_some.mp h
    obtain ⟨head, as, _, h2, hrest, rfl⟩ := Encoder.bind_eq_some.mp h1
    obtain ⟨list, bs, _, h3, hpure, rfl⟩ := Encoder.bind_eq_some.mp hrest
    obtain ⟨rfl, rfl⟩ := Encoder.pure_eq_some.mp hpure
    obtain ⟨rfl, hsize⟩ := ihb h2
    obtain ⟨rfl, hsizes⟩ := items_eq_some (fun x _ p a' bits hx => ihi (v := x) hx) h3
    rw [List.append_nil, List.length_append, hsize, hsizes] at hn
    refine ⟨Prod.ext ?_ rfl, ?_⟩
    · show n = (body.size v.2.1 + (v.2.2.map item.size).sum) / 8
      omega
    · rw [List.append_nil, List.length_append, List.length_append, length_ofNat, hsize, hsizes]
      rfl
  | seq f g ihf ihg =>
    obtain ⟨a, as, _, h1, hrest, rfl⟩ := Encoder.bind_eq_some.mp h
    obtain ⟨b, bs, _, h2, hpure, rfl⟩ := Encoder.bind_eq_some.mp hrest
    obtain ⟨rfl, rfl⟩ := Encoder.pure_eq_some.mp hpure
    obtain ⟨rfl, hsize⟩ := ihf h1
    obtain ⟨rfl, hsizes⟩ := ihg h2
    exact ⟨rfl, by rw [List.append_nil, List.length_append, hsize, hsizes]; rfl⟩

theorem items_forall {α : Type} {e : α → Encoder α} {list list' : List α} {bits : List Bool}
    (h : Encoder.items e list p = some (list', bits)) : ∀ a ∈ list, ∃ q a' as, e a q = some (a', as) := by
  induction list generalizing p list' bits with
  | nil => exact fun a ha => by cases ha
  | cons a list ih =>
    obtain ⟨a', as, _, h1, hrest, rfl⟩ := Encoder.bind_eq_some.mp h
    obtain ⟨rest, bs, _, h2, -, -⟩ := Encoder.bind_eq_some.mp hrest
    exact List.forall_mem_cons.mpr ⟨⟨p, a', as, h1⟩, ih h2⟩

theorem fits_of_encode {f : Format} (hf : f.Wf) {v v' : f.Value} {bits : List Bool}
    (h : f.encode span v p = some (v', bits)) : f.Fits v := by
  induction f generalizing p bits with
  | empty => trivial
  | uint var w info => exact (encodeUint_eq_some.mp h).2.1.1
  | required var w val info => trivial
  | shortString info => exact (encodeShortString_eq_some.mp h).2.1.2.trans_lt (by decide)
  | fixedString numChars info =>
    have hlen := (encodeFixedString_eq_some.mp h).2.1.2
    exact (hlen.trans_le hf).trans_lt (by decide)
  | select w info cases ih =>
    obtain ⟨n, as, _, h1, hrest, rfl⟩ := Encoder.bind_eq_some.mp h
    obtain ⟨a, bs, _, h2, -, -⟩ := Encoder.bind_eq_some.mp hrest
    exact ⟨(encodeUint_eq_some.mp h1).2.1.1, ih v.1 (hf.2 v.1) h2⟩
  | block b info endInfo body ih =>
    obtain ⟨n, a⟩ := v'
    obtain ⟨-, as, h1, -⟩ := Encoder.block_eq_some.mp h
    exact ih hf.2 h1
  | listBlock b info endInfo body item ihb ihi =>
    obtain ⟨n, a⟩ := v'
    obtain ⟨-, bits, h1, -⟩ := Encoder.block_eq_some.mp h
    obtain ⟨head, as, _, h2, hrest, -⟩ := Encoder.bind_eq_some.mp h1
    obtain ⟨list, bs, _, h3, -, -⟩ := Encoder.bind_eq_some.mp hrest
    refine ⟨ihb hf.2.1 h2, fun x hx => ?_⟩
    obtain ⟨q, a', as, hx⟩ := items_forall h3 x hx
    exact ihi (v := x) hf.2.2.1 hx
  | seq f g ihf ihg =>
    obtain ⟨a, as, _, h1, hrest, -⟩ := Encoder.bind_eq_some.mp h
    obtain ⟨b, bs, _, h2, -, -⟩ := Encoder.bind_eq_some.mp hrest
    exact ⟨ihf hf.1 h1, ihg hf.2 h2⟩

theorem items_exists {α : Type} {e : α → Encoder α} {close : α → α} {list : List α}
    (he : ∀ a ∈ list, ∀ p, p % 8 = 0 → ∃ bits, e a p = some (close a, bits) ∧ (p + bits.length) % 8 = 0)
    (hp : p % 8 = 0) :
    ∃ bits, Encoder.items e list p = some (list.map close, bits) ∧ (p + bits.length) % 8 = 0 := by
  induction list generalizing p with
  | nil => exact ⟨[], rfl, hp⟩
  | cons a list ih =>
    obtain ⟨as, ha, hp'⟩ := he a List.mem_cons_self p hp
    obtain ⟨bs, hb, hq⟩ := ih (fun x hx => he x (List.mem_cons_of_mem a hx)) hp'
    exact ⟨as ++ bs, Encoder.pair_eq_some ha hb, by rwa [List.length_append, ← Nat.add_assoc]⟩

theorem encode_exists {f : Format} {q o : Nat} (hf : f.Wf) (ha : f.Aligned p q) {v : f.Value} (hv : f.Fits v)
    (hs : f.Small v) (hp : o % 8 = p % 8) :
    ∃ bits, f.encode 32 v o = some (f.close v, bits) ∧ (o + bits.length) % 8 = q % 8 := by
  induction f generalizing p q o with
  | empty => exact ⟨[], rfl, hp.trans ha.symm⟩
  | uint var w info =>
    have hq := ha.2
    exact ⟨_, encodeUint_eq_some.mpr ⟨rfl, ⟨hv, fun h => hp ▸ ha.1 h⟩, rfl⟩, by rw [length_ofNat]; omega⟩
  | required var w val info =>
    have hq := ha.2
    refine ⟨_, Encoder.bind_eq_some.mpr ⟨val, _, [], encodeUint_eq_some.mpr
      ⟨rfl, ⟨hf.2.2, fun h => hp ▸ ha.1 h⟩, rfl⟩, rfl, (List.append_nil _).symm⟩, by rw [length_ofNat]; omega⟩
  | shortString info =>
    have h0 := ha.1
    have hq := ha.2
    exact ⟨_, encodeShortString_eq_some.mpr ⟨rfl, ⟨hp.trans ha.1, hs⟩, rfl⟩,
      by rw [List.length_append, length_ofNat, length_ofBytes]; omega⟩
  | fixedString numChars info =>
    have h0 := ha.1
    have hq := ha.2
    exact ⟨_, encodeFixedString_eq_some.mpr ⟨rfl, ⟨hp.trans ha.1, hs⟩, rfl⟩, by rw [length_ofBytes]; omega⟩
  | select w info cases ih =>
    obtain ⟨bits, he, hq⟩ := ih v.1 (o := o + w) (hf.2 v.1) (ha v.1) hv.2 hs (by omega)
    have h8 : encodeUint 32 .uint8 w v.1 o = some (v.1, ofNat w v.1.toNat) :=
      encodeUint_eq_some.mpr ⟨rfl, ⟨hv.1, fun h => by cases h⟩, rfl⟩
    refine ⟨ofNat w v.1.toNat ++ bits, Encoder.pair_eq_some h8 (by rwa [length_ofNat]), ?_⟩
    rw [List.length_append, length_ofNat, ← Nat.add_assoc, hq]
  | block b info endInfo body ih =>
    obtain ⟨hb, hbody, hq⟩ := ha
    obtain ⟨bits, he, hend⟩ := ih (o := o + b) hf.2 hbody hv hs.2 (by omega)
    have hsize := (encode_eq_some he).2
    have hsmall := hs.1
    have hpow := Nat.two_pow_pos b
    refine ⟨_, Encoder.block_eq_some.mpr ⟨by omega, bits, he, by omega, by omega, rfl⟩, ?_⟩
    rw [List.length_append, length_ofNat]
    omega
  | listBlock b info endInfo body item ihb ihi =>
    obtain ⟨hb, ⟨hbody, hitem⟩, hq⟩ := ha
    obtain ⟨-, hwb, hwi, -⟩ := hf
    obtain ⟨as, he, hp'⟩ := ihb (o := o + b) hwb hbody hv.1 hs.2.1 (by omega)
    obtain ⟨bs, hes, hend⟩ := items_exists (fun x hx p hp => ihi (v := x) hwi hitem (hv.2 x hx) (hs.2.2 x hx) hp) hp'
    have hsize := (encode_eq_some he).2
    have hsizes : bs.length = (v.2.2.map item.size).sum :=
      (items_eq_some (fun x _ p a' bits hx => encode_eq_some hx) hes).2
    have hsmall := hs.1
    have hpow := Nat.two_pow_pos b
    refine ⟨_, Encoder.block_eq_some.mpr ⟨by omega, as ++ bs, Encoder.pair_eq_some he hes, ?_, ?_, rfl⟩, ?_⟩
    · rw [List.length_append]
      omega
    · omega
    · rw [List.length_append, length_ofNat, List.length_append]
      omega
  | seq f g ihf ihg =>
    obtain ⟨r, haf, hag⟩ := ha
    obtain ⟨as, he, hp'⟩ := ihf hf.1 haf hv.1 hs.1 hp
    obtain ⟨bs, he', hq⟩ := ihg hf.2 hag hv.2 hs.2 hp'
    exact ⟨as ++ bs, Encoder.pair_eq_some he he', by rwa [List.length_append, ← Nat.add_assoc]⟩

theorem writes_select {α : Type} {n : UInt8} {k : UInt8 → Obx α} {e : Encoder α} (hw : w ≤ 8)
    (hn : n.toNat < 2^w) (hk : Writes (k n) e top) (htop : top ≤ highTop) :
    Writes (Iox.uint8 (m := .constructBinary) w n info >>= k) (encodeUint 32 .uint8 w n >>= fun _ => e) top := by
  have hx : (Iox.uint8 (m := .constructBinary) w n info >>= k) = Obx.uint8 w n info >>= fun _ => k n := by
    show (Obx.uint8 w n info >>= fun _ => pure n) >>= k = _
    rw [bind_assoc]
    simp only [pure_bind]
  rw [hx]
  refine ((writes_uint8 info hw hn htop).bind fun _ => hk).congr fun p => ?_
  have h1 : Encoder.emit (ofNat w n.toNat) p = some ((), ofNat w n.toNat) := rfl
  have h2 : encodeUint 32 .uint8 w n p = some (n, ofNat w n.toNat) :=
    encodeUint_eq_some.mpr ⟨rfl, ⟨hn, fun h => by cases h⟩, rfl⟩
  exact (Encoder.bind_some h1).trans (Encoder.bind_some (f := fun _ => e) h2).symm

/-- Construction in binary mode writes the encoding where it exists and fits. -/
theorem writes (fresh : (f : Format) → f.Value) (fuel : Nat) {f : Format} (hf : f.Wf) {v : f.Value}
    (hv : f.Fits v) (htop : top ≤ highTop) : Writes (f.io fresh fuel (m := .constructBinary) v) (f.encode 32 v) top := by
  have hhigh : highTop = 2^32 - 2^20 := rfl
  induction f with
  | empty => exact .pure ()
  | uint var w info => exact writes_uint hf.1 hf.2 hv htop
  | required var w val info =>
    refine (writes_uint hf.1 hf.2.1 hf.2.2 htop).bind fun a => ?_
    rw [if_neg fun h => by cases h.1]
    exact .pure ()
  | shortString info => exact writes_shortString v info hv htop
  | fixedString numChars info =>
    have hn : numChars ≤ 255 := hf
    exact writes_fixedString numChars v info hv fun h => by omega
  | select w info cases ih =>
    obtain ⟨n, v⟩ := v
    refine writes_select hf.1.2 hv.1 ?_ htop
    rw [dif_pos rfl]
    exact (ih n (hf.2 n) hv.2).bind fun a => .pure (⟨n, a⟩ : (select w info cases).Value)
  | block b info endInfo body ih => exact (ih hf.2 hv).block hf.1.1 hf.1.2 info endInfo htop
  | listBlock b info endInfo body item ihb ihi =>
    obtain ⟨hb, hbody, hitem, -⟩ := hf
    refine Writes.block ?_ hb.1 hb.2 info endInfo htop
    exact (ihb hbody hv.1).bind fun head => (Writes.items fun x hx => ihi hitem (hv.2 x hx)).bind fun list =>
      .pure (head, list)
  | seq f g ihf ihg => exact (ihf hf.1 hv.1).bind fun a => (ihg hf.2 hv.2).bind fun b => .pure (a, b)

/-- Parsing in binary mode reads an encoding back, whatever it is read into. -/
theorem reads (fresh : (f : Format) → f.Value) {fuel : Nat} {f : Format} (hf : f.Wf) {v v' : f.Value} {bits : List Bool}
    (he : f.encode 32 v p = some (v', bits)) (hfuel : bits.length < fuel) (into : f.Value) :
    Reads (f.io fresh fuel (m := .parseBinary) into) v' p limit bits := by
  induction f generalizing p limit bits with
  | empty =>
    cases he
    exact .pure ()
  | uint var w info => exact reads_uint into hf.2 he
  | required var w val info =>
    obtain ⟨val', as, bs, h1, hpure, rfl⟩ := Encoder.bind_eq_some.mp he
    obtain ⟨-, rfl⟩ := Encoder.pure_eq_some.mp hpure
    refine (reads_uint val hf.2.1 h1).bind ?_
    rw [if_neg fun h => h.2 (encodeUint_eq_some.mp h1).1]
    exact .pure ()
  | shortString info =>
    obtain ⟨rfl, ⟨hp, hlen⟩, rfl⟩ := encodeShortString_eq_some.mp he
    exact .shortString hp hlen
  | fixedString numChars info =>
    obtain ⟨rfl, ⟨hp, hlen⟩, rfl⟩ := encodeFixedString_eq_some.mp he
    exact .fixedString hp hlen hf
  | select w info cases ih =>
    obtain ⟨n, as, _, h1, hrest, rfl⟩ := Encoder.bind_eq_some.mp he
    obtain ⟨a, bs, _, h2, hpure, rfl⟩ := Encoder.bind_eq_some.mp hrest
    obtain ⟨rfl, rfl⟩ := Encoder.pure_eq_some.mp hpure
    rw [List.append_nil] at *
    rw [List.length_append] at hfuel
    obtain ⟨rfl, -, -⟩ := encodeUint_eq_some.mp h1
    refine (reads_uint into.1 hf.1.2 h1).bind ?_
    exact (ih v.1 (hf.2 v.1) h2 (by omega) _).map fun a => (⟨v.1, a⟩ : (select w info cases).Value)
  | block b info endInfo body ih =>
    obtain ⟨n, a⟩ := v'
    obtain ⟨hp, as, h1, hlen, hn, rfl⟩ := Encoder.block_eq_some.mp he
    rw [List.length_append, length_ofNat] at hfuel
    exact .block hp (hf.1.2.trans (by decide)) hn hlen (ih hf.2 h1 (by omega) into.2)
  | listBlock b info endInfo body item ihb ihi =>
    obtain ⟨hb, hbody, hitem, hsome⟩ := hf
    obtain ⟨n, a⟩ := v'
    obtain ⟨hp, bits, h1, hlen, hn, rfl⟩ := Encoder.block_eq_some.mp he
    obtain ⟨head, as, _, h2, hrest, rfl⟩ := Encoder.bind_eq_some.mp h1
    obtain ⟨list, bs, _, h3, hpure, rfl⟩ := Encoder.bind_eq_some.mp hrest
    obtain ⟨rfl, rfl⟩ := Encoder.pure_eq_some.mp hpure
    rw [List.append_nil] at *
    rw [List.length_append, length_ofNat, List.length_append] at hfuel
    refine .block hp (hb.2.trans (by decide)) hn hlen ?_
    rw [List.length_append]
    refine (ihb hbody h2 (by omega) into.2.1).bind ?_
    refine (Reads.items (fun x _ p a' bits hp hx => ?_) h3 le_rfl (by omega) (by omega)).map fun list =>
      (head, list)
    refine ⟨fun hnil => ?_, ihi hitem hx (by omega) _⟩
    have hsize := (encode_eq_some hx).2
    have := hsome x
    rw [hnil, List.length_nil] at hsize
    omega
  | seq f g ihf ihg =>
    obtain ⟨a, as, _, h1, hrest, rfl⟩ := Encoder.bind_eq_some.mp he
    obtain ⟨b, bs, _, h2, hpure, rfl⟩ := Encoder.bind_eq_some.mp hrest
    obtain ⟨rfl, rfl⟩ := Encoder.pure_eq_some.mp hpure
    rw [List.append_nil] at *
    rw [List.length_append] at hfuel
    exact (ihf hf.1 h1 (by omega) into.1).bind ((ihg hf.2 h2 (by omega) into.2).map fun b => (a, b))

/-- What parsing in binary mode has read is encoded by the bits that it has passed. -/
theorem accepts (fresh : (f : Format) → f.Value) (fuel : Nat) {f : Format} (hf : f.Wf) {q : Nat}
    (hn : f.Aligned p q) (into : f.Value) (htop : top ≤ highTop) :
    Accepts (f.io fresh fuel (m := .parseBinary) into) (f.encode 32) p q top := by
  induction f generalizing p q with
  | empty =>
    intro d a d' hd hp h
    cases h
    exact ⟨hp.trans hn.symm, [], rfl, .nil hd htop, rfl⟩
  | uint var w info => exact (accepts_uint into hf.2 hn.1 htop).congr hn.2
  | required var w val info =>
    intro d a d' hd hp h
    obtain ⟨v, d1, h1, h⟩ := bind_eq_ok.mp h
    split at h
    · cases h
    · next hv =>
      cases h
      obtain rfl : v = val := by
        by_contra hne
        exact hv ⟨rfl, hne⟩
      obtain ⟨hq, bits, he, hs, rfl⟩ := accepts_uint v hf.2.1 hn.1 htop d v d' hd hp h1
      refine ⟨hq.trans hn.2.symm, bits, ?_, hs, rfl⟩
      exact Encoder.bind_eq_some.mpr ⟨v, bits, [], he, rfl, (List.append_nil bits).symm⟩
  | shortString info => exact (Accepts.shortString into info htop).congr (hn.2.trans hn.1.symm)
  | fixedString numChars info => exact (Accepts.fixedString hf into info htop).congr (hn.2.trans hn.1.symm)
  | select w info cases ih =>
    have hn8 : Accepts (Iox.uint (m := .parseBinary) .uint8 w into.1 info) (encodeUint 32 .uint8 w) p (p + w) top :=
      accepts_uint into.1 hf.1.2 (fun h => by cases h) htop
    exact Accepts.pair (β := fun n => (cases n).Value) hn8
      (fun n => ih n (hf.2 n) (hn n) _) fun n v p as bs => Encoder.pair_eq_some
  | block b info endInfo body ih =>
    obtain ⟨-, hr, hq⟩ := hn
    exact (Accepts.block hf.1.2 htop (ih hf.2 hr into.2)).congr hq
  | listBlock b info endInfo body item ihb ihi =>
    obtain ⟨-, ⟨hr, hi⟩, hq⟩ := hn
    have hbody := Accepts.pair (g := Prod.mk) (e := fun v : body.Value × List item.Value => do
        let head ← body.encode 32 v.1
        let list ← Encoder.items (item.encode 32) v.2
        return (head, list))
      (ihb hf.2.1 hr into.2.1) (fun _ => Accepts.list fuel (ihi hf.2.2.1 hi (fresh item)) htop)
      fun a list p as bs => Encoder.pair_eq_some
    exact (Accepts.block hf.1.2 htop hbody).congr hq
  | seq f g ihf ihg =>
    obtain ⟨r, hr, hg⟩ := hn
    exact Accepts.pair (ihf hf.1 hr into.1) (fun _ => ihg hf.2 hg into.2)
      fun a b p as bs => Encoder.pair_eq_some

theorem sees_constructed {c : ObCtx} {data : Memory UInt8} {size : Nat} {bits : List Bool} (hsize : size ≤ 2^27)
    (hc : c = (ObCtx.create data size).emit bits) (hfit : bits.length ≤ 8 * size) :
    (IbCtx.create c.data size).Sees bits := by
  subst hc
  have hu : u32 (size * 8) = 8 * size := by rw [u32_of_lt (by omega), Nat.mul_comm]
  refine ⟨?_, ?_, ?_⟩
  · show (ofMemory ((ObCtx.create data size).emit bits).data).read 0 bits.length = bits
    rw [ObCtx.emit_data]
    exact Memory.read_write_same _ _ _
  · show 0 + bits.length ≤ u32 (size * 8)
    omega
  · show u32 (size * 8) < 2^32
    omega

/-- Parsing in binary mode undoes construction in binary mode: it gives the fields,
strings, lists and block lengths back and stops at the same position. -/
theorem parse_constructed {f : Format} (hf : f.Wf) (fresh fresh' : (f : Format) → f.Value) {fuel fuel' : Nat}
    {data : Memory UInt8} {size : Nat} (hsize : size ≤ 2^27) (hfuel : 8 * size < fuel') {v v' : f.Value}
    (hv : f.Fits v) {c : ObCtx}
    (h : f.io fresh fuel (m := .constructBinary) v (ObCtx.create data size) = .ok v' c) (into : f.Value) :
    v' = f.close v ∧ ∃ d, f.io fresh' fuel' (m := .parseBinary) into (IbCtx.create c.data size) = .ok v' d ∧
      d.bitpos = c.bitpos := by
  have hlimit : (ObCtx.create data size).bitlimit = 8 * size := by
    show u32 (size * 8) = 8 * size
    rw [u32_of_lt (by omega), Nat.mul_comm]
  have hgood : (ObCtx.create data size).Good := ⟨Nat.zero_le _, by omega⟩
  obtain ⟨bits, he, hfit, hc⟩ := (writes fresh fuel hf hv (by decide)).of_ok hgood h
  have he : f.encode 32 v 0 = some (v', bits) := he
  have hfit : 0 + bits.length ≤ 8 * size := hlimit ▸ hfit
  have hsees := sees_constructed hsize hc (by omega)
  have hread := reads fresh' hf he (show bits.length < fuel' by omega) into _ rfl hlimit hsees
  refine ⟨(encode_eq_some he).1, _, hread, ?_⟩
  rw [hc]
  rfl

/-- Two fields in a byte, and a block with a number and strings behind it. -/
def sample : Format :=
  .seq (.uint .uint8 3 ⟨chars "a", 0⟩) <| .seq (.uint .uint16 5 ⟨chars "b", 0⟩) <|
    .listBlock 8 ⟨chars "len", 0⟩ ⟨chars "end", 0⟩ (.uint .uint32 24 ⟨chars "c", 0⟩) (.shortString ⟨chars "s", 0⟩)

def sampleValue : sample.Value := ((5 : UInt8), (17 : UInt16), 0, (70000 : UInt32), [chars "xy", []])

theorem sample_wf : sample.Wf := by
  refine ⟨⟨by decide, by decide⟩, ⟨by decide, by decide⟩, ⟨by decide, by decide⟩, ⟨by decide, by decide⟩,
    trivial, fun v => ?_⟩
  show 1 ≤ 8 + 8 * List.length v
  omega

theorem parse_constructed_sample : ∃ c d,
    sample.io zero 0 (m := .constructBinary) sampleValue (ObCtx.create (fun _ => 0xff) 16) =
      .ok (sample.close sampleValue) c ∧
    sample.io zero 200 (m := .parseBinary) (zero sample) (IbCtx.create c.data 16) =
      .ok (sample.close sampleValue) d ∧ d.bitpos = c.bitpos := by
  obtain ⟨c, hc⟩ : ∃ c, sample.io zero 0 (m := .constructBinary) sampleValue (ObCtx.create (fun _ => 0xff) 16) =
    .ok (sample.close sampleValue) c := ⟨_, rfl⟩
  obtain ⟨-, d, hd, hpos⟩ := parse_constructed sample_wf zero zero (by decide) (show 8 * 16 < 200 by decide)
    (show sample.Fits sampleValue by decide) hc (zero sample)
  exact ⟨c, d, hc, hd, hpos⟩

end Format

end Mopa.Io
