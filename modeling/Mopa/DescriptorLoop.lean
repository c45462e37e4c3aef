import Mopa.DescriptorFormat

/-! Loops of descriptors in a named block. -/
namespace Mopa.Dvb
open Io Bits Outcome

def Content.size : Content → Nat
  | adaptationFieldData _ => 1
  | serviceList services => 3 * services.length
  | cableDeliverySystem _ => 11
  | unknown data => data.length

/-- The fields are in range for their widths; the class of unknown tags has the length of
its data in a field of its own. -/
def Content.InRange (length : UInt8) : Content → Prop
  | adaptationFieldData _ => True
  | serviceList _ => True
  | cableDeliverySystem system => system.fecOuter < 2^4 ∧ system.symbolRate < 2^28 ∧ system.fecInner < 2^4
  | unknown data => length.toNat = data.length

namespace Descriptor

def size (d : Descriptor) : Nat := 2 + d.content.size

def close (d : Descriptor) : Descriptor := { d with length := UInt8.ofNat d.content.size }

/-- The class is the one of the tag, and the fields are in range. -/
structure WellFormed (d : Descriptor) : Prop where
  cls : d.content.cls = (descriptorFactory d.tag).cls
  fields : d.content.InRange d.length

end Descriptor

theorem serviceFormat_wf : serviceFormat.Wf := ⟨⟨by decide, by decide⟩, by decide, by decide⟩

theorem cableDeliverySystemFormat_wf : cableDeliverySystemFormat.Wf :=
  ⟨⟨by decide, by decide⟩, ⟨by decide, by decide, by decide⟩, ⟨by decide, by decide⟩, ⟨by decide, by decide⟩,
    ⟨by decide, by decide⟩, by decide, by decide⟩

theorem dataFormat_wf : ∀ n, n ≤ 255 → (dataFormat n).Wf
  | 0, _ => trivial
  | _+1, h => h

theorem DescriptorClass.format_wf (k : DescriptorClass) : k.format.Wf := by
  cases k with
  | adaptationFieldData => exact ⟨by decide, by decide, by decide⟩
  | serviceList =>
    exact ⟨by decide, trivial, serviceFormat_wf, fun _ => show 1 ≤ 16 + 8 by decide⟩
  | cableDeliverySystem => exact ⟨by decide, cableDeliverySystemFormat_wf⟩
  | unknown =>
    refine ⟨by decide, fun n => dataFormat_wf _ ?_⟩
    have := n.toNat_lt
    omega

theorem descriptorFormat_wf : descriptorFormat.Wf :=
  ⟨by decide, fun tag => (descriptorFactory tag).cls.format_wf⟩

theorem dataFormat_aligned : ∀ n, (dataFormat n).Aligned 16 0
  | 0 => rfl
  | _+1 => ⟨rfl, rfl⟩

theorem DescriptorClass.format_aligned (k : DescriptorClass) : k.format.Aligned 8 0 := by
  cases k with
  | adaptationFieldData => exact ⟨rfl, ⟨by decide, rfl⟩, rfl⟩
  | serviceList =>
    exact ⟨rfl, ⟨rfl, ⟨16, ⟨by decide, rfl⟩, by decide, rfl⟩⟩, rfl⟩
  | cableDeliverySystem =>
    exact ⟨rfl, ⟨_, ⟨by decide, rfl⟩, _, ⟨by decide, rfl⟩, _, ⟨by decide, rfl⟩, _, ⟨by decide, rfl⟩, _,
      ⟨by decide, rfl⟩, by decide, rfl⟩, rfl⟩
  | unknown => exact fun n => dataFormat_aligned n.toNat

theorem descriptorFormat_aligned : descriptorFormat.Aligned 0 0 := fun tag =>
  (descriptorFactory tag).cls.format_aligned

def dataValue : (n : Nat) → List UInt8 → (dataFormat n).Value
  | 0, _ => ()
  | _+1, str => str

theorem dataValue_spec {n : Nat} {str : List UInt8} (h : n = str.length) :
    dataOf n (dataValue n str) = str ∧ (dataFormat n).size (dataValue n str) = 8 * str.length ∧
      (dataFormat n).close (dataValue n str) = dataValue n str ∧ (dataFormat n).Small (dataValue n str) ∧
      (n < 2^28 → (dataFormat n).Fits (dataValue n str)) := by
  cases n with
  | zero =>
    obtain rfl := List.eq_nil_of_length_eq_zero h.symm
    exact ⟨rfl, rfl, rfl, trivial, fun _ => trivial⟩
  | succ n => exact ⟨rfl, congrArg (8 * ·) h, rfl, h.symm, fun hn => h.symm.trans_lt hn⟩

theorem size_of_encode_data {span p : Nat} : ∀ {n : Nat} {v a : (dataFormat n).Value} {bits : List Bool},
    (dataFormat n).encode span v p = some (a, bits) → (dataFormat n).size v = 8 * (dataOf n v).length
  | 0, _, _, _, _ => rfl
  | _+1, _, _, _, h => congrArg (8 * ·) (encodeFixedString_eq_some.mp h).2.1.2.symm

def Service.value (s : Service) : serviceFormat.Value := (s.serviceId, s.serviceType)

theorem serviceFormat_sizes (list : List serviceFormat.Value) : (list.map serviceFormat.size).sum = 24 * list.length := by
  induction list with
  | nil => rfl
  | cons v list ih =>
    rw [List.map_cons, List.sum_cons, ih, List.length_cons]
    show 24 + 24 * list.length = _
    omega

namespace Descriptor

theorem WellFormed.exists_value {d : Descriptor} (h : d.WellFormed) :
    ∃ v : descriptorFormat.Value, ofValue v = d ∧ descriptorFormat.Fits v ∧ descriptorFormat.size v = 8 * d.size ∧
      ofValue (descriptorFormat.close v) = d.close ∧ (d.content.size ≤ 255 → descriptorFormat.Small v) := by
  obtain ⟨tag, length, content⟩ := d
  obtain ⟨hcls, hfields⟩ := h
  have key (k : DescriptorClass) (hk : content.cls = k) : ∃ v : k.format.Value,
      ofClass tag k v = ⟨tag, length, content⟩ ∧ k.format.Fits v ∧ k.format.size v = 8 * (1 + content.size) ∧
      ofClass tag k (k.format.close v) = ⟨tag, UInt8.ofNat content.size, content⟩ ∧
      (content.size ≤ 255 → k.format.Small v) := by
    subst hk
    have hlength : UInt8.ofNat length.toNat = length := UInt8.ofNat_toNat
    cases content with
    | adaptationFieldData identifier =>
      refine ⟨(length.toNat, identifier), ?_, identifier.toNat_lt, rfl,
        show _ = (⟨tag, UInt8.ofNat (8 / 8), _⟩ : Descriptor) from rfl, fun _ => ⟨?_, trivial⟩⟩
      · show (⟨tag, UInt8.ofNat length.toNat, .adaptationFieldData identifier⟩ : Descriptor) = _
        rw [hlength]
      · show 8 ≤ 8 * (2^8 - 1)
        decide
    | serviceList services =>
      obtain ⟨list, hlist⟩ : ∃ list, list.map Service.ofValue = services :=
        ⟨services.map Service.value, by rw [List.map_map]; exact List.map_id services⟩
      have hclose : list.map serviceFormat.close = list := List.map_id list
      have hsize : (list.map serviceFormat.size).sum = 8 * (3 * services.length) := by
        rw [serviceFormat_sizes, ← hlist, List.length_map, ← Nat.mul_assoc]
      refine ⟨(length.toNat, (), list), ?_, ⟨trivial, fun v _ => ⟨v.1.toNat_lt, v.2.toNat_lt⟩⟩, ?_, ?_, fun hs => ?_⟩
      · show (⟨tag, UInt8.ofNat length.toNat, .serviceList (list.map Service.ofValue)⟩ : Descriptor) = _
        rw [hlength, hlist]
      · show 8 + (0 + (list.map serviceFormat.size).sum) = 8 * (1 + 3 * services.length)
        omega
      · show (⟨tag, UInt8.ofNat ((0 + (list.map serviceFormat.size).sum) / 8),
          .serviceList ((list.map serviceFormat.close).map Service.ofValue)⟩ : Descriptor) = _
        rw [hclose, hlist, hsize, Nat.zero_add, Nat.mul_div_cancel_left _ (by decide)]
        rfl
      · refine ⟨?_, trivial, fun v _ => ⟨trivial, trivial⟩⟩
        have hs : 3 * services.length ≤ 255 := hs
        show 0 + (list.map serviceFormat.size).sum ≤ 8 * 255
        omega
    | cableDeliverySystem system =>
      obtain ⟨hfec, hrate, hinner⟩ := hfields
      refine ⟨(length.toNat, system.frequency, (), system.fecOuter, system.modulation, system.symbolRate,
        system.fecInner), ?_, ?_, rfl, show _ = (⟨tag, UInt8.ofNat (88 / 8), _⟩ : Descriptor) from rfl,
        fun _ => ⟨?_, ?_⟩⟩
      · show (⟨tag, UInt8.ofNat length.toNat, .cableDeliverySystem system⟩ : Descriptor) = _
        rw [hlength]
      · exact ⟨system.frequency.toNat_lt, trivial, hfec, system.modulation.toNat_lt, hrate, hinner⟩
      · show 88 ≤ 8 * (2^8 - 1)
        decide
      · exact ⟨trivial, trivial, trivial, trivial, trivial, trivial⟩
    | unknown data =>
      have hn : length.toNat = data.length := hfields
      obtain ⟨hdata, hsize, hclose, hsmall, hfits⟩ := dataValue_spec hn
      have hlt : length.toNat < 256 := length.toNat_lt
      refine ⟨⟨length, dataValue length.toNat data⟩, ?_, ⟨hlt, hfits (by omega)⟩, ?_, ?_, fun _ => hsmall⟩
      · show (⟨tag, length, .unknown (dataOf length.toNat (dataValue length.toNat data))⟩ : Descriptor) = _
        rw [hdata]
      · show 8 + (dataFormat length.toNat).size (dataValue length.toNat data) = 8 * (1 + data.length)
        omega
      · show (⟨tag, length, .unknown (dataOf length.toNat
          ((dataFormat length.toNat).close (dataValue length.toNat data)))⟩ : Descriptor) = ⟨tag, UInt8.ofNat data.length, _⟩
        rw [hclose, hdata, ← hn, hlength]
  obtain ⟨v, hv, hfits, hsize, hclose, hsmall⟩ := key _ hcls
  refine ⟨⟨tag, v⟩, hv, ⟨tag.toNat_lt, hfits⟩, ?_, hclose, hsmall⟩
  have hsize : (descriptorFactory tag).cls.format.size v = 8 * (1 + content.size) := hsize
  show 8 + (descriptorFactory tag).cls.format.size v = 8 * (2 + content.size)
  omega

theorem size_of_encode {span p : Nat} {v v' : descriptorFormat.Value} {bits : List Bool}
    (h : descriptorFormat.encode span v p = some (v', bits)) : descriptorFormat.size v = 8 * (ofValue v).size := by
  obtain ⟨tag, v⟩ := v
  have key (k : DescriptorClass) (v v' : k.format.Value) (p : Nat) (bits : List Bool)
      (h : k.format.encode span v p = some (v', bits)) :
      k.format.size v = 8 * (1 + (ofClass tag k v).content.size) := by
    cases k with
    | adaptationFieldData => rfl
    | serviceList =>
      have hsize := serviceFormat_sizes v.2.2
      show 8 + (0 + (v.2.2.map serviceFormat.size).sum) = 8 * (1 + 3 * (v.2.2.map Service.ofValue).length)
      rw [List.length_map]
      omega
    | cableDeliverySystem => rfl
    | unknown =>
      obtain ⟨n, v⟩ := v
      obtain ⟨_, as, bs, -, hrest, -⟩ := Encoder.bind_eq_some.mp h
      obtain ⟨a, bs, _, hdata, -, -⟩ := Encoder.bind_eq_some.mp hrest
      have hsize : (dataFormat n.toNat).size v = 8 * (dataOf n.toNat v).length := size_of_encode_data hdata
      show 8 + (dataFormat n.toNat).size v = 8 * (1 + (dataOf n.toNat v).length)
      omega
  obtain ⟨_, as, bs, -, hrest, -⟩ := Encoder.bind_eq_some.mp h
  obtain ⟨a, bs, _, h2, -, -⟩ := Encoder.bind_eq_some.mp hrest
  have hsize := key (descriptorFactory tag).cls v a _ bs h2
  show 8 + (descriptorFactory tag).cls.format.size v = 8 * (2 + (ofClass tag _ v).content.size)
  omega

end Descriptor

theorem exists_values {list : List Descriptor} (h : ∀ d ∈ list, d.WellFormed) :
    ∃ vs : List descriptorFormat.Value, vs.map Descriptor.ofValue = list ∧
      ∀ v ∈ vs, descriptorFormat.Fits v ∧ descriptorFormat.size v = 8 * (Descriptor.ofValue v).size ∧
        Descriptor.ofValue (descriptorFormat.close v) = (Descriptor.ofValue v).close ∧
        ((Descriptor.ofValue v).content.size ≤ 255 → descriptorFormat.Small v) := by
  induction list with
  | nil => exact ⟨[], rfl, fun v hv => by cases hv⟩
  | cons d list ih =>
    obtain ⟨v, rfl, hv⟩ := (h d List.mem_cons_self).exists_value
    obtain ⟨vs, rfl, hvs⟩ := ih fun d hd => h d (List.mem_cons_of_mem _ hd)
    exact ⟨v :: vs, rfl, List.forall_mem_cons.mpr ⟨hv, hvs⟩⟩

section Construction
variable {values : (f : Format) → f.Value} {fuel p : Nat}

/-- What construction does with a value: the tag 0x70 is missing. -/
def ioValue {m : Mode} (values : (f : Format) → f.Value) (fuel : Nat) (v : descriptorFormat.Value) :
    Iox m descriptorFormat.Value :=
  if v.1 = 0x70 then
    (fun a => ⟨v.1, a⟩) <$> (descriptorFactory v.1).cls.format.io values fuel v.2
  else
    descriptorFormat.io values fuel v

def written (v : descriptorFormat.Value) : Encoder descriptorFormat.Value :=
  if v.1 = 0x70 then do
    let a ← (descriptorFactory v.1).cls.format.encode 32 v.2
    return ⟨v.1, a⟩
  else
    descriptorFormat.encode 32 v

def missing (v : descriptorFormat.Value) : Nat := if v.1 = 0x70 then 8 else 0

theorem io_ofValue {m : Mode} (hm : m.isParsing = false) (service : Service) (v : descriptorFormat.Value) :
    Descriptor.io (m := m) fuel service (Descriptor.ofValue v) = Descriptor.ofValue <$> ioValue values fuel v := by
  by_cases htag : v.1 = 0x70
  · have hio : ioValue (m := m) values fuel v = _ := if_pos htag
    refine (Descriptor.io_eq values fuel service v.1 _ v.2 fun h => absurd (hm.symm.trans h) (by decide)).trans ?_
    rw [hio, Descriptor.writeTag, if_neg fun hk => hk.2 ((Descriptor.factory_cls v.1).mpr htag), pure_bind]
    exact comp_map (fun a => (⟨v.1, a⟩ : descriptorFormat.Value)) Descriptor.ofValue _
  · have hio : ioValue (m := m) values fuel v = _ := if_neg htag
    rw [hio, Descriptor.construct_eq values fuel hm service htag]

theorem writes_ioValue {v : descriptorFormat.Value} (hv : descriptorFormat.Fits v) :
    Writes (ioValue (m := .constructBinary) values fuel v) (written v) highTop := by
  by_cases htag : v.1 = 0x70
  · have hio : ioValue (m := .constructBinary) values fuel v = _ := if_pos htag
    have hw : written v = _ := if_pos htag
    rw [hio, hw]
    exact (Format.writes values fuel (descriptorFactory v.1).cls.format_wf hv.2 le_rfl).map fun a =>
      (⟨v.1, a⟩ : descriptorFormat.Value)
  · have hio : ioValue (m := .constructBinary) values fuel v = _ := if_neg htag
    have hw : written v = _ := if_neg htag
    rw [hio, hw]
    exact Format.writes values fuel descriptorFormat_wf hv le_rfl

theorem ioValue_beyond {v : descriptorFormat.Value} (hv : descriptorFormat.Fits v) {c : ObCtx} (hal : c.bitpos % 8 = 0)
    (hover : c.bitlimit < c.bitpos) (hp : c.bitpos ≤ highTop) :
    Fails (ioValue (m := .constructBinary) values fuel v) c := by
  have hhigh : highTop = 2^32 - 2^20 := rfl
  obtain ⟨tag, v⟩ := v
  by_cases htag : tag = 0x70
  · subst htag
    have hio : ioValue (m := .constructBinary) values fuel ⟨0x70, v⟩ = _ := if_pos rfl
    have hbody := Format.writes values fuel (f := .uint .uint8 8 (dvbInfo "adaptation_field_data_identifier"))
      ⟨by decide, by decide⟩ hv.2 le_rfl
    have hfail := hbody.block_beyond (b := 8) (dvbInfo "length") (dvbInfo "descriptor_content")
      (show (c.bitpos + 8) % 8 = 0 by omega) (by omega) (by omega)
    rw [hio]
    refine fails_of_not_ok fun r c' h => ?_
    obtain ⟨a, h, -⟩ := map_eq_ok.mp h
    exact not_fails_of_ok h hfail
  · have hio : ioValue (m := .constructBinary) values fuel ⟨tag, v⟩ = _ := if_neg htag
    have h8 : Fails (Obx.uint8 8 tag (dvbInfo "tag")) c :=
      ⟨_, c, if_pos (by rw [u32_of_lt (by omega)]; omega)⟩
    rw [hio]
    exact (h8.bind _).bind _

theorem written_eq_some {v v' : descriptorFormat.Value} {bits : List Bool} (h : written v p = some (v', bits)) :
    v' = descriptorFormat.close v ∧ bits.length = descriptorFormat.size v - missing v := by
  by_cases htag : v.1 = 0x70
  · have hw : written v = _ := if_pos htag
    have hm : missing v = 8 := if_pos htag
    rw [hw] at h
    obtain ⟨a, as, _, h1, hpure, rfl⟩ := Encoder.bind_eq_some.mp h
    obtain ⟨rfl, rfl⟩ := Encoder.pure_eq_some.mp hpure
    obtain ⟨rfl, hsize⟩ := Format.encode_eq_some h1
    refine ⟨rfl, ?_⟩
    rw [hm, List.append_nil, hsize]
    exact (Nat.add_sub_cancel_left ..).symm
  · have hw : written v = _ := if_neg htag
    have hm : missing v = 0 := if_neg htag
    rw [hw] at h
    obtain ⟨rfl, hsize⟩ := Format.encode_eq_some h
    exact ⟨rfl, by rw [hm, hsize, Nat.sub_zero]⟩

theorem sum_missing (vs : List descriptorFormat.Value) :
    (vs.map fun v => descriptorFormat.size v - missing v).sum + (vs.map missing).sum =
      (vs.map descriptorFormat.size).sum := by
  induction vs with
  | nil => rfl
  | cons v vs ih =>
    have hle : missing v ≤ descriptorFormat.size v := by
      unfold missing
      show _ ≤ 8 + _
      split <;> omega
    simp only [List.map_cons, List.sum_cons]
    omega

theorem missing_eq_zero {vs : List descriptorFormat.Value} (h : (vs.map missing).sum = 0) : Tagged vs := by
  intro v hv
  have hzero := List.sum_eq_zero_iff_forall_eq_nat.mp h (missing v) (List.mem_map_of_mem hv)
  intro htag
  rw [missing, if_pos htag] at hzero
  cases hzero

theorem items_written {vs : List descriptorFormat.Value} (h : Tagged vs) :
    Encoder.items written vs = Encoder.items (descriptorFormat.encode 32) vs := by
  induction vs with
  | nil => rfl
  | cons v vs ih =>
    have hv : written v = descriptorFormat.encode 32 v := if_neg (h v List.mem_cons_self)
    show (do
      let a ← written v
      let as ← Encoder.items written vs
      return a :: as) = _
    rw [hv, ih fun v hv => h v (List.mem_cons_of_mem _ hv)]
    rfl

end Construction

/-- `descriptor_vector::io` in a named block. -/
def loopIo {m : Mode} (b : Nat) (info endInfo : Info) (fuel : Nat) (service : Service) (list : List Descriptor) :
    Iox m (Nat × List Descriptor) :=
  Iox.namedBlock b info endInfo (descriptorVectorIo fuel service list)

section Loops
variable {b p n : Nat} {info endInfo : Info} {fuel : Nat} {service : Service} {vs vs' : List descriptorFormat.Value}
  {bits : List Bool}

theorem sum_sizes (h : ∀ v ∈ vs, descriptorFormat.size v = 8 * (Descriptor.ofValue v).size) :
    (vs.map descriptorFormat.size).sum = 8 * ((vs.map Descriptor.ofValue).map Descriptor.size).sum := by
  induction vs with
  | nil => rfl
  | cons v vs ih =>
    have hv := h v List.mem_cons_self
    have ih := ih fun v hv => h v (List.mem_cons_of_mem _ hv)
    simp only [List.map_cons, List.sum_cons]
    omega

theorem loop_length (h : Encoder.items (descriptorFormat.encode 32) vs p = some (vs', bits)) :
    bits.length = 8 * ((vs.map Descriptor.ofValue).map Descriptor.size).sum := by
  obtain ⟨-, hsum⟩ := Format.items_eq_some (fun v _ q a' as hv => Format.encode_eq_some hv) h
  rw [hsum]
  refine sum_sizes fun v hv => ?_
  obtain ⟨q, a', as, he⟩ := Format.items_forall h v hv
  exact Descriptor.size_of_encode he

theorem written_length (h : Encoder.block b (Encoder.items written vs) p = some ((n, vs'), bits)) :
    vs' = vs.map descriptorFormat.close ∧ 8 * n + (vs.map missing).sum = (vs.map descriptorFormat.size).sum := by
  obtain ⟨-, as, hitems, hlen, -, -⟩ := Encoder.block_eq_some.mp h
  obtain ⟨rfl, hsum⟩ := Format.items_eq_some (fun v _ q a' as hv => written_eq_some hv) hitems
  exact ⟨rfl, by rw [← sum_missing, ← hlen, hsum]⟩

theorem wrapped_lt (hb : b ≤ 30) (hp : p + b < 2^32) (hwrap : 2^32 ≤ p + b + 8 * (2^b - 1)) :
    u32 (p + b + u32 (u32 (2^b - 1) * 8)) < p + b := by
  have hpow : 2^b ≤ 2^30 := Nat.pow_le_pow_right (by decide) hb
  have hsize : u32 (2^b - 1) = 2^b - 1 := u32_of_lt (by omega)
  rw [hsize]
  by_cases hbig : b ≤ 29
  · have hpow : 2^b ≤ 2^29 := Nat.pow_le_pow_right (by decide) hbig
    unfold u32
    omega
  · obtain rfl : b = 30 := by omega
    unfold u32
    omega

section Wrapped
variable {c : ObCtx} (hb : b ≤ 30) (hal : (c.bitpos + b) % 8 = 0) (hp : c.bitpos + b < 2^32)
  (hfit : c.bitpos + b ≤ c.bitlimit) (hwrap : 2^32 ≤ c.bitpos + b + 8 * (2^b - 1))

include hb hal hp hfit hwrap

theorem begin_wrapped : Obx.namedBlockBegin b info c = .ok () { c with
    bitpos := c.bitpos + b
    scopeStack := ⟨info, c.bitpos + b, c.bitlimit, c.bitpos⟩ :: c.scopeStack
    bitlimit := u32 (c.bitpos + b + u32 (u32 (2^b - 1) * 8)) } := by
  have hlt := wrapped_lt hb hp hwrap
  rw [obx_namedBlockBegin_apply, u32_of_lt hp, if_neg (by omega), if_neg (by omega)]

theorem construct_nil_wrapped (h0 : 1 ≤ b) (hl : c.bitlimit < 2^32) :
    loopIo (m := .constructBinary) b info endInfo fuel service [] c = .ok (0, []) (c.emit (ofNat b 0)) := by
  have hend : Obx.namedBlockEnd endInfo { c with
      bitpos := c.bitpos + b
      scopeStack := ⟨info, c.bitpos + b, c.bitlimit, c.bitpos⟩ :: c.scopeStack
      bitlimit := u32 (c.bitpos + b + u32 (u32 (2^b - 1) * 8)) } = .ok 0 (c.emit (ofNat b 0)) := by
    have hwrite := @obx_uint32_ok b 0 endInfo h0 (Nat.two_pow_pos b) c hfit hl (by omega)
    rw [obx_namedBlockEnd_apply endInfo _ _ c.scopeStack rfl]
    dsimp only
    rw [sub32_of_le le_rfl hp, Nat.sub_self, sub32_of_le (Nat.le_add_right _ _) hp, Nat.add_sub_cancel_left,
      if_neg (by decide), Nat.zero_div]
    refine (bind_ok hwrite).trans ?_
    refine congrArg (EStateM.Result.ok 0) (ObCtx.eq_emit ?_ rfl rfl ?_)
    · rw [length_ofNat]
    · rw [← ObCtx.emit_data]
      rfl
  refine (bind_ok (begin_wrapped hb hal hp hfit hwrap)).trans ?_
  exact (bind_ok hend).trans rfl

theorem construct_cons_wrapped {v : descriptorFormat.Value} {vs : List descriptorFormat.Value}
    (hv : descriptorFormat.Fits v) (hhigh : c.bitlimit ≤ highTop) :
    Fails (Iox.namedBlock (m := .constructBinary) b info endInfo
      (Iox.constructItems (ioValue Format.zero fuel) (v :: vs))) c := by
  refine Fails.bind_right (begin_wrapped hb hal hp hfit hwrap) (Fails.bind ?_ _)
  exact (ioValue_beyond hv hal (wrapped_lt hb hp hwrap) (hfit.trans hhigh)).bind _

end Wrapped

theorem parse_begin {d d' : IbCtx} {u : Unit} (hb : b ≤ 30) (hp : d.bitpos ≤ highTop) (hl : d.bitlimit ≤ highTop)
    (h : Ibx.namedBlockBegin b info d = .ok u d') :
    (d.bitpos + b) % 8 = 0 ∧ d.bitpos + b ≤ d.bitlimit ∧
      (d.bitpos + b + 8 * (toNat (d.next b) % 2^29) ≤ d.bitlimit ∧
        d' = (d.skip b).enter (toNat (d.next b) % 2^29) info ∨
      d'.bitpos = d.bitpos + b ∧ d'.bitlimit < d'.bitpos) := by
  have hhigh : highTop = 2^32 - 2^20 := rfl
  have hlt := d.next_lt b
  have hpow : 2^b ≤ 2^30 := Nat.pow_le_pow_right (by decide) hb
  obtain ⟨n, d1, h1, h⟩ := bind_eq_ok.mp h
  by_cases hspan : d.bitpos % 8 + b ≤ 32
  · rw [show Ibx.uint32 b info d = _ from ibx_uint32_apply (by omega) hspan] at h1
    split at h1
    · next hfit =>
      cases h1
      have hval : (UInt32.ofNat (toNat (d.next b))).toNat = toNat (d.next b) := by
        rw [UInt32.toNat_ofNat', Nat.mod_eq_of_lt (by omega)]
      have hsize : u32 (toNat (d.next b) * 8) = 8 * (toNat (d.next b) % 2^29) := by
        unfold u32
        omega
      unfold Ibx.blockBegin at h
      rw [hval, hsize, IbCtx.skip_bitpos, IbCtx.skip_bitlimit] at h
      split at h
      · cases h
      · next hal =>
        split at h
        · cases h
        · next hroom =>
          cases h
          refine ⟨not_not.mp hal, hfit, ?_⟩
          by_cases hwrap : d.bitpos + b + 8 * (toNat (d.next b) % 2^29) < 2^32
          · rw [u32_of_lt hwrap] at hroom ⊢
            exact Or.inl ⟨by omega, rfl⟩
          · refine Or.inr ⟨rfl, ?_⟩
            show u32 (d.bitpos + b + 8 * (toNat (d.next b) % 2^29)) < d.bitpos + b
            unfold u32
            omega
    · cases h1
  · -- the value spans five bytes: 0 is read, and the position stays where no block begins
    unfold Ibx.uint32 IbCtx.nocheckUint32 at h1
    rw [if_neg hspan] at h1
    split at h1
    · cases h1
    · cases h1
      unfold Ibx.blockBegin at h
      rw [if_pos (show d.bitpos % 8 ≠ 0 by omega)] at h
      cases h

/-- What a loop that is constructed leaves: a length and the bits of the list, but no
list at all where the limit of the block wraps. -/
theorem construct_loop {c c' : ObCtx} {r : Nat × List Descriptor} (h0 : 1 ≤ b) (hb : b ≤ 30)
    (hfits : ∀ v ∈ vs, descriptorFormat.Fits v) (hfit : c.bitpos + b ≤ c.bitlimit) (hl : c.bitlimit ≤ highTop) :
    loopIo (m := .constructBinary) b info endInfo fuel service (vs.map Descriptor.ofValue) c = .ok r c' ↔
      (vs = [] ∨ c.bitpos + b + 8 * (2^b - 1) < 2^32) ∧
      ∃ vs' bits, Encoder.block b (Encoder.items written vs) c.bitpos = some ((r.1, vs'), bits) ∧
        c.bitpos + bits.length ≤ c.bitlimit ∧ c' = c.emit bits ∧ vs'.map Descriptor.ofValue = r.2 := by
  have hhigh : highTop = 2^32 - 2^20 := rfl
  have hio : Iox.constructItems (m := .constructBinary) (Descriptor.io fuel service) (vs.map Descriptor.ofValue) =
      List.map Descriptor.ofValue <$> Iox.constructItems (ioValue Format.zero fuel) vs :=
    constructItems_map fun v _ => io_ofValue rfl service v
  have hblock : loopIo (m := .constructBinary) b info endInfo fuel service (vs.map Descriptor.ofValue) = _ :=
    namedBlock_map hio
  by_cases hwrap : c.bitpos + b + 8 * (2^b - 1) < 2^32
  · have hw : Writes (Iox.constructItems (m := .constructBinary) (ioValue Format.zero fuel) vs)
        (Encoder.items written vs) highTop := Writes.items fun v hv => writes_ioValue (hfits v hv)
    rw [hblock, map_eq_ok]
    constructor
    · rintro ⟨⟨n, vs'⟩, h, rfl⟩
      obtain ⟨bits, he, hroom, hc'⟩ := (hw.block_eq_ok h0 (by omega) (by omega) hl hwrap).mp h
      exact ⟨Or.inr hwrap, vs', bits, he, hroom, hc', rfl⟩
    · rintro ⟨-, vs', bits, he, hroom, hc', hr⟩
      exact ⟨(r.1, vs'), (hw.block_eq_ok h0 (by omega) (by omega) hl hwrap).mpr ⟨bits, he, hroom, hc'⟩, Prod.ext rfl hr⟩
  · have hwrap := not_lt.mp hwrap
    by_cases hal : (c.bitpos + b) % 8 = 0
    · cases vs with
      | nil =>
        have hrun : loopIo (m := .constructBinary) b info endInfo fuel service [] c = _ :=
          construct_nil_wrapped hb hal (by omega) hfit hwrap h0 (by omega)
        have hempty : Encoder.block b (Encoder.items written []) c.bitpos = some ((0, []), ofNat b 0 ++ []) :=
          Encoder.block_eq_some.mpr ⟨hal, [], rfl, rfl, Nat.two_pow_pos b, rfl⟩
        rw [List.append_nil] at hempty
        constructor
        · intro h
          obtain ⟨rfl, rfl⟩ := EStateM.Result.ok.inj (hrun.symm.trans h)
          exact ⟨Or.inl rfl, [], _, hempty, by rwa [length_ofNat], rfl, rfl⟩
        · rintro ⟨-, vs', bits, he, -, rfl, hr⟩
          obtain ⟨hpair, rfl⟩ := Prod.mk.inj (Option.some.inj (hempty.symm.trans he))
          obtain ⟨hn, rfl⟩ := Prod.mk.inj hpair
          exact hrun.trans (congrArg (EStateM.Result.ok · _) (Prod.ext hn hr))
      | cons v vs =>
        have hfail := @construct_cons_wrapped b info endInfo fuel c hb hal (by omega) hfit hwrap v vs
          (hfits v List.mem_cons_self) hl
        constructor
        · intro h
          rw [hblock] at h
          obtain ⟨a, h, -⟩ := map_eq_ok.mp h
          exact absurd hfail (not_fails_of_ok h)
        · rintro ⟨hor, -⟩
          rcases hor with h | h
          · cases h
          · omega
    · constructor
      · intro h
        obtain ⟨u, c1, h1, -⟩ := bind_eq_ok.mp h
        have h1 : Obx.namedBlockBegin b info c = .ok u c1 := h1
        rw [obx_namedBlockBegin_apply, u32_of_lt (by omega), if_pos hal] at h1
        cases h1
      · rintro ⟨-, vs', bits, he, -⟩
        exact absurd (Encoder.block_eq_some.mp he).1 hal

/-- An accepted loop has read the encodings of its descriptors, in a block of as many bytes as
it has announced, modulo 2^29. -/
theorem parse_loop {d d' : IbCtx} {into list : List Descriptor} (hb : b ≤ 30) (hp : d.bitpos ≤ highTop)
    (hl : d.bitlimit ≤ highTop) (h : loopIo (m := .parseBinary) b info endInfo fuel service into d = .ok (n, list) d') :
    n = toNat (d.next b) % 2^29 ∧ (d.bitpos + b) % 8 = 0 ∧ d.bitpos + b + 8 * n ≤ d.bitlimit ∧ d' = d.skip (b + 8 * n) ∧
      ∃ vs bits, list = vs.map Descriptor.ofValue ∧
        Encoder.items (descriptorFormat.encode 32) vs (d.bitpos + b) = some (vs, bits) ∧ bits.length = 8 * n ∧
        (d.skip b).next (8 * n) = bits := by
  have hhigh : highTop = 2^32 - 2^20 := rfl
  have hio : descriptorVectorIo (m := .parseBinary) fuel service into = List.map Descriptor.ofValue <$>
      Iox.parseItems descriptorFormat.zero (descriptorFormat.io Format.zero fuel) fuel [] :=
    descriptorVectorIo_eq (m := .parseBinary) Format.zero fuel service [] fun h => absurd h (by decide)
  have hblock : loopIo (m := .parseBinary) b info endInfo fuel service into = _ := namedBlock_map hio
  rw [hblock] at h
  obtain ⟨⟨n', vs⟩, hrun, hr⟩ := map_eq_ok.mp h
  cases hr
  obtain ⟨u, d2, hbegin, hrun⟩ := bind_eq_ok.mp hrun
  obtain ⟨vs, d3, hbody, hrun⟩ := bind_eq_ok.mp hrun
  obtain ⟨n, d4, hend, hrun⟩ := bind_eq_ok.mp hrun
  cases hrun
  obtain ⟨hal, hfit, ⟨hroom, rfl⟩ | ⟨hpos, hover⟩⟩ := parse_begin hb hp hl hbegin
  · generalize toNat (d.next b) % 2^29 = len at *
    have hitem : Accepts (descriptorFormat.io Format.zero fuel (m := .parseBinary) descriptorFormat.zero)
      (descriptorFormat.encode 32) 0 0 highTop :=
        Format.accepts Format.zero fuel descriptorFormat_wf descriptorFormat_aligned _ le_rfl
    have hgood : ((d.skip b).enter len info).Good highTop :=
      ⟨Nat.le_add_right _ _, show d.bitpos + b + 8 * len ≤ highTop by omega⟩
    obtain ⟨-, bits, he, hs, rfl⟩ := Accepts.list fuel hitem le_rfl _ vs d3 hgood hal hbody
    have hinside : d.bitpos + b + bits.length ≤ d.bitpos + b + 8 * len := hs.room
    obtain ⟨hbits, rfl, rfl⟩ := ibx_blockEnd_ok (by omega) (by omega) hend
    refine ⟨rfl, hal, hroom, rfl, vs, bits, rfl, he, hbits, ?_⟩
    rw [← hbits]
    exact hs.stands
  · cases fuel with
    | zero => cases hbody
    | succ fuel =>
      obtain ⟨left, d1, hleft, hbody⟩ := bind_eq_ok.mp hbody
      cases hleft
      have hleft : sub32 d2.bitlimit d2.bitpos > 0 := by
        unfold sub32
        omega
      rw [if_pos hleft] at hbody
      obtain ⟨a, d5, h8, -⟩ := bind_eq_ok.mp hbody
      obtain ⟨tag, d6, h8, -⟩ := bind_eq_ok.mp h8
      have h8 : Ibx.uint8 8 (dvbInfo "tag") d2 = .ok tag d6 := h8
      rw [ibx_uint8_apply (by omega) le_rfl, if_neg (by omega)] at h8
      cases h8

end Loops

/-- Construction in a block succeeds, and parsing the block gives the list back. Lengths of
descriptors are the ones that construction has filled in. -/
def RoundTrips (b : Nat) (info endInfo : Info) (fuel fuel' : Nat) (service service' : Service)
    (list : List Descriptor) (c : ObCtx) : Prop :=
  ∃ n c', loopIo (m := .constructBinary) b info endInfo fuel service list c = .ok (n, list.map Descriptor.close) c' ∧
    ∀ (into : List Descriptor) (d : IbCtx), d.data = c'.data → d.bitpos = c.bitpos → c'.bitpos ≤ d.bitlimit →
      d.bitlimit < 2^32 →
      ∃ d', loopIo (m := .parseBinary) b info endInfo fuel' service' into d = .ok (n, list.map Descriptor.close) d'

/-- The block begins at a byte, and the limit of a block of the greatest length does not wrap
unless the block stays empty. -/
def Enterable (b p : Nat) (list : List Descriptor) : Prop :=
  (p + b) % 8 = 0 ∧ (list = [] ∨ p + b + 8 * (2^b - 1) < 2^32)

/-- Construction in a block, wherever there is room for it, gives the bits that were parsed. -/
def Rebuilds (b : Nat) (info endInfo : Info) (fuel : Nat) (service : Service) (d d' : IbCtx) (n : Nat)
    (list : List Descriptor) : Prop :=
  ∀ c : ObCtx, c.bitpos = d.bitpos → d'.bitpos ≤ c.bitlimit → c.bitlimit ≤ highTop →
    ∃ c', loopIo (m := .constructBinary) b info endInfo fuel service list c = .ok (n, list) c' ∧
      c'.bitpos = d'.bitpos ∧
      (ofMemory c'.data).read c.bitpos (c'.bitpos - c.bitpos) = (ofMemory d.data).read d.bitpos (d'.bitpos - d.bitpos)

section Theorem
variable {b : Nat} {info endInfo : Info} {fuel fuel' : Nat} {service service' : Service} {list : List Descriptor}
  {c : ObCtx}

theorem Descriptor.ofClass_tag (tag : UInt8) (k : DescriptorClass) (v : k.format.Value) :
    (ofClass tag k v).tag = tag := by
  cases k <;> rfl

theorem tagged_map {vs : List descriptorFormat.Value} :
    Tagged vs ↔ ∀ d ∈ vs.map Descriptor.ofValue, d.tag ≠ 0x70 := by
  have htag (v : descriptorFormat.Value) : (Descriptor.ofValue v).tag = v.1 := Descriptor.ofClass_tag v.1 _ v.2
  simp only [Tagged, List.forall_mem_map, htag]

theorem tagged_of_length {vs vs' : List descriptorFormat.Value} {n p : Nat} {bits : List Bool}
    (h : Encoder.block b (Encoder.items written vs) p = some ((n, vs'), bits))
    (hsize : ∀ v ∈ vs, descriptorFormat.size v = 8 * (Descriptor.ofValue v).size)
    (hn : n = ((vs.map Descriptor.ofValue).map Descriptor.size).sum) : Tagged vs := by
  have hw := (written_length h).2
  rw [sum_sizes hsize, hn] at hw
  exact missing_eq_zero (Nat.add_eq_left.mp hw)

theorem map_close_size (list : List Descriptor) :
    ((list.map Descriptor.close).map Descriptor.size).sum = (list.map Descriptor.size).sum := by
  rw [List.map_map]
  rfl

theorem RoundTrips.holds (h0 : 1 ≤ b) (hb : b ≤ 30) (hwf : ∀ d ∈ list, d.WellFormed) (hfit : c.bitpos + b ≤ c.bitlimit)
    (hl : c.bitlimit ≤ highTop) (h : RoundTrips b info endInfo fuel fuel' service service' list c) :
    (∀ d ∈ list, d.tag ≠ 0x70) ∧ Enterable b c.bitpos list := by
  have hhigh : highTop = 2^32 - 2^20 := rfl
  obtain ⟨vs, rfl, hvs⟩ := exists_values hwf
  obtain ⟨n, c', hc, hparse⟩ := h
  obtain ⟨henter, vs', bits, he, hroom, rfl, hr⟩ := (construct_loop h0 hb (fun v hv => (hvs v hv).1) hfit hl).mp hc
  obtain ⟨d', hd⟩ := hparse [] ⟨c.bitpos, c.bitlimit, (c.emit bits).data, []⟩ rfl rfl hroom
    (hl.trans_lt (by decide))
  obtain ⟨-, hal, -, -, ws, as, hws, hes, hlen, -⟩ := parse_loop hb (show c.bitpos ≤ highTop by omega) hl hd
  have hn := loop_length hes
  rw [hlen, ← hws, map_close_size] at hn
  refine ⟨tagged_map.mp (tagged_of_length he (fun v hv => (hvs v hv).2.1) (Nat.eq_of_mul_eq_mul_left (by decide) hn)),
    hal, ?_⟩
  rwa [List.map_eq_nil_iff]

theorem roundTrips_of_tagged (h0 : 1 ≤ b) (hb : b ≤ 30) (hwf : ∀ d ∈ list, d.WellFormed ∧ d.content.size ≤ 255)
    (hsmall : (list.map Descriptor.size).sum ≤ 2^b - 1)
    (hroom : c.bitpos + b + 8 * (list.map Descriptor.size).sum ≤ c.bitlimit) (hl : c.bitlimit ≤ highTop)
    (hfuel : 2^32 ≤ fuel') (htag : ∀ d ∈ list, d.tag ≠ 0x70) (henter : Enterable b c.bitpos list) :
    RoundTrips b info endInfo fuel fuel' service service' list c := by
  have hhigh : highTop = 2^32 - 2^20 := rfl
  obtain ⟨vs, rfl, hvs⟩ := exists_values fun d hd => (hwf d hd).1
  obtain ⟨hal, henter⟩ := henter
  rw [List.map_eq_nil_iff] at henter
  have htag := tagged_map.mpr htag
  have hsum := sum_sizes fun v hv => (hvs v hv).2.1
  obtain ⟨bits, he, -⟩ := Format.items_exists (e := descriptorFormat.encode 32)
    (fun v hv p hp => Format.encode_exists descriptorFormat_wf descriptorFormat_aligned (hvs v hv).1
      ((hvs v hv).2.2.2 (hwf _ (List.mem_map_of_mem hv)).2) hp) hal
  have hsize : bits.length = (vs.map descriptorFormat.size).sum :=
    (Format.items_eq_some (fun v _ q a' as hv => Format.encode_eq_some hv) he).2
  have hclose : (vs.map descriptorFormat.close).map Descriptor.ofValue =
      (vs.map Descriptor.ofValue).map Descriptor.close := by
    rw [List.map_map, List.map_map]
    exact List.map_congr_left fun v hv => (hvs v hv).2.2.1
  rw [hsum] at hsize
  generalize ((vs.map Descriptor.ofValue).map Descriptor.size).sum = n at hsmall hroom hsize
  have hn : n < 2^b := by
    have := Nat.two_pow_pos b
    omega
  have hblock : Encoder.block b (Encoder.items written vs) c.bitpos =
      some ((n, vs.map descriptorFormat.close), ofNat b n ++ bits) := by
    rw [items_written htag]
    exact Encoder.block_eq_some.mpr ⟨hal, bits, he, hsize, hn, rfl⟩
  have hlength : (ofNat b n ++ bits).length = b + bits.length := by rw [List.length_append, length_ofNat]
  refine ⟨n, c.emit (ofNat b n ++ bits), (construct_loop h0 hb (fun v hv => (hvs v hv).1) (by omega) hl).mpr
    ⟨henter, _, _, hblock, by omega, rfl, hclose⟩, fun into d hdata hpos hfit hlimit => ?_⟩
  have hfit : c.bitpos + (ofNat b n ++ bits).length ≤ d.bitlimit := hfit
  have hstands : d.next (b + bits.length) = ofNat b n ++ bits := by
    rw [← hlength]
    show (ofMemory d.data).read d.bitpos _ = _
    rw [hdata, hpos, ObCtx.emit_data, Memory.read_write_same]
  have hread : Reads (Iox.parseItems (m := .parseBinary) descriptorFormat.zero (descriptorFormat.io Format.zero fuel') fuel' [])
      ([] ++ vs.map descriptorFormat.close) (d.bitpos + b) (d.bitpos + b + bits.length) bits :=
    Reads.items (fun v hv p a' as hp hv => ⟨?_, Format.reads Format.zero descriptorFormat_wf hv (by omega) _⟩)
      (hpos ▸ he) le_rfl (by omega) rfl
  · have hio : loopIo (m := .parseBinary) b info endInfo fuel' service' into = _ :=
      namedBlock_map (descriptorVectorIo_eq (m := .parseBinary) Format.zero fuel' service' []
        fun h => absurd h (by decide))
    refine ⟨d.skip (b + bits.length), ?_⟩
    rw [hio, map_eq_ok]
    exact ⟨_, Reads.block_apply (by rwa [hpos]) (by omega) hn hsize (by omega) hlimit hstands hread,
      Prod.ext rfl hclose⟩
  · rintro rfl
    have hsize := (Format.encode_eq_some hv).2
    have hsize : 0 = 8 + _ := hsize
    omega

theorem Rebuilds.holds {d d' : IbCtx} {n : Nat} {into : List Descriptor} (h0 : 1 ≤ b) (hb : b ≤ 30)
    (hp : d.bitpos ≤ highTop) (hl : d.bitlimit ≤ highTop)
    (hparse : loopIo (m := .parseBinary) b info endInfo fuel' service' into d = .ok (n, list) d')
    (h : Rebuilds b info endInfo fuel service d d' n list) :
    (∀ x ∈ list, x.tag ≠ 0x70) ∧ Enterable b d.bitpos list ∧ toNat (d.next b) < 2^29 := by
  obtain ⟨hn, hal, hroom, rfl, vs, bits, rfl, he, hlen, -⟩ := parse_loop hb hp hl hparse
  have henc := Format.items_forall he
  have hroom : d.bitpos + (b + 8 * n) ≤ d.bitlimit := by omega
  obtain ⟨c', hc, hpos, hread⟩ := h ⟨d.bitpos, d.bitlimit, d.data, []⟩ rfl hroom hl
  obtain ⟨henter, vs', bits', he', -, rfl, -⟩ := (construct_loop h0 hb (fun v hv => by
    obtain ⟨q, a', as, hv⟩ := henc v hv
    exact Format.fits_of_encode descriptorFormat_wf hv) (show d.bitpos + b ≤ d.bitlimit by omega) hl).mp hc
  have hsum := loop_length he
  rw [hlen] at hsum
  refine ⟨tagged_map.mp (tagged_of_length he' (fun v hv => ?_) (Nat.eq_of_mul_eq_mul_left (by decide) hsum)),
    ⟨hal, by rwa [List.map_eq_nil_iff]⟩, ?_⟩
  · obtain ⟨q, a', as, hv⟩ := henc v hv
    exact Descriptor.size_of_encode hv
  · -- the length that construction has written is the one that was announced
    obtain ⟨-, as, -, -, hlt, rfl⟩ := Encoder.block_eq_some.mp he'
    rw [ObCtx.emit_bitpos, ObCtx.emit_data, Nat.add_sub_cancel_left, Memory.read_write_same] at hread
    have hpos : d.bitpos + (ofNat b n ++ as).length = d.bitpos + (b + 8 * n) := hpos
    rw [IbCtx.skip_bitpos, Nat.add_sub_cancel_left] at hread
    have hnext : ofNat b n ++ as = d.next b ++ (d.skip b).next (8 * n) := by
      rw [← IbCtx.next_add]
      exact hread
    have hval := (List.append_inj hnext (by rw [length_ofNat, IbCtx.length_next])).1
    rw [← hval, toNat_ofNat_of_lt hlt] at hn ⊢
    omega

theorem rebuilds_of_tagged {d d' : IbCtx} {n : Nat} {into : List Descriptor} (h0 : 1 ≤ b) (hb : b ≤ 30)
    (hp : d.bitpos ≤ highTop) (hl : d.bitlimit ≤ highTop)
    (hparse : loopIo (m := .parseBinary) b info endInfo fuel' service' into d = .ok (n, list) d')
    (htag : ∀ x ∈ list, x.tag ≠ 0x70) (henter : Enterable b d.bitpos list) (hlow : toNat (d.next b) < 2^29) :
    Rebuilds b info endInfo fuel service d d' n list := by
  obtain ⟨hn, hal, -, rfl, vs, bits, rfl, he, hlen, hs⟩ := parse_loop hb hp hl hparse
  have htag := tagged_map.mpr htag
  rw [Nat.mod_eq_of_lt hlow] at hn
  have hnext : d.next b = ofNat b n := by
    have hval := ofNat_toNat (d.next b)
    rw [IbCtx.length_next, ← hn] at hval
    exact hval.symm
  have hlt : n < 2^b := hn ▸ d.next_lt b
  intro c hpos hroom hl
  have hroom : d.bitpos + (b + 8 * n) ≤ c.bitlimit := hroom
  have hlength : (ofNat b n ++ bits).length = b + 8 * n := by rw [List.length_append, length_ofNat, hlen]
  have hblock : Encoder.block b (Encoder.items written vs) c.bitpos = some ((n, vs), ofNat b n ++ bits) := by
    rw [items_written htag, hpos]
    exact Encoder.block_eq_some.mpr ⟨hal, bits, he, hlen, hlt, rfl⟩
  refine ⟨c.emit (ofNat b n ++ bits), (construct_loop h0 hb (fun v hv => ?_) (by omega) hl).mpr
    ⟨?_, vs, _, hblock, by omega, rfl, rfl⟩, by rw [ObCtx.emit_bitpos, hpos, hlength]; rfl, ?_⟩
  · obtain ⟨q, a', as, hv⟩ := Format.items_forall he v hv
    exact Format.fits_of_encode descriptorFormat_wf hv
  · have hor := henter.2
    rwa [List.map_eq_nil_iff, ← hpos] at hor
  · rw [ObCtx.emit_bitpos, ObCtx.emit_data, IbCtx.skip_bitpos, Nat.add_sub_cancel_left, Nat.add_sub_cancel_left,
      Memory.read_write_same, ← hs, ← hnext]
    exact (IbCtx.next_add d b (8 * n)).symm

/-- A loop of descriptors goes through construction and parsing exactly when no descriptor has
the tag 0x70 and its block can be entered. An accepted loop goes through parsing and construction
exactly when moreover its announced length is not cut to 29 bits. -/
theorem descriptor_loops (h0 : 1 ≤ b) (hb : b ≤ 30) (hfuel : 2^32 ≤ fuel') :
    (∀ (list : List Descriptor) (c : ObCtx), (∀ d ∈ list, d.WellFormed ∧ d.content.size ≤ 255) →
      (list.map Descriptor.size).sum ≤ 2^b - 1 →
      c.bitpos + b + 8 * (list.map Descriptor.size).sum ≤ c.bitlimit → c.bitlimit ≤ highTop →
      (RoundTrips b info endInfo fuel fuel' service service' list c ↔
        (∀ d ∈ list, d.tag ≠ 0x70) ∧ Enterable b c.bitpos list)) ∧
    ∀ (into list : List Descriptor) (n : Nat) (d d' : IbCtx), d.bitpos ≤ highTop → d.bitlimit ≤ highTop →
      loopIo (m := .parseBinary) b info endInfo fuel' service' into d = .ok (n, list) d' →
      (Rebuilds b info endInfo fuel service d d' n list ↔
        (∀ x ∈ list, x.tag ≠ 0x70) ∧ Enterable b d.bitpos list ∧ toNat (d.next b) < 2^29) := by
  refine ⟨fun list c hwf hsmall hroom hl => ⟨fun h => ?_, fun ⟨htag, henter⟩ => ?_⟩,
    fun into list n d d' hp hl hparse => ⟨fun h => ?_, fun ⟨htag, henter, hlow⟩ => ?_⟩⟩
  · exact h.holds h0 hb (fun d hd => (hwf d hd).1) (by omega) hl
  · exact roundTrips_of_tagged h0 hb hwf hsmall hroom hl hfuel htag henter
  · exact h.holds h0 hb hp hl hparse
  · exact rebuilds_of_tagged h0 hb hp hl hparse htag henter hlow

end Theorem

def loopInfo : Info := dvbInfo "network_descriptors_length"

def sampleList : List Descriptor := [⟨0x41, 3, .serviceList [⟨1, 2⟩]⟩, ⟨5, 2, .unknown [7, 8]⟩]

theorem sampleList_wellFormed : ∀ d ∈ sampleList, d.WellFormed ∧ d.content.size ≤ 255 :=
  List.forall_mem_cons.mpr ⟨⟨⟨rfl, trivial⟩, by decide⟩,
    List.forall_mem_singleton.mpr ⟨⟨rfl, rfl⟩, by decide⟩⟩

theorem descriptor_loops_sample : ∃ n c d,
    loopIo (m := .constructBinary) 8 loopInfo loopInfo 0 ⟨0, 0⟩ sampleList (ObCtx.create (fun _ => 0xff) 16) =
      .ok (n, sampleList) c ∧
    loopIo (m := .parseBinary) 8 loopInfo loopInfo (2^32) ⟨0, 0⟩ [] (IbCtx.create c.data 16) = .ok (n, sampleList) d ∧
    Rebuilds 8 loopInfo loopInfo 0 ⟨0, 0⟩ (IbCtx.create c.data 16) d n sampleList := by
  have htag : ∀ d ∈ sampleList, d.tag ≠ 0x70 := by decide
  obtain ⟨hround, hrebuild⟩ := @descriptor_loops 8 loopInfo loopInfo 0 (2^32) ⟨0, 0⟩ ⟨0, 0⟩ (by decide) (by decide) le_rfl
  obtain ⟨n, c, hc, hparse⟩ := (hround sampleList (ObCtx.create (fun _ => 0xff) 16) sampleList_wellFormed (by decide)
    (by decide) (by decide)).mpr ⟨htag, by decide, Or.inr (by decide)⟩
  obtain ⟨vs, hvs, hfits⟩ := exists_values fun d hd => (sampleList_wellFormed d hd).1
  rw [← hvs] at hc
  obtain ⟨-, -, bits, -, hroom, rfl, -⟩ := (construct_loop (by decide) (by decide) (fun v hv => (hfits v hv).1)
    (by decide) (by decide)).mp hc
  have hlimit : u32 (16 * 8) ≤ highTop := by decide
  obtain ⟨d, hd⟩ := hparse [] (IbCtx.create _ 16) rfl rfl hroom (hlimit.trans_lt (by decide))
  rw [hvs] at hc
  obtain ⟨hn, -⟩ := parse_loop (by decide) (Nat.zero_le _) hlimit hd
  have hlow : toNat ((IbCtx.create ((ObCtx.create (fun _ => 0xff) 16).emit bits).data 16).next 8) < 2^29 :=
    (IbCtx.next_lt _ 8).trans (by decide)
  exact ⟨n, _, d, hc, hd, (hrebuild [] sampleList n _ d (Nat.zero_le _) hlimit hd).mpr
    ⟨htag, ⟨show (0 + 8) % 8 = 0 from rfl, Or.inr (show 0 + 8 + 8 * (2^8 - 1) < 2^32 by decide)⟩, hlow⟩⟩

def adaptationField : Descriptor := ⟨0x70, 1, .adaptationFieldData 0⟩

/-- A descriptor of tag 0x70 goes out without its tag, and is not read back. -/
theorem adaptationField_lost :
    ((∀ d ∈ [adaptationField], d.WellFormed ∧ d.content.size ≤ 255) ∧
      ([adaptationField].map Descriptor.size).sum ≤ 2^8 - 1) ∧
    (∃ c, loopIo (m := .constructBinary) 8 loopInfo loopInfo 0 ⟨0, 0⟩ [adaptationField]
      (ObCtx.create (fun _ => 0) 4) = .ok (2, [adaptationField]) c ∧ c.data.read 0 3 = [2, 1, 0]) ∧
    ¬ RoundTrips 8 loopInfo loopInfo 0 (2^32) ⟨0, 0⟩ ⟨0, 0⟩ [adaptationField] (ObCtx.create (fun _ => 0) 4) := by
  have hwf : ∀ d ∈ [adaptationField], d.WellFormed := List.forall_mem_singleton.mpr ⟨rfl, trivial⟩
  refine ⟨⟨fun d hd => ⟨hwf d hd, ?_⟩, by decide⟩, ?_, fun h => ?_⟩
  · obtain rfl := List.mem_singleton.mp hd
    decide
  · have hblock : Encoder.block 8 (Encoder.items written [⟨0x70, ((1 : Nat), (0 : UInt8))⟩]) 0 =
      some ((2, [⟨0x70, ((1 : Nat), (0 : UInt8))⟩]), ofBytes [2, 1, 0]) := rfl
    have hfits : ∀ v ∈ [(⟨0x70, ((1 : Nat), (0 : UInt8))⟩ : descriptorFormat.Value)], descriptorFormat.Fits v := by
      intro v hv
      obtain rfl := List.mem_singleton.mp hv
      exact ⟨by decide, show 0 < 2^8 by decide⟩
    refine ⟨(ObCtx.create (fun _ => 0) 4).emit (ofBytes [2, 1, 0]), (construct_loop (by decide) (by decide) hfits
      (by decide) (by decide)).mpr ⟨Or.inr (by decide), _, _, hblock, by decide, rfl, rfl⟩, ?_⟩
    · refine ofBytes_inj ?_
      rw [← ofMemory_read, ObCtx.emit_data]
      exact Memory.read_write_same _ _ _
  · exact (h.holds (by decide) (by decide) hwf (by decide) (by decide)).1 adaptationField List.mem_cons_self rfl

end Mopa.Dvb
