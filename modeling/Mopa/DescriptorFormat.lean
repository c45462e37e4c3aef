import Mopa.Descriptors
import Mopa.FormatBinary

/-! Descriptors as formats. The `io` methods are the ones of the formats, seen through
the structs. -/
namespace Mopa.Dvb
open Io

inductive DescriptorClass where
  | adaptationFieldData
  | serviceList
  | cableDeliverySystem
  | unknown
  deriving DecidableEq, Repr

def Content.cls : Content → DescriptorClass
  | adaptationFieldData _ => .adaptationFieldData
  | serviceList _ => .serviceList
  | cableDeliverySystem _ => .cableDeliverySystem
  | unknown _ => .unknown

def serviceFormat : Format :=
  .seq (.uint .uint16 16 (dvbInfo "service_id")) (.uint .uint8 8 (dvbInfo "service_type"))

def cableDeliverySystemFormat : Format :=
  .seq (.uint .uint32 32 ⟨chars "frequency", formatHintHex⟩) <|
  .seq (.required .uint16 12 (0xfff : UInt16) (dvbInfo "reserved_future_use")) <|
  .seq (.uint .uint8 4 (dvbInfo "FEC_outer")) <|
  .seq (.uint .uint8 8 (dvbInfo "modulation")) <|
  .seq (.uint .uint32 28 (dvbInfo "symbol_rate")) (.uint .uint8 4 (dvbInfo "FEC_inner"))

def dataFormat : Nat → Format
  | 0 => .empty
  | n+1 => .fixedString (n+1) (dvbInfo "data")

def DescriptorClass.format : DescriptorClass → Format
  | adaptationFieldData => .block 8 (dvbInfo "length") (dvbInfo "descriptor_content")
      (.uint .uint8 8 (dvbInfo "adaptation_field_data_identifier"))
  | serviceList => .listBlock 8 (dvbInfo "length") (dvbInfo "descriptor_content") .empty serviceFormat
  | cableDeliverySystem => .block 8 (dvbInfo "length") (dvbInfo "descriptor_content") cableDeliverySystemFormat
  | unknown => .select 8 (dvbInfo "length") fun n => dataFormat n.toNat

def descriptorFormat : Format := .select 8 (dvbInfo "tag") fun tag => (descriptorFactory tag).cls.format

def Service.ofValue (v : serviceFormat.Value) : Service := ⟨v.1, v.2⟩

def CableDeliverySystem.ofValue (v : cableDeliverySystemFormat.Value) : CableDeliverySystem :=
  ⟨v.1, v.2.2.1, v.2.2.2.1, v.2.2.2.2.1, v.2.2.2.2.2⟩

def dataOf : (n : Nat) → (dataFormat n).Value → List UInt8
  | 0, _ => []
  | _+1, str => str

namespace Descriptor

def ofClass (tag : UInt8) : (k : DescriptorClass) → k.format.Value → Descriptor
  | .adaptationFieldData, v => ⟨tag, UInt8.ofNat v.1, .adaptationFieldData v.2⟩
  | .serviceList, v => ⟨tag, UInt8.ofNat v.1, .serviceList (v.2.2.map Service.ofValue)⟩
  | .cableDeliverySystem, v => ⟨tag, UInt8.ofNat v.1, .cableDeliverySystem (.ofValue v.2)⟩
  | .unknown, v => ⟨tag, v.1, .unknown (dataOf v.1.toNat v.2)⟩

def ofValue (v : descriptorFormat.Value) : Descriptor := ofClass v.1 _ v.2

end Descriptor

variable {m : Mode} (values : (f : Format) → f.Value) (fuel : Nat)

theorem Service.io_eq (v : serviceFormat.Value) :
    Service.io (m := m) (ofValue v) = ofValue <$> serviceFormat.io values fuel v := by
  rw [map_eq_pure_bind]
  simp only [Service.io, serviceFormat, Format.io, Iox.uint, bind_assoc, pure_bind]
  rfl

theorem CableDeliverySystem.io_eq (v : cableDeliverySystemFormat.Value) :
    CableDeliverySystem.io (m := m) (ofValue v) = ofValue <$> cableDeliverySystemFormat.io values fuel v := by
  rw [map_eq_pure_bind]
  simp only [CableDeliverySystem.io, cableDeliverySystemFormat, Format.io, Iox.uint, bind_assoc, pure_bind]
  rfl

theorem services_eq (service : Service) (list : List serviceFormat.Value) :
    Iox.vectorIo (m := m) fuel service Service.io (list.map Service.ofValue) =
      List.map Service.ofValue <$> Iox.vectorIo fuel (values serviceFormat) (serviceFormat.io values fuel) list := by
  refine vectorIo_map (fun hm => ?_) fun _ v _ => Service.io_eq values fuel v
  have hv : serviceFormat.io (m := m) values fuel (service.serviceId, service.serviceType) =
    serviceFormat.io values fuel (values serviceFormat) := Format.io_parsing hm values fuel serviceFormat _ _
  rw [← hv]
  exact Service.io_eq values fuel (service.serviceId, service.serviceType)

theorem fixedStringIo_parsing (hm : m.isParsing = true) (n : Nat) (info : Info) (str str' : List UInt8) :
    Iox.fixedStringIo (m := m) n str info = Iox.fixedStringIo n str' info := by
  cases m with
  | parseBinary => rfl
  | parseText => rfl
  | constructBinary => cases hm
  | constructText => cases hm

theorem data_eq (n : Nat) (v : (dataFormat n).Value) {str : List UInt8} (h : m.isParsing = false → str = dataOf n v)
    (h0 : n = 0 → str = []) :
    dataOf n <$> (dataFormat n).io (m := m) values fuel v =
      if 0 < n then Iox.fixedStringIo n str (dvbInfo "data") else pure str := by
  cases n with
  | zero =>
    rw [if_neg (Nat.lt_irrefl 0), h0 rfl]
    rfl
  | succ n =>
    rw [if_pos (Nat.succ_pos n)]
    show id <$> Iox.fixedStringIo (n+1) v (dvbInfo "data") = _
    rw [id_map]
    cases hm : m.isParsing with
    | true => exact fixedStringIo_parsing hm _ _ _ _
    | false => rw [h hm]; rfl

namespace Descriptor

def writeTag (tag : UInt8) (k : DescriptorClass) : Iox m Unit :=
  if m.isParsing = false ∧ k ≠ .adaptationFieldData then do
    let _ ← Iox.uint8 8 tag (dvbInfo "tag")
  else
    return ()

theorem tagIo_eq (d : Descriptor) {k : DescriptorClass} (hk : k ≠ .adaptationFieldData) :
    d.tagIo (m := m) = writeTag d.tag k := by
  unfold tagIo writeTag
  simp only [hk, ne_eq, not_false_eq_true, and_true]

theorem unknown_eq (tag : UInt8) (n : UInt8) (v : (dataFormat n.toNat).Value)
    (h : m.isParsing = true → dataOf n.toNat v = []) :
    (do
      let length ← Iox.uint8 (m := m) 8 n (dvbInfo "length")
      if length > 0 then
        let data ← Iox.fixedStringIo length.toNat (dataOf n.toNat v) (dvbInfo "data")
        return ⟨tag, length, .unknown data⟩
      else
        return ⟨tag, length, .unknown (dataOf n.toNat v)⟩) =
      ofClass tag .unknown <$> DescriptorClass.unknown.format.io values fuel ⟨n, v⟩ := by
  have key (k : UInt8) (x : (dataFormat k.toNat).Value)
      (hx : m.isParsing = false → dataOf n.toNat v = dataOf k.toNat x)
      (h0 : k.toNat = 0 → dataOf n.toNat v = []) : (do
      if k > 0 then
        let data ← Iox.fixedStringIo (m := m) k.toNat (dataOf n.toNat v) (dvbInfo "data")
        return ⟨tag, k, .unknown data⟩
      else
        return (⟨tag, k, .unknown (dataOf n.toNat v)⟩ : Descriptor)) =
      (fun a => ofClass tag .unknown ⟨k, a⟩) <$> (dataFormat k.toNat).io values fuel x := by
    have hdata := congrArg (Functor.map fun data => (⟨tag, k, .unknown data⟩ : Descriptor))
      (data_eq (m := m) values fuel k.toNat x hx h0)
    rw [Functor.map_map] at hdata
    refine Eq.trans ?_ hdata.symm
    have hpos : k > 0 ↔ 0 < k.toNat := UInt8.lt_iff_toNat_lt
    rw [map_eq_pure_bind]
    simp only [hpos]
    split
    · rfl
    · rw [pure_bind]
  cases hm : m.isParsing with
  | true =>
    refine Eq.trans ?_ (Format.select_map (fun n => dataFormat n.toNat) _ n v).symm
    exact bind_congr fun k => key k _ (fun h => absurd (hm.symm.trans h) (by decide)) fun _ => h hm
  | false =>
    refine Eq.trans ?_ (Format.select_map_constructing hm (fun n => dataFormat n.toNat) _ n v).symm
    rw [uint8_constructing hm]
    refine bind_congr fun _ => key n v (fun _ => rfl) fun h0 => ?_
    revert v
    rw [h0]
    exact fun _ _ _ => rfl

theorem io_eq (service : Service) (tag : UInt8) (k : DescriptorClass) (v : k.format.Value)
    (h : m.isParsing = true → v = k.format.zero) :
    io (m := m) fuel service (ofClass tag k v) =
      writeTag tag k >>= fun _ => ofClass tag k <$> k.format.io values fuel v := by
  cases k with
  | adaptationFieldData =>
    rw [writeTag, if_neg fun h => h.2 rfl, map_eq_pure_bind]
    rfl
  | serviceList =>
    have ht : (ofClass tag .serviceList v).tagIo = writeTag (m := m) tag .serviceList := tagIo_eq _ (by decide)
    rw [← ht]
    refine bind_congr fun _ => ?_
    have hb := Format.listBlock_map 8 v.1 (dvbInfo "length") (dvbInfo "descriptor_content")
      (services_eq (m := m) values fuel service v.2.2)
    show Iox.namedBlock _ _ _ _ >>= _ = _
    rw [hb]
    simp only [map_eq_pure_bind, bind_assoc, pure_bind]
    rfl
  | cableDeliverySystem =>
    have ht : (ofClass tag .cableDeliverySystem v).tagIo = writeTag (m := m) tag .cableDeliverySystem :=
      tagIo_eq _ (by decide)
    rw [← ht]
    refine bind_congr fun _ => ?_
    have hb : Iox.namedBlock 8 (dvbInfo "length") (dvbInfo "descriptor_content") _ = _ :=
      namedBlock_map (CableDeliverySystem.io_eq (m := m) values fuel v.2)
    show Iox.namedBlock _ _ _ _ >>= _ = _
    rw [hb]
    simp only [map_eq_pure_bind, bind_assoc, pure_bind]
    rfl
  | unknown =>
    have ht : (ofClass tag .unknown v).tagIo = writeTag (m := m) tag .unknown := tagIo_eq _ (by decide)
    rw [← ht]
    refine bind_congr fun _ => unknown_eq values fuel tag v.1 v.2 fun hm => ?_
    rw [h hm]
    rfl

theorem factory_eq (tag : UInt8) :
    (⟨tag, 0, descriptorFactory tag⟩ : Descriptor) =
      ofClass tag (descriptorFactory tag).cls (descriptorFactory tag).cls.format.zero := by
  have key : ∀ c, c = descriptorFactory tag →
      (⟨tag, 0, c⟩ : Descriptor) = ofClass tag c.cls c.cls.format.zero := by
    intro c hc
    unfold descriptorFactory at hc
    split at hc
    · rw [hc]; rfl
    · split at hc
      · rw [hc]; rfl
      · split at hc <;> rw [hc] <;> rfl
  exact key _ rfl

theorem readAhead_eq (hm : m.isParsing = true) (service : Service) (v : descriptorFormat.Value) :
    readAhead (m := m) fuel service = ofValue <$> descriptorFormat.io values fuel v := by
  obtain ⟨n, v⟩ := v
  refine Eq.trans ?_ (Format.select_map (fun tag => (descriptorFactory tag).cls.format) _ n v).symm
  unfold readAhead
  have h8 : Iox.uint8 (m := m) 8 0 (dvbInfo "tag") = Iox.uint8 8 n (dvbInfo "tag") :=
    uint_parsing hm .uint8 0 n
  rw [h8]
  refine bind_congr fun tag => ?_
  rw [factory_eq, io_eq values fuel service tag _ _ fun _ => rfl, writeTag,
    if_neg fun h => absurd (hm.symm.trans h.1) (by decide), pure_bind,
    Format.io_parsing hm values fuel _ _ (if h : n = tag then h ▸ v else values (descriptorFactory tag).cls.format)]
  rfl

theorem factory_cls (tag : UInt8) : (descriptorFactory tag).cls = .adaptationFieldData ↔ tag = 0x70 := by
  constructor
  · intro h
    unfold descriptorFactory at h
    split at h
    · cases h
    · split at h
      · cases h
      · split at h
        · assumption
        · cases h
  · rintro rfl
    rfl

theorem construct_eq (hm : m.isParsing = false) (service : Service) {v : descriptorFormat.Value} (hv : v.1 ≠ 0x70) :
    io (m := m) fuel service (ofValue v) = ofValue <$> descriptorFormat.io values fuel v := by
  obtain ⟨n, v⟩ := v
  refine Eq.trans ?_
    (Format.select_map_constructing hm (fun tag => (descriptorFactory tag).cls.format) _ n v).symm
  refine (io_eq values fuel service n _ v fun h => absurd (hm.symm.trans h) (by decide)).trans ?_
  rw [writeTag, if_pos ⟨hm, fun h => hv ((factory_cls n).mp h)⟩]
  simp only [bind_assoc, pure_bind]
  rfl

end Descriptor

theorem descriptorVectorIo_eq (service : Service) (list : List descriptorFormat.Value)
    (h : m.isParsing = false → ∀ v ∈ list, v.1 ≠ 0x70) :
    descriptorVectorIo (m := m) fuel service (list.map Descriptor.ofValue) =
      List.map Descriptor.ofValue <$> Iox.vectorIo fuel (values descriptorFormat) (descriptorFormat.io values fuel) list := by
  unfold descriptorVectorIo Iox.vectorIo
  cases hm : m.isParsing with
  | true =>
    have hread := Descriptor.readAhead_eq values fuel hm service (values descriptorFormat)
    exact @parseItems_map _ _ _ _ (fun _ => Descriptor.readAhead fuel service) _ _ _ hread fuel []
  | false => exact constructItems_map fun v hv => Descriptor.construct_eq values fuel hm service (h hm v hv)

def Tagged (list : List descriptorFormat.Value) : Prop := ∀ v ∈ list, v.1 ≠ 0x70

end Mopa.Dvb
