import Mopa.Nit
import Mopa.DescriptorLoop

/-! The network information section as formats: what stands in front of
`section_length`, and what stands between it and `CRC`. -/
namespace Mopa.Dvb
open Io

def tsFormat : Format :=
  .seq (.uint .uint16 16 (dvbInfo "transport_stream_id")) <|
  .seq (.uint .uint16 16 (dvbInfo "original_network_id")) <|
  .seq (.required .uint8 4 (0xf : UInt8) (dvbInfo "reserved_future_use")) <|
  .listBlock 12 (dvbInfo "transport_descriptors_length") (dvbInfo "transport_descriptors") .empty descriptorFormat

/-- What stands in front of `section_length`. -/
def headFormat : Format :=
  .seq (.uint .uint8 8 (dvbInfo "table_id")) <|
  .seq (.uint .uint8 1 (dvbInfo "section_syntax_indicator")) <|
  .seq (.required .uint8 1 (1 : UInt8) (dvbInfo "reserved_future_use"))
    (.required .uint8 2 (3 : UInt8) (dvbInfo "reserved"))

/-- What stands between `section_length` and `CRC`. -/
def bodyFormat : Format :=
  .seq (.uint .uint16 16 (dvbInfo "network_id")) <|
  .seq (.required .uint8 2 (3 : UInt8) (dvbInfo "reserved")) <|
  .seq (.uint .uint8 5 (dvbInfo "version_number")) <|
  .seq (.uint .uint8 1 (dvbInfo "current_next_indicator")) <|
  .seq (.uint .uint8 8 (dvbInfo "section_number")) <|
  .seq (.uint .uint8 8 (dvbInfo "last_section_number")) <|
  .seq (.required .uint8 4 (0xf : UInt8) (dvbInfo "reserved_future_use")) <|
  .seq (.listBlock 12 (dvbInfo "network_descriptors_length") (dvbInfo "network_descriptors_length") .empty
    descriptorFormat) <|
  .seq (.required .uint8 4 (0xf : UInt8) (dvbInfo "reserved_future_use"))
    (.listBlock 12 (dvbInfo "transport_stream_loop_length") (dvbInfo "transport_stream_loop_length") .empty tsFormat)

theorem tsFormat_wf : tsFormat.Wf := by
  refine ⟨⟨by decide, by decide⟩, ⟨by decide, by decide⟩, ⟨by decide, by decide, by decide⟩, ⟨by decide, by decide⟩,
    trivial, descriptorFormat_wf, fun v => ?_⟩
  exact (by decide : 1 ≤ 8).trans (Nat.le_add_right 8 _)

theorem tsFormat_aligned : tsFormat.Aligned 0 0 :=
  ⟨16, ⟨nofun, rfl⟩, 32, ⟨nofun, rfl⟩, 36, ⟨nofun, rfl⟩, rfl, ⟨rfl, descriptorFormat_aligned⟩, rfl⟩

theorem headFormat_wf : headFormat.Wf :=
  ⟨⟨by decide, by decide⟩, ⟨by decide, by decide⟩, ⟨by decide, by decide, by decide⟩, by decide, by decide, by decide⟩

theorem bodyFormat_wf : bodyFormat.Wf := by
  refine ⟨⟨by decide, by decide⟩, ⟨by decide, by decide, by decide⟩, ⟨by decide, by decide⟩, ⟨by decide, by decide⟩,
    ⟨by decide, by decide⟩, ⟨by decide, by decide⟩, ⟨by decide, by decide, by decide⟩,
    ⟨⟨by decide, by decide⟩, trivial, descriptorFormat_wf, fun v => ?_⟩, ⟨by decide, by decide, by decide⟩,
    ⟨by decide, by decide⟩, trivial, tsFormat_wf, fun v => ?_⟩
  · exact (by decide : 1 ≤ 8).trans (Nat.le_add_right 8 _)
  · exact (by decide : 1 ≤ 16).trans (Nat.le_add_right 16 _)

theorem bodyFormat_aligned : bodyFormat.Aligned 24 0 :=
  ⟨40, ⟨nofun, rfl⟩, 42, ⟨nofun, rfl⟩, 47, ⟨nofun, rfl⟩, 48, ⟨nofun, rfl⟩, 56, ⟨nofun, rfl⟩, 64, ⟨nofun, rfl⟩,
    68, ⟨nofun, rfl⟩, 80, ⟨rfl, ⟨rfl, descriptorFormat_aligned⟩, rfl⟩, 84, ⟨nofun, rfl⟩, rfl, ⟨rfl, tsFormat_aligned⟩, rfl⟩

def TsSpecification.ofValue (v : tsFormat.Value) : TsSpecification :=
  ⟨v.1, v.2.1, UInt16.ofNat v.2.2.2.1, v.2.2.2.2.2.map Descriptor.ofValue⟩

/-- The section of the values in front of and behind `section_length`. -/
def NetworkInformationSection.ofValue (h : headFormat.Value) (v : bodyFormat.Value) (length : UInt16) (crc : UInt32) :
    NetworkInformationSection :=
  ⟨h.1, h.2.1, length, v.1, v.2.2.1, v.2.2.2.1, v.2.2.2.2.1, v.2.2.2.2.2.1,
    UInt16.ofNat v.2.2.2.2.2.2.2.1.1, v.2.2.2.2.2.2.2.1.2.2.map Descriptor.ofValue,
    UInt16.ofNat v.2.2.2.2.2.2.2.2.2.1, v.2.2.2.2.2.2.2.2.2.2.2.map TsSpecification.ofValue, crc⟩

variable {m : Mode} (values : (f : Format) → f.Value)

def tsTagged (v : tsFormat.Value) : Prop := Tagged v.2.2.2.2.2

def bodyTagged (v : bodyFormat.Value) : Prop :=
  Tagged v.2.2.2.2.2.2.2.1.2.2 ∧ ∀ t ∈ v.2.2.2.2.2.2.2.2.2.2.2, tsTagged t

theorem TsSpecification.io_eq (fresh : Fresh) {v : tsFormat.Value} (h : m.isParsing = false → tsTagged v) :
    io (m := m) fresh (ofValue v) = ofValue <$> tsFormat.io values fresh.fuel v := by
  have hb := Format.listBlock_map 12 v.2.2.2.1 (dvbInfo "transport_descriptors_length") (dvbInfo "transport_descriptors")
    (descriptorVectorIo_eq values fresh.fuel fresh.service _ h)
  rw [map_eq_pure_bind]
  unfold io
  show (Iox.uint16 16 v.1 _ >>= fun _ => _) = _
  simp only [ofValue]
  rw [hb]
  simp only [tsFormat, Format.io, Iox.uint, bind_assoc, pure_bind, map_eq_pure_bind]
  rfl

theorem tsLoop_eq (fresh : Fresh) {list : List tsFormat.Value} (h : m.isParsing = false → ∀ v ∈ list, tsTagged v) :
    Iox.vectorIo (m := m) fresh.fuel { fresh.ts with transportDescriptors := [] } (TsSpecification.io fresh)
        (list.map TsSpecification.ofValue) =
      List.map TsSpecification.ofValue <$>
        Iox.vectorIo fresh.fuel (values tsFormat) (tsFormat.io values fresh.fuel) list := by
  refine vectorIo_map (fun hm => ?_) fun hm v hv => TsSpecification.io_eq values fresh fun hm => h hm v hv
  obtain ⟨v, hfresh⟩ : ∃ v, { fresh.ts with transportDescriptors := [] } = TsSpecification.ofValue v := by
    refine ⟨(fresh.ts.transportStreamId, fresh.ts.originalNetworkId, (),
      fresh.ts.transportDescriptorsLength.toNat, (), []), ?_⟩
    show _ = (⟨_, _, UInt16.ofNat (UInt16.toNat _), _⟩ : TsSpecification)
    rw [UInt16.ofNat_toNat]
    rfl
  rw [hfresh, TsSpecification.io_eq values fresh fun h => absurd (hm.symm.trans h) (by decide),
    Format.io_parsing hm values fresh.fuel tsFormat _ (values tsFormat)]

namespace NetworkInformationSection

def formatIo (values : (f : Format) → f.Value) (fuel : Nat) (h : headFormat.Value) (v : bodyFormat.Value)
    (length : UInt16) (crc : UInt32) : Iox m NetworkInformationSection := do
  let nitBegin ← Iox.bitpos
  let h ← headFormat.io values fuel h
  Iox.namedBlockBegin 12 (dvbInfo "section_length")
  if m.isParsing ∧ length > 1021 then throwX (dvbInfo "section_length") "NIT size exceeds 1024"
  let v ← bodyFormat.io values fuel v
  let crcPos ← Iox.bitpos
  let crc ← Iox.crcIo nitBegin crc (dvbInfo "CRC")
  let length := UInt16.ofNat (← Iox.namedBlockEnd (dvbInfo "section_length"))
  let crc ← Iox.crcLateFix nitBegin crcPos crc (dvbInfo "CRC")
  if m.isParsing = false ∧ length > 1021 then throwX (dvbInfo "section_length") "NIT size exceeds 1024"
  return ofValue h v length crc

theorem io_eq (fresh : Fresh) {h : headFormat.Value} {v : bodyFormat.Value} {length : UInt16} {crc : UInt32}
    (hv : m.isParsing = false → bodyTagged v) :
    io (m := m) fresh (ofValue h v length crc) = formatIo values fresh.fuel h v length crc := by
  have hd := Format.listBlock_map 12 v.2.2.2.2.2.2.2.1.1 (dvbInfo "network_descriptors_length")
    (dvbInfo "network_descriptors_length")
    (descriptorVectorIo_eq values fresh.fuel fresh.service _ fun hm => (hv hm).1)
  have ht := Format.listBlock_map 12 v.2.2.2.2.2.2.2.2.2.1 (dvbInfo "transport_stream_loop_length")
    (dvbInfo "transport_stream_loop_length") (tsLoop_eq values fresh fun hm => (hv hm).2)
  unfold io formatIo
  simp only [ofValue]
  rw [hd, ht]
  simp only [headFormat, bodyFormat, Format.io, Iox.uint, bind_assoc, pure_bind, map_eq_pure_bind]
  rfl

theorem io_parsing (hm : m.isParsing = true) (fresh : Fresh) (t : NetworkInformationSection) (h : headFormat.Value)
    (v : bodyFormat.Value) (crc : UInt32) : io (m := m) fresh t = formatIo values fresh.fuel h v t.sectionLength crc := by
  rw [← io_eq values fresh fun h => absurd (hm.symm.trans h) (by decide)]
  cases m with
  | parseBinary => rfl
  | parseText => rfl
  | constructBinary => cases hm
  | constructText => cases hm

end NetworkInformationSection

end Mopa.Dvb
