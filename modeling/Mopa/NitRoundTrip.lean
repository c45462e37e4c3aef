import Mopa.NitConstruction
import Mopa.NitVerdict

/-! Sections through binary construction and parsing, and accepted sections through parsing
and construction. -/
namespace Mopa.Dvb
open Io Bits Outcome

namespace TsSpecification

def size (t : TsSpecification) : Nat := 6 + (t.transportDescriptors.map Descriptor.size).sum

def close (t : TsSpecification) : TsSpecification := { t with
  transportDescriptorsLength := UInt16.ofNat (t.transportDescriptors.map Descriptor.size).sum
  transportDescriptors := t.transportDescriptors.map Descriptor.close }

end TsSpecification

namespace NetworkInformationSection

/-- All descriptors, those of the network and those of the transport streams. -/
def descriptors (t : NetworkInformationSection) : List Descriptor :=
  t.networkDescriptors ++ t.tsLoop.flatMap TsSpecification.transportDescriptors

/-- The fields are in range for their widths, and so are those of the descriptors. -/
structure WellFormed (t : NetworkInformationSection) : Prop where
  sectionSyntaxIndicator : t.sectionSyntaxIndicator < 2
  versionNumber : t.versionNumber < 32
  currentNextIndicator : t.currentNextIndicator < 2
  descriptors : ∀ d ∈ t.descriptors, d.WellFormed

/-- The bytes behind `section_length`, with the checksum. -/
def size (t : NetworkInformationSection) : Nat :=
  13 + (t.networkDescriptors.map Descriptor.size).sum + (t.tsLoop.map TsSpecification.size).sum

def close (t : NetworkInformationSection) (crc : UInt32) : NetworkInformationSection := { t with
  sectionLength := UInt16.ofNat t.size
  networkDescriptorsLength := UInt16.ofNat (t.networkDescriptors.map Descriptor.size).sum
  networkDescriptors := t.networkDescriptors.map Descriptor.close
  transportStreamLoopLength := UInt16.ofNat (t.tsLoop.map TsSpecification.size).sum
  tsLoop := t.tsLoop.map TsSpecification.close
  crc := crc }

end NetworkInformationSection

theorem exists_list {list : List Descriptor} (h : ∀ d ∈ list, d.WellFormed) (htag : ∀ d ∈ list, d.tag ≠ 0x70) :
    ∃ vs : List descriptorFormat.Value, vs.map Descriptor.ofValue = list ∧ (∀ v ∈ vs, descriptorFormat.Fits v) ∧ Tagged vs ∧
      (vs.map descriptorFormat.size).sum = 8 * (list.map Descriptor.size).sum ∧
      (vs.map descriptorFormat.close).map Descriptor.ofValue = list.map Descriptor.close := by
  obtain ⟨vs, rfl, hvs⟩ := exists_values h
  refine ⟨vs, rfl, fun v hv => (hvs v hv).1, tagged_map.mpr htag, sum_sizes fun v hv => (hvs v hv).2.1, ?_⟩
  rw [List.map_map, List.map_map]
  exact List.map_congr_left fun v hv => (hvs v hv).2.2.1

namespace TsSpecification

theorem exists_value {t : TsSpecification} (h : ∀ d ∈ t.transportDescriptors, d.WellFormed)
    (htag : ∀ d ∈ t.transportDescriptors, d.tag ≠ 0x70) :
    ∃ v : tsFormat.Value, ofValue v = t ∧ tsFormat.Fits v ∧ tsTagged v ∧ tsFormat.size v = 8 * t.size ∧
      ofValue (tsFormat.close v) = t.close := by
  obtain ⟨transportStreamId, originalNetworkId, length, list⟩ := t
  obtain ⟨vs, hvs, hfits, htagged, hsize, hclose⟩ := exists_list h htag
  refine ⟨(transportStreamId, originalNetworkId, (), length.toNat, (), vs), ?_, ?_, htagged, ?_, ?_⟩
  · show (⟨_, _, UInt16.ofNat length.toNat, vs.map Descriptor.ofValue⟩ : TsSpecification) = _
    rw [UInt16.ofNat_toNat, hvs]
  · exact ⟨transportStreamId.toNat_lt, originalNetworkId.toNat_lt, trivial, trivial, hfits⟩
  · show 16 + (16 + (4 + (12 + (0 + (vs.map descriptorFormat.size).sum)))) = 8 * (6 + (list.map Descriptor.size).sum)
    rw [hsize]
    ring
  · show (⟨_, _, UInt16.ofNat ((0 + (vs.map descriptorFormat.size).sum) / 8),
      (vs.map descriptorFormat.close).map Descriptor.ofValue⟩ : TsSpecification) = _
    rw [Nat.zero_add, hsize, Nat.mul_div_cancel_left _ (by decide), hclose]
    rfl

theorem exists_loop {list : List TsSpecification} (h : ∀ t ∈ list, ∀ d ∈ t.transportDescriptors, d.WellFormed)
    (htag : ∀ t ∈ list, ∀ d ∈ t.transportDescriptors, d.tag ≠ 0x70) :
    ∃ vs : List tsFormat.Value, vs.map ofValue = list ∧ (∀ v ∈ vs, tsFormat.Fits v) ∧ (∀ v ∈ vs, tsTagged v) ∧
      (vs.map tsFormat.size).sum = 8 * (list.map size).sum ∧ (vs.map tsFormat.close).map ofValue = list.map close := by
  induction list with
  | nil => exact ⟨[], rfl, nofun, nofun, rfl, rfl⟩
  | cons t list ih =>
    obtain ⟨v, hv, hfits, htagged, hsize, hclose⟩ := exists_value (h t List.mem_cons_self) (htag t List.mem_cons_self)
    obtain ⟨vs, hvs, hfits', htagged', hsize', hclose'⟩ := ih (fun t ht => h t (List.mem_cons_of_mem _ ht))
      fun t ht => htag t (List.mem_cons_of_mem _ ht)
    refine ⟨v :: vs, by rw [List.map_cons, hv, hvs], List.forall_mem_cons.mpr ⟨hfits, hfits'⟩,
      List.forall_mem_cons.mpr ⟨htagged, htagged'⟩, ?_, by simp only [List.map_cons, hclose, hclose']⟩
    rw [List.map_cons, List.sum_cons, hsize, hsize', List.map_cons, List.sum_cons, Nat.mul_add]

end TsSpecification

namespace NetworkInformationSection

theorem WellFormed.exists_value {t : NetworkInformationSection} (h : t.WellFormed) (htag : ∀ d ∈ t.descriptors, d.tag ≠ 0x70) :
    ∃ (hv : headFormat.Value) (v : bodyFormat.Value), ofValue hv v t.sectionLength t.crc = t ∧ headFormat.Fits hv ∧
      bodyFormat.Fits v ∧ bodyTagged v ∧ bodyFormat.size v + 32 = 8 * t.size ∧
      ∀ crc, ofValue hv (bodyFormat.close v) (UInt16.ofNat t.size) crc = t.close crc := by
  obtain ⟨hindicator, hversion, hcurrent, hwf⟩ := h
  have hmem {ts : TsSpecification} (hts : ts ∈ t.tsLoop) {d : Descriptor} (hd : d ∈ ts.transportDescriptors) :
      d ∈ t.descriptors := List.mem_append_right _ (List.mem_flatMap.mpr ⟨ts, hts, hd⟩)
  obtain ⟨vs, hvs, hfits, htagged, hsize, hclose⟩ := exists_list
    (fun d hd => hwf d (List.mem_append_left _ hd)) fun d hd => htag d (List.mem_append_left _ hd)
  obtain ⟨ws, hws, hfits', htagged', hsize', hclose'⟩ := TsSpecification.exists_loop
    (fun ts hts d hd => hwf d (hmem hts hd)) fun ts hts d hd => htag d (hmem hts hd)
  refine ⟨(t.tableId, t.sectionSyntaxIndicator, (), ()),
    (t.networkId, (), t.versionNumber, t.currentNextIndicator, t.sectionNumber, t.lastSectionNumber, (),
      (t.networkDescriptorsLength.toNat, (), vs), (), t.transportStreamLoopLength.toNat, (), ws), ?_, ?_, ?_, ?_, ?_, ?_⟩
  · show (⟨t.tableId, t.sectionSyntaxIndicator, t.sectionLength, t.networkId, t.versionNumber, t.currentNextIndicator,
      t.sectionNumber, t.lastSectionNumber, UInt16.ofNat t.networkDescriptorsLength.toNat, vs.map Descriptor.ofValue,
      UInt16.ofNat t.transportStreamLoopLength.toNat, ws.map TsSpecification.ofValue, t.crc⟩ : NetworkInformationSection) = t
    rw [UInt16.ofNat_toNat, UInt16.ofNat_toNat, hvs, hws]
  · exact ⟨t.tableId.toNat_lt, hindicator, trivial, trivial⟩
  · exact ⟨t.networkId.toNat_lt, trivial, hversion, hcurrent, t.sectionNumber.toNat_lt, t.lastSectionNumber.toNat_lt, trivial,
      ⟨trivial, hfits⟩, trivial, trivial, hfits'⟩
  · exact ⟨htagged, htagged'⟩
  · show 16 + (2 + (5 + (1 + (8 + (8 + (4 + ((12 + (0 + (vs.map descriptorFormat.size).sum)) +
      (4 + (12 + (0 + (ws.map tsFormat.size).sum)))))))))) + 32 = 8 * (13 + _ + _)
    rw [hsize, hsize']
    ring
  · intro crc
    show (⟨t.tableId, t.sectionSyntaxIndicator, UInt16.ofNat t.size, t.networkId, t.versionNumber, t.currentNextIndicator,
      t.sectionNumber, t.lastSectionNumber, UInt16.ofNat ((0 + (vs.map descriptorFormat.size).sum) / 8),
      (vs.map descriptorFormat.close).map Descriptor.ofValue, UInt16.ofNat ((0 + (ws.map tsFormat.size).sum) / 8),
      (ws.map tsFormat.close).map TsSpecification.ofValue, crc⟩ : NetworkInformationSection) = _
    rw [Nat.zero_add, Nat.zero_add, hsize, hsize', Nat.mul_div_cancel_left _ (by decide),
      Nat.mul_div_cancel_left _ (by decide), hclose, hclose']
    rfl

theorem bodyTagged_of {h : headFormat.Value} {v : bodyFormat.Value} {length : UInt16} {crc : UInt32}
    (htag : ∀ d ∈ (ofValue h v length crc).descriptors, d.tag ≠ 0x70) : bodyTagged v := by
  refine ⟨tagged_map.mpr fun d hd => htag d (List.mem_append_left _ hd), fun w hw => tagged_map.mpr fun d hd => ?_⟩
  exact htag d (List.mem_append_right _ (List.mem_flatMap.mpr ⟨_, List.mem_map_of_mem hw, hd⟩))

def emitted (c : ObCtx) : List UInt8 := c.data.read 0 (c.bitpos / 8)

theorem emitted_emit (data : Memory UInt8) (size : Nat) (bytes : List UInt8) :
    emitted ((ObCtx.create data size).emit (ofBytes bytes)) = bytes := by
  have hlength : ((ObCtx.create data size).emit (ofBytes bytes)).bitpos / 8 = bytes.length := by
    rw [ObCtx.emit_bitpos, length_ofBytes]
    show (0 + 8 * bytes.length) / 8 = bytes.length
    omega
  refine ofBytes_inj ?_
  rw [emitted, hlength, ← ofMemory_read, ObCtx.emit_data, ← length_ofBytes]
  exact Memory.read_write_same _ _ _

/-- What holds of the bytes of a section that was constructed. -/
structure Survives (fresh fresh' : Fresh) (t t' : NetworkInformationSection) (size : Nat) (c : ObCtx) : Prop where
  checksum : dvbCrc32 (emitted c) = 0
  /-- The bytes do not depend on what the buffer held before. -/
  bytes : ∀ data, ∃ c', io (m := .constructBinary) fresh t (ObCtx.create data size) = .ok t' c' ∧ emitted c' = emitted c
  /-- Wherever the bytes stand at the front of a buffer, they are read back. -/
  parsed : ∀ data size', data.read 0 (emitted c).length = emitted c → 8 * (emitted c).length ≤ u32 (size' * 8) →
    ∃ d, io (m := .parseBinary) fresh' zero (IbCtx.create data size') = .ok t' d
  values : t' = t.close t'.crc

/-- Construction of the section gives the bytes, in any buffer that has room for them. -/
def Reproduces (fresh : Fresh) (t : NetworkInformationSection) (bytes : List UInt8) : Prop :=
  ∀ data size, 8 * bytes.length ≤ u32 (size * 8) →
    ∃ c, io (m := .constructBinary) fresh t (ObCtx.create data size) = .ok t c ∧ emitted c = bytes

section RoundTrips
variable {fresh fresh' : Fresh} {t t' : NetworkInformationSection} {data : Memory UInt8} {size : Nat}

theorem survives (hfuel : 2^15 ≤ fresh'.fuel) (hwf : t.WellFormed) (htag : ∀ d ∈ t.descriptors, d.tag ≠ 0x70) {c : ObCtx}
    (hrun : io (m := .constructBinary) fresh t (ObCtx.create data size) = .ok t' c) : Survives fresh fresh' t t' size c := by
  obtain ⟨h, v, ht, hfh, hfv, htagged, hsize, hclose⟩ := hwf.exists_value htag
  have hio : io (m := .constructBinary) fresh t = formatIo Format.zero fresh.fuel h v t.sectionLength t.crc := by
    rw [← io_eq Format.zero fresh fun _ => htagged, ht]
  have hlimit : u32 (size * 8) < 2^32 := Nat.mod_lt _ (by decide)
  rw [hio] at hrun
  obtain ⟨v', n, bytes, he, hsmall, hroom⟩ := formatIo_encodes hfh hfv rfl hlimit hrun
  have hwrites (data : Memory UInt8) : io (m := .constructBinary) fresh t (ObCtx.create data size) =
      .ok (ofValue h v' (UInt16.ofNat n) (dvbCrc32 bytes)) ((ObCtx.create data size).emit (ofBytes (checked bytes))) := by
    rw [hio]
    exact formatIo_writes he hsmall rfl hroom hlimit
  rw [← hio] at hrun
  cases hrun.symm.trans (hwrites data)
  have hbytes (data : Memory UInt8) := emitted_emit data size (checked bytes)
  refine ⟨?_, fun data' => ⟨_, hwrites data', ?_⟩, fun data' size' hdata hfit => ?_, ?_⟩
  · rw [hbytes]
    exact dvbCrc32_append_self bytes
  · rw [hbytes, hbytes]
  · rw [hbytes, he.length_checked] at hdata hfit
    rw [io_parsing Format.zero rfl fresh' zero headFormat.zero bodyFormat.zero 0]
    exact ⟨_, formatIo_reads he rfl ((sees_checked he).mpr ⟨hfit, hdata⟩) (by decide) hfuel⟩
  · obtain ⟨hb, bb, -, hbody, hn, -, -⟩ := he
    obtain ⟨rfl, hbb⟩ := Format.encode_eq_some hbody
    obtain rfl : n = t.size := by omega
    exact hclose (dvbCrc32 bytes)

theorem reproduces {d : IbCtx} (hrun : io (m := .parseBinary) fresh' zero (IbCtx.create data size) = .ok t d)
    (hsmall : t.sectionLength ≤ 1021) (htag : ∀ d ∈ t.descriptors, d.tag ≠ 0x70) :
    Reproduces fresh t (data.read 0 (3 + t.sectionLength.toNat)) := by
  rw [io_parsing Format.zero rfl fresh' zero headFormat.zero bodyFormat.zero 0] at hrun
  obtain ⟨-, h, v, n, bytes, he, hs, rfl⟩ := formatIo_accepts rfl (Nat.mod_lt _ (by decide)) hrun
  obtain ⟨-, hdata⟩ := (sees_checked he).mp hs
  have hn : (ofValue h v (UInt16.ofNat n) (dvbCrc32 bytes)).sectionLength.toNat = n := by
    obtain ⟨-, -, -, -, -, hn, -⟩ := he
    exact Nat.mod_eq_of_lt (hn.trans (by decide))
  have hsmall : n ≤ 1021 := hn ▸ UInt16.le_iff_toNat_le.mp hsmall
  intro data' size' hfit
  rw [Memory.read_length, hn] at hfit
  refine ⟨(ObCtx.create data' size').emit (ofBytes (checked bytes)), ?_, ?_⟩
  · rw [io_eq Format.zero fresh fun _ => bodyTagged_of htag]
    exact formatIo_writes he hsmall rfl hfit (Nat.mod_lt _ (by decide))
  · rw [emitted_emit, hn, hdata]

/-- A section that is constructed has the checksum 0 over all its bytes and is read back as it was,
and what is accepted is constructed again as it was. -/
theorem binary_round_trip (hfuel : 2^15 ≤ fresh'.fuel) :
    (∀ (t t' : NetworkInformationSection) (data : Memory UInt8) (size : Nat) (c : ObCtx), t.WellFormed →
      (∀ d ∈ t.descriptors, d.tag ≠ 0x70) → io (m := .constructBinary) fresh t (ObCtx.create data size) = .ok t' c →
        Survives fresh fresh' t t' size c) ∧
    ∀ (t : NetworkInformationSection) (data : Memory UInt8) (size : Nat) (d : IbCtx),
      io (m := .parseBinary) fresh' zero (IbCtx.create data size) = .ok t d → t.sectionLength ≤ 1021 →
        (∀ d ∈ t.descriptors, d.tag ≠ 0x70) → Reproduces fresh t (data.read 0 (3 + t.sectionLength.toNat)) :=
  ⟨fun _ _ _ _ _ hwf htag hrun => survives hfuel hwf htag hrun, fun _ _ _ _ hrun hsmall htag => reproduces hrun hsmall htag⟩

def sampleBytes : List UInt8 := [0x40, 0xf0, 0x29, 0x06, 0x00, 0xc7, 0x00, 0x00, 0xf0, 0x05, 0x41, 0x03, 0x00, 0x01, 0x02,
  0xf0, 0x17, 0x00, 0x01, 0x00, 0x02, 0xf0, 0x11, 0x05, 0x02, 0x07, 0x08, 0x44, 0x0b, 0x03, 0x12, 0x00, 0x00, 0xff, 0xf2, 0x03,
  0x00, 0x68, 0x75, 0x0f, 0xc6, 0x92, 0x09, 0x40]

def sampleSection : NetworkInformationSection := ⟨0x40, 1, 41, 0x600, 3, 1, 0, 0, 5, [⟨0x41, 3, .serviceList [⟨1, 2⟩]⟩], 23,
  [⟨1, 2, 17, [⟨5, 2, .unknown [7, 8]⟩, ⟨0x44, 11, .cableDeliverySystem ⟨0x03120000, 2, 3, 0x68750, 15⟩⟩]⟩], 0xc6920940⟩

theorem sampleSection_wellFormed : sampleSection.WellFormed :=
  ⟨by decide, by decide, by decide, List.forall_mem_cons.mpr ⟨⟨rfl, trivial⟩, List.forall_mem_cons.mpr ⟨⟨rfl, rfl⟩,
    List.forall_mem_singleton.mpr ⟨rfl, by decide, by decide, by decide⟩⟩⟩⟩

theorem binary_round_trip_sample : Reproduces sampleFresh sampleSection sampleBytes ∧
    ∃ c, io (m := .constructBinary) sampleFresh sampleSection (ObCtx.create (fun _ => 0xff) 44) = .ok sampleSection c ∧
      emitted c = sampleBytes ∧ Survives sampleFresh sampleFresh sampleSection sampleSection 44 c := by
  obtain ⟨hsurvives, hreproduces⟩ :=
    @binary_round_trip sampleFresh sampleFresh (le_refl (2^15))
  obtain ⟨d, hrun⟩ := exists_ok_of_gives (x := io (m := .parseBinary) sampleFresh zero)
    (s := IbCtx.create (Memory.write (fun _ => 0) 0 sampleBytes) 44) (a := sampleSection) (by decide +kernel)
  have htag : ∀ d ∈ sampleSection.descriptors, d.tag ≠ 0x70 := by decide
  have hbytes : Reproduces sampleFresh sampleSection sampleBytes := hreproduces sampleSection _ 44 d hrun (by decide) htag
  obtain ⟨c, hc, hemitted⟩ := hbytes (fun _ => 0xff) 44 (by decide)
  exact ⟨hbytes, c, hc, hemitted, hsurvives _ _ _ _ c sampleSection_wellFormed htag hc⟩

end RoundTrips

end NetworkInformationSection

end Mopa.Dvb
