import Mopa.ErrorPaths
import Mopa.NitFormat

/-! Exceptions of network information sections, in every mode and from any struct: the text of
each lists the blocks that stand around its field in the syntax of the section. -/
namespace Mopa.Dvb
open Io Outcome

/-- The section with its names. The checksum is written again behind the section. -/
def sectionFormat : Format :=
  .seq headFormat <|
  .seq (.block 12 (dvbInfo "section_length") (dvbInfo "section_length")
      (.seq bodyFormat (.uint .uint32 32 (dvbInfo "CRC"))))
    (.uint .uint32 32 (dvbInfo "CRC"))

section Descriptors
variable {m : Mode} {fuel : Nat} {service : Service}

theorem Service.io_locates (s : Service) : Locates serviceFormat.Names (Service.io (m := m) s) :=
  (uint_locates .uint16 16 s.serviceId).seq fun _ => (uint_locates .uint8 8 s.serviceType).last

theorem CableDeliverySystem.io_locates (c : CableDeliverySystem) :
    Locates cableDeliverySystemFormat.Names (CableDeliverySystem.io (m := m) c) :=
  (uint_locates .uint32 32 c.frequency).seq fun _ => (require_locates .uint16 12 (0xfff : UInt16)).seq fun _ =>
    (uint_locates .uint8 4 c.fecOuter).seq fun _ => (uint_locates .uint8 8 c.modulation).seq fun _ =>
    (uint_locates .uint32 28 c.symbolRate).seq fun _ => (uint_locates .uint8 4 c.fecInner).last

namespace Descriptor

theorem tagIo_locates (d : Descriptor) : Locates (Only (dvbInfo "tag")) (d.tagIo (m := m)) := by
  unfold tagIo
  split
  · exact (uint_locates .uint8 8 d.tag).last
  · exact .pure _

theorem exists_tag : ∀ k : DescriptorClass, ∃ tag, (descriptorFactory tag).cls = k
  | .adaptationFieldData => ⟨0x70, rfl⟩
  | .serviceList => ⟨0x41, rfl⟩
  | .cableDeliverySystem => ⟨0x44, rfl⟩
  | .unknown => ⟨0, rfl⟩

theorem io_locates (d : Descriptor) : Locates descriptorFormat.Names (io (m := m) fuel service d) := by
  obtain ⟨tag, htag⟩ := exists_tag d.content.cls
  have hclass : ∀ path i, d.content.cls.format.Names path i → descriptorFormat.Names path i := by
    intro path i h
    rw [← htag] at h
    exact .inr ⟨tag, h⟩
  have htagged : Locates descriptorFormat.Names (d.tagIo (m := m)) := d.tagIo_locates.mono fun path i => .inl
  obtain ⟨tag, length, content⟩ := d
  cases content with
  | adaptationFieldData identifier => exact ((namedBlock_locates (uint_locates .uint8 8 identifier)).mono hclass).last
  | serviceList services =>
    have hservices : Locates (fun path i => False ∨ serviceFormat.Names path i)
        (Iox.vectorIo (m := m) fuel service Service.io services) :=
      (vectorIo_locates Service.io_locates services).mono fun path i => .inr
    exact htagged.bind fun _ => ((namedBlock_locates hservices).mono hclass).last
  | cableDeliverySystem system =>
    exact htagged.bind fun _ => ((namedBlock_locates system.io_locates).mono hclass).last
  | unknown data =>
    refine htagged.bind fun _ => (((uint_locates .uint8 8 length).mono fun path i => .inl).mono hclass).bind fun length => ?_
    split
    · next hpos =>
      refine Locates.last (Locates.mono (fixedString_locates length.toNat data) fun path i h => hclass path i (.inr ⟨length, ?_⟩))
      obtain ⟨n, hn⟩ : ∃ n, length.toNat = n + 1 := Nat.exists_eq_add_one.mpr (UInt8.lt_iff_toNat_lt.mp hpos)
      show (dataFormat (UInt8.toNat length)).Names path i
      rw [hn]
      exact h
    · exact .pure _

theorem readAhead_locates : Locates descriptorFormat.Names (readAhead (m := m) fuel service) :=
  ((uint_locates .uint8 8 (0 : UInt8)).mono fun _ _ => .inl).bind fun _ => io_locates _

end Descriptor

theorem descriptorVectorIo_locates (list : List Descriptor) :
    Locates descriptorFormat.Names (descriptorVectorIo (m := m) fuel service list) := by
  unfold descriptorVectorIo
  split
  · exact parseItems_locates Descriptor.readAhead_locates fuel []
  · exact constructItems_locates Descriptor.io_locates list

end Descriptors

section Sections
variable {m : Mode} {names : List Info → Info → Prop}

theorem TsSpecification.io_locates (fresh : Fresh) (t : TsSpecification) : Locates tsFormat.Names (io (m := m) fresh t) := by
  have hdescriptors : Locates (fun path i => False ∨ descriptorFormat.Names path i)
      (descriptorVectorIo (m := m) fresh.fuel fresh.service t.transportDescriptors) :=
    (descriptorVectorIo_locates t.transportDescriptors).mono fun path i => .inr
  exact (uint_locates .uint16 16 t.transportStreamId).seq fun _ => (uint_locates .uint16 16 t.originalNetworkId).seq fun _ =>
    (require_locates .uint8 4 (0xf : UInt8)).seq fun _ => (namedBlock_locates hdescriptors).last

theorem bitpos_locates : Locates names (Iox.bitpos (m := m)) := by
  cases m with
  | parseBinary => exact .step .refl
  | parseText => exact .step .refl
  | constructBinary => exact .step .refl
  | constructText => exact .step .refl

theorem crcAligned_locates {startedAt : Nat} {info : Info} : Locates (Only info) (Iox.crcAligned (m := m) startedAt info) := by
  have hnamed : Only info [] info := ⟨rfl, rfl⟩
  unfold Iox.crcAligned
  split
  · intro c i message he
    cases he
    exact ⟨[], hnamed, .refl c⟩
  · exact bitpos_locates.bind fun _ => .throwIf hnamed

theorem crcIo_locates {startedAt : Nat} {info : Info} (crc : UInt32) :
    Locates (Only info) (Iox.crcIo (m := m) startedAt crc info) := by
  cases m with
  | parseBinary =>
    exact crcAligned_locates.bind fun _ => .get fun c => (uint_locates .uint32 32 crc).bind fun _ => .guarded ⟨rfl, rfl⟩ (.pure _)
  | parseText => exact crcAligned_locates.bind fun _ => uint_locates .uint32 32 crc
  | constructBinary => exact crcAligned_locates.bind fun _ => .get fun c => uint_locates .uint32 32 _
  | constructText => exact crcAligned_locates.bind fun _ => uint_locates .uint32 32 crc

theorem seek_locates (pos : Nat) : Locates (m := .constructBinary) names (Obx.seek pos) := .step fun _ => .same trivial rfl

theorem crcLateFix_locates {startedAt crcPos : Nat} {info : Info} (crc : UInt32) :
    Locates (Only info) (Iox.crcLateFix (m := m) startedAt crcPos crc info) := by
  cases m with
  | parseBinary => exact crcAligned_locates.bind fun _ => .pure _
  | parseText => exact crcAligned_locates.bind fun _ => .pure _
  | constructBinary =>
    exact crcAligned_locates.bind fun _ => .get fun c => (seek_locates crcPos).bind fun _ =>
      (obx_uint32_locates 32 _).bind fun _ => (seek_locates c.bitpos).bind fun _ => .pure _
  | constructText => exact crcAligned_locates.bind fun _ => .pure _

namespace NetworkInformationSection

/-- What is thrown for from the beginning of the block of `section_length` on. -/
def SectionNames (path : List Info) (i : Info) : Prop :=
  InBlock (dvbInfo "section_length") (dvbInfo "section_length")
    (fun path i => bodyFormat.Names path i ∨ Only (dvbInfo "CRC") path i) path i ∨ Only (dvbInfo "CRC") path i

theorem SectionNames.inside (path : List Info) (i : Info) (h : Only (dvbInfo "section_length") path i ∨
    bodyFormat.Names path i ∨ Only (dvbInfo "CRC") path i ∨ Only (dvbInfo "section_length") path i) :
    SectionNames (path ++ [dvbInfo "section_length"]) i := by
  obtain ⟨rfl, rfl⟩ | h | h | ⟨rfl, rfl⟩ := h
  · exact .inl .ends
  · exact .inl (.inside (.inl h))
  · exact .inl (.inside (.inr h))
  · exact .inl .ends

theorem SectionNames.behind (path : List Info) (i : Info) (h : Only (dvbInfo "CRC") path i ∨ Only (dvbInfo "section_length") path i) :
    SectionNames path i := by
  obtain h | ⟨rfl, rfl⟩ := h
  · exact .inr h
  · exact .inl .length

theorem io_locates (fresh : Fresh) (t : NetworkInformationSection) : Locates sectionFormat.Names (io (m := m) fresh t) := by
  have hdescriptors : Locates (fun path i => False ∨ descriptorFormat.Names path i)
      (descriptorVectorIo (m := m) fresh.fuel fresh.service t.networkDescriptors) :=
    (descriptorVectorIo_locates t.networkDescriptors).mono fun path i => .inr
  have hloop : Locates (fun path i => False ∨ tsFormat.Names path i) (Iox.vectorIo (m := m) fresh.fuel
      { fresh.ts with transportDescriptors := [] } (TsSpecification.io fresh) t.tsLoop) :=
    (vectorIo_locates (TsSpecification.io_locates fresh) t.tsLoop).mono fun path i => .inr
  refine bitpos_locates.bind fun nitBegin => Locates.mono ((uint_locates .uint8 8 t.tableId).seq fun tableId =>
    (uint_locates .uint8 1 t.sectionSyntaxIndicator).seq fun sectionSyntaxIndicator =>
    (require_locates .uint8 1 (1 : UInt8)).seq fun _ => (require_locates .uint8 2 (3 : UInt8)).seq fun _ =>
    (?block : Locates SectionNames _)) fun path i h => ?_
  · have hbegin : SectionNames [] (dvbInfo "section_length") := .inl .begins
    have hends : Only (dvbInfo "section_length") [] (dvbInfo "section_length") := ⟨rfl, rfl⟩
    have hlate : Only (dvbInfo "CRC") [] (dvbInfo "section_length") ∨ Only (dvbInfo "section_length") [] (dvbInfo "section_length") :=
      .inr hends
    refine Locates.block hbegin SectionNames.inside SectionNames.behind (EndsBlock.mono (.guarded <|
      .seq (uint_locates .uint16 16 t.networkId) fun _ =>
      .seq (require_locates .uint8 2 (3 : UInt8)) fun _ => .seq (uint_locates .uint8 5 t.versionNumber) fun _ =>
      .seq (uint_locates .uint8 1 t.currentNextIndicator) fun _ => .seq (uint_locates .uint8 8 t.sectionNumber) fun _ =>
      .seq (uint_locates .uint8 8 t.lastSectionNumber) fun _ => .seq (require_locates .uint8 4 (0xf : UInt8)) fun _ =>
      .seq (namedBlock_locates hdescriptors) fun _ => .seq (require_locates .uint8 4 (0xf : UInt8)) fun _ =>
      .seq (namedBlock_locates hloop) fun _ => .bind bitpos_locates fun _ => .seq (crcIo_locates t.crc) fun crc =>
      .ends hends hlate fun _ => .bind ((crcLateFix_locates crc).mono fun _ _ => .inl) fun _ =>
      .guarded hlate (.pure _)) fun path i h => ?_)
    simpa only [bodyFormat, Format.Names, or_assoc] using h
  · simpa only [sectionFormat, SectionNames, headFormat, Format.Names, or_assoc] using h

/-- Whatever is parsed or constructed, in whatever mode: the text of an exception lists the blocks
of the section that are open, innermost first, as they stand around the field in its syntax, and
in text parsing its line and column are where the rest of the text begins. -/
theorem section_exception_reported (fresh : Fresh) (t : NetworkInformationSection) {text : List UInt8} {c d : Ctx m}
    (hc : ReadsFrom text c) {info : Info} {message : String} (h : io fresh t c = .error (.exception info message) d) :
    ReadsFrom text d ∧ (report text info d).Marks text d ∧
      ∃ inner, sectionFormat.Names (inner.map Place.info) info ∧ (report text info d).blocks = inner ++ openPlaces c :=
  (io_locates fresh t).reported hc h

def cutSection : Memory UInt8 := fun i => [0x40, 0xf0, 16, 0, 1, 0xc1, 0, 0, 0xf0, 4, 0x41, 3, 0, 1, 0xf0, 0, 0, 0, 0, 0].getD i 0

theorem section_exception_reported_descriptor : ∃ d,
    io (m := .parseBinary) ⟨200, ⟨0, 0⟩, ⟨0, 0, 0, []⟩⟩ zero (IbCtx.create cutSection 20) =
      .error (.exception (dvbInfo "length") "block size %d exceeds available %d") d ∧
    ∃ inner, sectionFormat.Names (inner.map Place.info) (dvbInfo "length") ∧
      (report [] (dvbInfo "length") d).blocks = inner ++ [] := by
  obtain ⟨d, hd⟩ : ∃ d, io (m := .parseBinary) ⟨200, ⟨0, 0⟩, ⟨0, 0, 0, []⟩⟩ zero (IbCtx.create cutSection 20) =
      .error (.exception (dvbInfo "length") "block size %d exceeds available %d") d := ⟨_, rfl⟩
  have hc : ReadsFrom (m := .parseBinary) [] (IbCtx.create cutSection 20) := trivial
  exact ⟨d, hd, (section_exception_reported _ _ hc hd).2.2⟩

end NetworkInformationSection

end Sections

end Mopa.Dvb
