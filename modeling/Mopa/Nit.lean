import Mopa.Descriptors

/-! The network information section, `NIT.h`. -/
namespace Mopa.Dvb
open Io

structure TsSpecification where
  transportStreamId : UInt16
  originalNetworkId : UInt16
  transportDescriptorsLength : UInt16
  transportDescriptors : List Descriptor
  deriving DecidableEq, Repr

structure NetworkInformationSection where
  tableId : UInt8
  sectionSyntaxIndicator : UInt8
  sectionLength : UInt16
  networkId : UInt16
  versionNumber : UInt8
  currentNextIndicator : UInt8
  sectionNumber : UInt8
  lastSectionNumber : UInt8
  networkDescriptorsLength : UInt16
  networkDescriptors : List Descriptor
  transportStreamLoopLength : UInt16
  tsLoop : List TsSpecification
  crc : UInt32
  deriving DecidableEq, Repr

/-- `struct network_information_section T={0};` -/
def NetworkInformationSection.zero : NetworkInformationSection := ⟨0, 0, 0, 0, 0, 0, 0, 0, 0, [], 0, [], 0⟩

/-- What the loops of parsing take: turns, and items that are not initialised. -/
structure Fresh where
  fuel : Nat
  service : Service
  ts : TsSpecification

variable {m : Mode}

def TsSpecification.io (fresh : Fresh) (t : TsSpecification) : Iox m TsSpecification := do
  let transportStreamId ← Iox.uint16 16 t.transportStreamId (dvbInfo "transport_stream_id")
  let originalNetworkId ← Iox.uint16 16 t.originalNetworkId (dvbInfo "original_network_id")
  Iox.uintReq 4 0xf (dvbInfo "reserved_future_use")
  let (length, transportDescriptors) ← Iox.namedBlock 12 (dvbInfo "transport_descriptors_length")
    (dvbInfo "transport_descriptors") (descriptorVectorIo fresh.fuel fresh.service t.transportDescriptors)
  return ⟨transportStreamId, originalNetworkId, UInt16.ofNat length, transportDescriptors⟩

namespace NetworkInformationSection

def io (fresh : Fresh) (t : NetworkInformationSection) : Iox m NetworkInformationSection := do
  let nitBegin ← Iox.bitpos
  let tableId ← Iox.uint8 8 t.tableId (dvbInfo "table_id")
  let sectionSyntaxIndicator ← Iox.uint8 1 t.sectionSyntaxIndicator (dvbInfo "section_syntax_indicator")
  Iox.uintReq 1 1 (dvbInfo "reserved_future_use")
  Iox.uintReq 2 0x3 (dvbInfo "reserved")
  Iox.namedBlockBegin 12 (dvbInfo "section_length")
  -- the field as it is before parsing
  if m.isParsing ∧ t.sectionLength > 1021 then throwX (dvbInfo "section_length") "NIT size exceeds 1024"
  let networkId ← Iox.uint16 16 t.networkId (dvbInfo "network_id")
  Iox.uintReq 2 0x3 (dvbInfo "reserved")
  let versionNumber ← Iox.uint8 5 t.versionNumber (dvbInfo "version_number")
  let currentNextIndicator ← Iox.uint8 1 t.currentNextIndicator (dvbInfo "current_next_indicator")
  let sectionNumber ← Iox.uint8 8 t.sectionNumber (dvbInfo "section_number")
  let lastSectionNumber ← Iox.uint8 8 t.lastSectionNumber (dvbInfo "last_section_number")
  Iox.uintReq 4 0xf (dvbInfo "reserved_future_use")
  let (networkDescriptorsLength, networkDescriptors) ← Iox.namedBlock 12 (dvbInfo "network_descriptors_length")
    (dvbInfo "network_descriptors_length") (descriptorVectorIo fresh.fuel fresh.service t.networkDescriptors)
  Iox.uintReq 4 0xf (dvbInfo "reserved_future_use")
  let (transportStreamLoopLength, tsLoop) ← Iox.namedBlock 12 (dvbInfo "transport_stream_loop_length")
    (dvbInfo "transport_stream_loop_length")
    (Iox.vectorIo fresh.fuel { fresh.ts with transportDescriptors := [] } (TsSpecification.io fresh) t.tsLoop)
  let crcPos ← Iox.bitpos
  let crc ← Iox.crcIo nitBegin t.crc (dvbInfo "CRC")
  let sectionLength := UInt16.ofNat (← Iox.namedBlockEnd (dvbInfo "section_length"))
  let crc ← Iox.crcLateFix nitBegin crcPos crc (dvbInfo "CRC")
  if m.isParsing = false ∧ sectionLength > 1021 then throwX (dvbInfo "section_length") "NIT size exceeds 1024"
  return ⟨tableId, sectionSyntaxIndicator, sectionLength, networkId, versionNumber, currentNextIndicator,
    sectionNumber, lastSectionNumber, UInt16.ofNat networkDescriptorsLength, networkDescriptors,
    UInt16.ofNat transportStreamLoopLength, tsLoop, crc⟩

end NetworkInformationSection

end Mopa.Dvb
