import Mopa.CommonTypes

/-! Descriptors, `descriptors.h` and `descriptors.cpp`. -/
namespace Mopa.Dvb
open Io

/-- `DVB_INFO(str)` -/
def dvbInfo (str : String) : Info := ⟨chars str, 0x0⟩

structure Service where
  serviceId : UInt16
  serviceType : UInt8
  deriving DecidableEq, Repr

structure CableDeliverySystem where
  frequency : UInt32
  fecOuter : UInt8
  modulation : UInt8
  symbolRate : UInt32
  fecInner : UInt8
  deriving DecidableEq, Repr

/-- What the classes of descriptors add to `descriptor`. -/
inductive Content where
  | adaptationFieldData (identifier : UInt8)
  | serviceList (services : List Service)
  | cableDeliverySystem (system : CableDeliverySystem)
  | unknown (data : List UInt8)
  deriving DecidableEq, Repr

structure Descriptor where
  tag : UInt8
  length : UInt8
  content : Content
  deriving DecidableEq, Repr

/-- A new descriptor has zeros and empty strings and lists. -/
def descriptorFactory (tag : UInt8) : Content :=
  if tag = 0x41 then .serviceList []
  else if tag = 0x44 then .cableDeliverySystem ⟨0, 0, 0, 0, 0⟩
  else if tag = 0x70 then .adaptationFieldData 0
  else .unknown []

variable {m : Mode}

def Service.io (s : Service) : Iox m Service := do
  let serviceId ← Iox.uint16 16 s.serviceId (dvbInfo "service_id")
  let serviceType ← Iox.uint8 8 s.serviceType (dvbInfo "service_type")
  return ⟨serviceId, serviceType⟩

def CableDeliverySystem.io (c : CableDeliverySystem) : Iox m CableDeliverySystem := do
  let frequency ← Iox.uint32 32 c.frequency ⟨chars "frequency", formatHintHex⟩
  Iox.uintReq 12 (2^12 - 1) (dvbInfo "reserved_future_use")
  let fecOuter ← Iox.uint8 4 c.fecOuter (dvbInfo "FEC_outer")
  let modulation ← Iox.uint8 8 c.modulation (dvbInfo "modulation")
  let symbolRate ← Iox.uint32 28 c.symbolRate (dvbInfo "symbol_rate")
  let fecInner ← Iox.uint8 4 c.fecInner (dvbInfo "FEC_inner")
  return ⟨frequency, fecOuter, modulation, symbolRate, fecInner⟩

namespace Descriptor

/-- The tag is written by the class, but it was read ahead of it. -/
def tagIo (d : Descriptor) : Iox m Unit := do
  if m.isParsing = false then
    let _ ← Iox.uint8 8 d.tag (dvbInfo "tag")

/-- `io` of the class. The class of tag 0x70 does not write the tag. A fresh service is
not initialised. -/
def io (fuel : Nat) (service : Service) (d : Descriptor) : Iox m Descriptor :=
  match d.content with
  | .adaptationFieldData identifier => do
    let (length, identifier) ← Iox.namedBlock 8 (dvbInfo "length") (dvbInfo "descriptor_content")
      (Iox.uint8 8 identifier (dvbInfo "adaptation_field_data_identifier"))
    return ⟨d.tag, UInt8.ofNat length, .adaptationFieldData identifier⟩
  | .serviceList services => do
    d.tagIo
    let (length, services) ← Iox.namedBlock 8 (dvbInfo "length") (dvbInfo "descriptor_content")
      (Iox.vectorIo fuel service Service.io services)
    return ⟨d.tag, UInt8.ofNat length, .serviceList services⟩
  | .cableDeliverySystem system => do
    d.tagIo
    let (length, system) ← Iox.namedBlock 8 (dvbInfo "length") (dvbInfo "descriptor_content") system.io
    return ⟨d.tag, UInt8.ofNat length, .cableDeliverySystem system⟩
  | .unknown data => do
    d.tagIo
    let length ← Iox.uint8 8 d.length (dvbInfo "length")
    if length > 0 then
      let data ← Iox.fixedStringIo length.toNat data (dvbInfo "data")
      return ⟨d.tag, length, .unknown data⟩
    else
      return ⟨d.tag, length, .unknown data⟩

/-- The tag, and the descriptor of the class that the factory has for it. -/
def readAhead (fuel : Nat) (service : Service) : Iox m Descriptor := do
  let tag ← Iox.uint8 8 0 (dvbInfo "tag")
  io fuel service ⟨tag, 0, descriptorFactory tag⟩

end Descriptor

/-- `descriptor_vector::io` -/
def descriptorVectorIo (fuel : Nat) (service : Service) (list : List Descriptor) : Iox m (List Descriptor) :=
  if m.isParsing then
    Iox.parseItems ⟨0, 0, descriptorFactory 0⟩ (fun _ => Descriptor.readAhead fuel service) fuel []
  else
    Iox.constructItems (Descriptor.io fuel service) list

end Mopa.Dvb
