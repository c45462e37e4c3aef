import Mopa.DescriptorFormat
import Mopa.FormatText

/-! The extended event descriptor, which the factory does not know. Its last string has no
`iox_info`; text construction reads the name through the null pointer. -/
namespace Mopa.Dvb
open Io Outcome

structure ExtendedEventItem where
  itemDescription : List UInt8
  item : List UInt8
  deriving DecidableEq, Repr

structure ExtendedEventDescriptor where
  descriptorTag : UInt8
  descriptorLength : UInt8
  descriptorNumber : UInt8
  lastDescriptorNumber : UInt8
  languageCode : List UInt8
  lengthOfItems : UInt8
  items : List ExtendedEventItem
  text : List UInt8
  deriving DecidableEq, Repr

variable {m : Mode}

def ExtendedEventItem.io (i : ExtendedEventItem) : Iox m ExtendedEventItem := do
  let itemDescription ← Iox.shortStringIo i.itemDescription (dvbInfo "item_description")
  let item ← Iox.shortStringIo i.item (dvbInfo "item")
  return ⟨itemDescription, item⟩

namespace ExtendedEventDescriptor

/-- `descriptor_length` is a field like any other, not the length of a block. -/
def io (fuel : Nat) (t : ExtendedEventDescriptor) : Iox m ExtendedEventDescriptor := do
  let descriptorTag ← Iox.uint8 8 t.descriptorTag (dvbInfo "descriptor_tag")
  let descriptorLength ← Iox.uint8 8 t.descriptorLength (dvbInfo "descriptor_length")
  let descriptorNumber ← Iox.uint8 4 t.descriptorNumber (dvbInfo "descriptor_number")
  let lastDescriptorNumber ← Iox.uint8 4 t.lastDescriptorNumber (dvbInfo "last_descriptor_number")
  let languageCode ← Iox.fixedStringIo 3 t.languageCode (dvbInfo "ISO_639_language_code")
  let (lengthOfItems, items) ← Iox.namedBlock 8 (dvbInfo "length_of_items") (dvbInfo "items")
    (Iox.vectorIo fuel ⟨[], []⟩ ExtendedEventItem.io t.items)
  let text ← Iox.shortStringIo t.text none
  return ⟨descriptorTag, descriptorLength, descriptorNumber, lastDescriptorNumber, languageCode,
    UInt8.ofNat lengthOfItems, items, text⟩

end ExtendedEventDescriptor

def extendedEventItemFormat : Format :=
  .seq (.shortString (dvbInfo "item_description")) (.shortString (dvbInfo "item"))

/-- What stands in front of the last string. -/
def extendedEventHead : Format :=
  .seq (.uint .uint8 8 (dvbInfo "descriptor_tag")) <|
  .seq (.uint .uint8 8 (dvbInfo "descriptor_length")) <|
  .seq (.uint .uint8 4 (dvbInfo "descriptor_number")) <|
  .seq (.uint .uint8 4 (dvbInfo "last_descriptor_number")) <|
  .seq (.fixedString 3 (dvbInfo "ISO_639_language_code"))
    (.listBlock 8 (dvbInfo "length_of_items") (dvbInfo "items") .empty extendedEventItemFormat)

def extendedEventFormat : Format := .seq extendedEventHead (.shortString emptyInfo)

def ExtendedEventItem.ofValue (v : extendedEventItemFormat.Value) : ExtendedEventItem := ⟨v.1, v.2⟩

def ExtendedEventDescriptor.ofValue (v : extendedEventFormat.Value) : ExtendedEventDescriptor :=
  ⟨v.1.1, v.1.2.1, v.1.2.2.1, v.1.2.2.2.1, v.1.2.2.2.2.1, UInt8.ofNat v.1.2.2.2.2.2.1,
    v.1.2.2.2.2.2.2.2.map ExtendedEventItem.ofValue, v.2⟩

def ExtendedEventItem.toValue (i : ExtendedEventItem) : extendedEventItemFormat.Value := (i.itemDescription, i.item)

theorem ExtendedEventItem.io_eq (values : (f : Format) → f.Value) (fuel : Nat) (v : extendedEventItemFormat.Value) :
    io (m := m) (ofValue v) = ofValue <$> extendedEventItemFormat.io values fuel v := by
  rw [map_eq_pure_bind]
  unfold io
  simp only [extendedEventItemFormat, Format.io, ofValue, bind_assoc, pure_bind]

namespace ExtendedEventDescriptor

theorem io_eq (values : (f : Format) → f.Value) (fuel : Nat) (v : extendedEventFormat.Value) :
    io (m := m) fuel (ofValue v) = (do
      let head ← extendedEventHead.io values fuel v.1
      let text ← Iox.shortStringIo v.2 none
      return ofValue (head, text)) := by
  have hitems : Iox.vectorIo (m := m) fuel ⟨[], []⟩ ExtendedEventItem.io (v.1.2.2.2.2.2.2.2.map ExtendedEventItem.ofValue) =
      List.map ExtendedEventItem.ofValue <$>
        Iox.vectorIo fuel (values extendedEventItemFormat) (extendedEventItemFormat.io values fuel) v.1.2.2.2.2.2.2.2 := by
    refine vectorIo_map (fun hm => ?_) fun _ w _ => ExtendedEventItem.io_eq values fuel w
    have hw : extendedEventItemFormat.io (m := m) values fuel ([], []) =
      extendedEventItemFormat.io values fuel (values extendedEventItemFormat) := Format.io_parsing hm values fuel _ _ _
    rw [← hw]
    exact ExtendedEventItem.io_eq values fuel ([], [])
  have hb := Format.listBlock_map 8 v.1.2.2.2.2.2.1 (dvbInfo "length_of_items") (dvbInfo "items") hitems
  unfold io
  simp only [ofValue]
  rw [hb]
  simp only [extendedEventHead, Format.io, Iox.uint, bind_assoc, pure_bind, map_eq_pure_bind]

theorem io_eq_format (values : (f : Format) → f.Value) (fuel : Nat) (v : extendedEventFormat.Value) (hm : m.isBinary = true) :
    io (m := m) fuel (ofValue v) = ofValue <$> extendedEventFormat.io values fuel v := by
  rw [io_eq values fuel v, Iox.shortStringIo_named hm, map_eq_pure_bind]
  simp only [extendedEventFormat, Format.io, bind_assoc, pure_bind]
  rfl

def toValue (t : ExtendedEventDescriptor) : extendedEventFormat.Value :=
  ((t.descriptorTag, t.descriptorLength, t.descriptorNumber, t.lastDescriptorNumber, t.languageCode,
    t.lengthOfItems.toNat, (), t.items.map ExtendedEventItem.toValue), t.text)

theorem ofValue_toValue (t : ExtendedEventDescriptor) : ofValue t.toValue = t := by
  have hitems : (t.items.map ExtendedEventItem.toValue).map ExtendedEventItem.ofValue = t.items :=
    (List.map_map ..).trans (List.map_id _)
  show ExtendedEventDescriptor.mk _ _ _ _ _ (UInt8.ofNat t.lengthOfItems.toNat)
    ((t.items.map ExtendedEventItem.toValue).map ExtendedEventItem.ofValue) _ = t
  rw [hitems, UInt8.ofNat_toNat]
  rfl

theorem extendedEventHead_wf : extendedEventHead.Wf := by
  have hitem : ∀ v, 1 ≤ extendedEventItemFormat.size v := fun v => by
    show 1 ≤ 8 + 8 * List.length v.1 + _
    omega
  exact ⟨⟨by decide, by decide⟩, ⟨by decide, by decide⟩, ⟨by decide, by decide⟩, ⟨by decide, by decide⟩,
    (by decide : 3 ≤ 255), ⟨by decide, by decide⟩, trivial, ⟨trivial, trivial⟩, hitem⟩

theorem extendedEventFormat_wf : extendedEventFormat.Wf := ⟨extendedEventHead_wf, trivial⟩

/-- Numbers of four bits, and strings an int holds the sizes of. -/
structure Fits (t : ExtendedEventDescriptor) : Prop where
  descriptorNumber : t.descriptorNumber < 16
  lastDescriptorNumber : t.lastDescriptorNumber < 16
  languageCode : t.languageCode.length < 2^28
  items : ∀ i ∈ t.items, i.itemDescription.length < 2^28 ∧ i.item.length < 2^28
  text : t.text.length < 2^28

theorem Fits.toValue {t : ExtendedEventDescriptor} (ht : t.Fits) : extendedEventFormat.Fits t.toValue := by
  refine ⟨⟨t.descriptorTag.toNat_lt, t.descriptorLength.toNat_lt, ht.descriptorNumber, ht.lastDescriptorNumber,
    ht.languageCode, trivial, fun v hv => ?_⟩, ht.text⟩
  obtain ⟨i, hi, rfl⟩ := List.mem_map.mp hv
  exact ht.items i hi

/-- The descriptor with the length of its items. -/
def close (t : ExtendedEventDescriptor) : ExtendedEventDescriptor :=
  { t with lengthOfItems := UInt8.ofNat (t.items.map fun i => i.itemDescription.length + i.item.length + 2).sum }

theorem items_size (items : List ExtendedEventItem) :
    ((items.map ExtendedEventItem.toValue).map extendedEventItemFormat.size).sum =
      8 * (items.map fun i => i.itemDescription.length + i.item.length + 2).sum := by
  induction items with
  | nil => rfl
  | cons i items ih =>
    simp only [List.map_cons, List.sum_cons, ih]
    show 8 + 8 * i.itemDescription.length + (8 + 8 * i.item.length) + _ = _
    ring

theorem ofValue_close (t : ExtendedEventDescriptor) : ofValue (extendedEventFormat.close t.toValue) = t.close := by
  have hitems : ((t.items.map ExtendedEventItem.toValue).map extendedEventItemFormat.close).map ExtendedEventItem.ofValue =
      t.items := by
    rw [List.map_map, List.map_map]
    exact List.map_id _
  show ExtendedEventDescriptor.mk _ _ _ _ _
    (UInt8.ofNat ((0 + ((t.items.map ExtendedEventItem.toValue).map extendedEventItemFormat.size).sum) / 8))
    (((t.items.map ExtendedEventItem.toValue).map extendedEventItemFormat.close).map ExtendedEventItem.ofValue) _ = t.close
  rw [hitems, items_size, Nat.zero_add, Nat.mul_div_cancel_left _ (by decide)]
  rfl

theorem unnamedString_undefined {o o' : ObCtx} {c : OcCtx} (hsim : Simulates o c) {str a : List UInt8}
    (hlen : str.length < 2^28) (ho : Iox.shortStringIo (m := .constructBinary) str (some emptyInfo) o = .ok a o') :
    Iox.shortStringIo (m := .constructText) str none c = .error .undefined c := by
  obtain ⟨-, -, hpos, hfit, hal, hshort⟩ := obx_shortString_frame hlen ho
  have hroom : ¬ u32 (c.bitpos + u32 ((str.length + 1) * 8)) > c.bitlimit := by
    rw [hsim.bitpos, ← hpos]
    exact not_lt.mpr (hfit.trans hsim.limit)
  rw [ocx_shortString_null, u32_of_lt (n := str.length) (by omega), if_neg (by omega), if_neg hroom,
    if_neg (by rw [hsim.bitpos]; exact not_not.mpr hal)]

/-- What binary construction writes of a descriptor is parsed back, with `descriptor_length` as it
was given and not as its items have it; construction in text mode ends with the null pointer. -/
theorem extended_event_modes {t t' : ExtendedEventDescriptor} {data : Memory UInt8} {size fuel fuel' : Nat}
    (hsize : size ≤ 1000000) (hfuel : 8 * size < fuel') (ht : t.Fits) {c : ObCtx}
    (h : io fuel (m := .constructBinary) t (ObCtx.create data size) = .ok t' c) (into : ExtendedEventDescriptor) :
    t' = t.close ∧
    (∃ d, io fuel' (m := .parseBinary) into (IbCtx.create c.data size) = .ok t' d ∧ d.bitpos = c.bitpos) ∧
    ∃ d, io fuel (m := .constructText) t OcCtx.create = .error .undefined d := by
  rw [← ofValue_toValue t, io_eq_format Format.zero fuel t.toValue rfl] at h
  obtain ⟨v', hv', rfl⟩ := map_eq_ok.mp h
  obtain ⟨rfl, d, hd, hpos⟩ := Format.parse_constructed extendedEventFormat_wf Format.zero Format.zero (by omega) hfuel
    ht.toValue hv' into.toValue
  refine ⟨ofValue_close t, ⟨d, ?_, hpos⟩, ?_⟩
  · rw [← ofValue_toValue into, io_eq_format Format.zero fuel' into.toValue rfl]
    exact map_eq_ok.mpr ⟨_, hd, rfl⟩
  · obtain ⟨head, o, hhead, hrest⟩ := bind_eq_ok.mp hv'
    obtain ⟨text, o', htext, -⟩ := bind_eq_ok.mp hrest
    obtain ⟨head', d, hd, hsim⟩ := Format.simulated Format.zero fuel extendedEventHead_wf ht.toValue.1 _ _ _ _
      (Simulates.create hsize) hhead
    refine ⟨d, ?_⟩
    rw [← ofValue_toValue t, io_eq Format.zero fuel t.toValue, bind_ok hd]
    exact bind_error (unnamedString_undefined hsim ht.text htext)

def sample : ExtendedEventDescriptor :=
  ⟨0x4e, 200, 1, 2, chars "eng", 0, [⟨chars "year", chars "1999"⟩, ⟨[], chars "x"⟩], chars "text"⟩

theorem extended_event_modes_sample : ∃ c d e,
    io 0 (m := .constructBinary) sample (ObCtx.create (fun _ => 0xff) 32) = .ok sample.close c ∧
    io 300 (m := .parseBinary) sample (IbCtx.create c.data 32) = .ok sample.close d ∧ d.bitpos = c.bitpos ∧
    io 0 (m := .constructText) sample OcCtx.create = .error .undefined e := by
  obtain ⟨c, hc⟩ : ∃ c, io 0 (m := .constructBinary) sample (ObCtx.create (fun _ => 0xff) 32) = .ok sample.close c :=
    exists_ok_of_gives (by decide +kernel)
  have ht : sample.Fits := ⟨by decide, by decide, by decide, by decide, by decide⟩
  obtain ⟨-, ⟨d, hd, hpos⟩, e, he⟩ := extended_event_modes (by decide) (show 8 * 32 < 300 by decide) ht hc sample
  exact ⟨c, d, e, hc, hd, hpos, he⟩

end ExtendedEventDescriptor

end Mopa.Dvb
