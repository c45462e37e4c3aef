import Mopa.NitRoundTrip
import Mopa.TextNumerals
import Mopa.TextRoundTrip

/-! Sections as text: what is accepted from bytes is printed, and what is read from that text is
constructed as the same bytes. A checksum that is printed as a negative number is not read
back, and is not missed. -/
namespace Mopa.Dvb
open Io Bits Outcome OcCtx

def Bcd (x : UInt32) : Prop := ∀ d ∈ Numeral.digits 16 8 x.toNat, d < 10

def Descriptor.Decimal (d : Descriptor) : Prop := ∀ system, d.content = .cableDeliverySystem system → Bcd system.frequency

theorem dvbInfo_plain {str : String} (h : Identifier (chars str)) : (dvbInfo str).Plain := ⟨h, Nat.zero_and _⟩

theorem dataFormat_called (n : Nat) : (dataFormat n).Called := by
  cases n with
  | zero => trivial
  | succ n =>
    show Identifier (chars "data")
    decide

theorem class_called (k : DescriptorClass) : k.format.Called := by
  cases k with
  | adaptationFieldData =>
    simp only [Format.Called, DescriptorClass.format, Format.Infos]
    exact ⟨dvbInfo_plain (by decide), by decide⟩
  | serviceList =>
    simp only [Format.Called, DescriptorClass.format, serviceFormat, Format.Infos]
    exact ⟨dvbInfo_plain (by decide), trivial, by decide, by decide⟩
  | cableDeliverySystem =>
    simp only [Format.Called, DescriptorClass.format, cableDeliverySystemFormat, Format.Infos]
    exact ⟨dvbInfo_plain (by decide), by decide, by decide, by decide, by decide, by decide, by decide⟩
  | unknown =>
    simp only [Format.Called, DescriptorClass.format, Format.Infos]
    exact ⟨by decide, fun n => dataFormat_called n.toNat⟩

theorem descriptorFormat_called : descriptorFormat.Called := by
  refine ⟨?_, fun _ => class_called _⟩
  show Identifier (chars "tag")
  decide

theorem tsFormat_called : tsFormat.Called := by
  have hdescriptors := descriptorFormat_called
  simp only [Format.Called, tsFormat, Format.Infos] at hdescriptors ⊢
  exact ⟨by decide, by decide, by decide, dvbInfo_plain (by decide), trivial, hdescriptors⟩

theorem headFormat_called : headFormat.Called := by
  simp only [Format.Called, headFormat, Format.Infos]
  exact ⟨by decide, by decide, by decide, by decide⟩

theorem bodyFormat_called : bodyFormat.Called := by
  have hdescriptors := descriptorFormat_called
  have hloop := tsFormat_called
  simp only [Format.Called, bodyFormat, Format.Infos] at hdescriptors hloop ⊢
  exact ⟨by decide, by decide, by decide, by decide, by decide, by decide, by decide,
    ⟨dvbInfo_plain (by decide), trivial, hdescriptors⟩, by decide, dvbInfo_plain (by decide), trivial, hloop⟩

theorem dataFormat_brief (n : Nat) : (dataFormat n).Brief 32 := by
  cases n with
  | zero => trivial
  | succ n => exact ⟨Nat.succ_pos n, show (chars "data").length ≤ 32 by decide⟩

theorem class_brief (k : DescriptorClass) : k.format.Brief 32 := by
  cases k with
  | adaptationFieldData =>
    simp only [DescriptorClass.format, Format.Brief]
    decide
  | serviceList =>
    simp only [DescriptorClass.format, serviceFormat, Format.Brief]
    decide
  | cableDeliverySystem =>
    simp only [DescriptorClass.format, cableDeliverySystemFormat, Format.Brief]
    decide
  | unknown =>
    simp only [DescriptorClass.format, Format.Brief]
    exact ⟨by decide, fun n => dataFormat_brief n.toNat⟩

theorem descriptorFormat_brief : descriptorFormat.Brief 32 := by
  refine ⟨?_, fun _ => class_brief _⟩
  show (chars "tag").length ≤ 32
  decide

theorem tsFormat_brief : tsFormat.Brief 32 := by
  have hdescriptors := descriptorFormat_brief
  simp only [tsFormat, Format.Brief] at hdescriptors ⊢
  exact ⟨by decide, by decide, by decide, by decide, trivial, hdescriptors⟩

theorem headFormat_brief : headFormat.Brief 32 := by
  simp only [headFormat, Format.Brief]
  decide

theorem bodyFormat_brief : bodyFormat.Brief 32 := by
  have hdescriptors := descriptorFormat_brief
  have hloop := tsFormat_brief
  simp only [bodyFormat, Format.Brief] at hdescriptors hloop ⊢
  exact ⟨by decide, by decide, by decide, by decide, by decide, by decide, by decide, ⟨by decide, trivial, hdescriptors⟩,
    by decide, by decide, trivial, hloop⟩

theorem dvbInfo_readable {str : String} {n w : Nat} (hn : n < 2^w) (hw : w ≤ 31) : Readable n (dvbInfo str) := by
  have hhint : (dvbInfo str).hint &&& formatHintMask = 0 := Nat.zero_and _
  unfold Readable
  rw [hhint, if_neg (by decide)]
  exact ⟨by decide, hn.trans_le (Nat.pow_le_pow_right (by decide) hw)⟩

theorem dataFormat_readable (n : Nat) (v : (dataFormat n).Value) : (dataFormat n).Fields Readable v := by
  cases n with
  | zero => trivial
  | succ n => trivial

theorem class_readable {tag : UInt8} {k : DescriptorClass} {v : k.format.Value} (hv : k.format.Fits v)
    (hdecimal : (Descriptor.ofClass tag k v).Decimal) : k.format.Fields Readable v := by
  cases k with
  | adaptationFieldData =>
    show Readable v.2.toNat (dvbInfo "adaptation_field_data_identifier")
    exact dvbInfo_readable hv (by decide)
  | serviceList =>
    refine ⟨trivial, fun x hx => ?_⟩
    obtain ⟨hid, htype⟩ := hv.2 x hx
    simp only [serviceFormat, Format.Fields]
    exact ⟨dvbInfo_readable hid (by decide), dvbInfo_readable htype (by decide)⟩
  | cableDeliverySystem =>
    obtain ⟨-, -, hfec, hmodulation, hrate, hinner⟩ := hv
    have hfrequency : Readable v.2.1.toNat ⟨chars "frequency", formatHintHex⟩ := hdecimal _ rfl
    simp only [DescriptorClass.format, cableDeliverySystemFormat, Format.Fields]
    exact ⟨hfrequency, dvbInfo_readable (w := 12) (by decide) (by decide), dvbInfo_readable hfec (by decide),
      dvbInfo_readable hmodulation (by decide), dvbInfo_readable hrate (by decide), dvbInfo_readable hinner (by decide)⟩
  | unknown =>
    have hlength : Readable v.1.toNat (dvbInfo "length") := dvbInfo_readable hv.1 (by decide)
    exact ⟨hlength, dataFormat_readable _ _⟩

theorem descriptor_readable {v : descriptorFormat.Value} (hv : descriptorFormat.Fits v)
    (hdecimal : (Descriptor.ofValue v).Decimal) : descriptorFormat.Fields Readable v := by
  have htag : Readable v.1.toNat (dvbInfo "tag") := dvbInfo_readable hv.1 (by decide)
  exact ⟨htag, class_readable hv.2 hdecimal⟩

theorem ts_readable {v : tsFormat.Value} (hv : tsFormat.Fits v)
    (hdecimal : ∀ d ∈ (TsSpecification.ofValue v).transportDescriptors, d.Decimal) : tsFormat.Fields Readable v := by
  obtain ⟨hid, hnetwork, -, -, hlist⟩ := hv
  have hdescriptors (x) (hx : x ∈ v.2.2.2.2.2) : descriptorFormat.Fields Readable x :=
    descriptor_readable (hlist x hx) (hdecimal _ (List.mem_map_of_mem hx))
  simp only [tsFormat, Format.Fields]
  exact ⟨dvbInfo_readable hid (by decide), dvbInfo_readable hnetwork (by decide),
    dvbInfo_readable (w := 4) (by decide) (by decide), trivial, hdescriptors⟩

theorem head_readable {h : headFormat.Value} (hh : headFormat.Fits h) : headFormat.Fields Readable h := by
  obtain ⟨htable, hindicator, -⟩ := hh
  simp only [headFormat, Format.Fields]
  exact ⟨dvbInfo_readable htable (by decide), dvbInfo_readable hindicator (by decide),
    dvbInfo_readable (w := 1) (by decide) (by decide), dvbInfo_readable (w := 2) (by decide) (by decide)⟩

theorem body_readable {h : headFormat.Value} {v : bodyFormat.Value} {length : UInt16} {crc : UInt32} (hv : bodyFormat.Fits v)
    (hdecimal : ∀ d ∈ (NetworkInformationSection.ofValue h v length crc).descriptors, d.Decimal) :
    bodyFormat.Fields Readable v := by
  obtain ⟨hid, -, hversion, hcurrent, hnumber, hlast, -, ⟨-, hlist⟩, -, -, hts⟩ := hv
  have hdescriptors (x) (hx : x ∈ v.2.2.2.2.2.2.2.1.2.2) : descriptorFormat.Fields Readable x :=
    descriptor_readable (hlist x hx) (hdecimal _ (List.mem_append_left _ (List.mem_map_of_mem hx)))
  have hloop (x) (hx : x ∈ v.2.2.2.2.2.2.2.2.2.2.2) : tsFormat.Fields Readable x :=
    ts_readable (hts x hx) fun d hd => hdecimal d
      (List.mem_append_right _ (List.mem_flatMap.mpr ⟨_, List.mem_map_of_mem hx, hd⟩))
  simp only [bodyFormat, Format.Fields]
  exact ⟨dvbInfo_readable hid (by decide), dvbInfo_readable (w := 2) (by decide) (by decide),
    dvbInfo_readable hversion (by decide), dvbInfo_readable hcurrent (by decide), dvbInfo_readable hnumber (by decide),
    dvbInfo_readable hlast (by decide), dvbInfo_readable (w := 4) (by decide) (by decide), ⟨trivial, hdescriptors⟩,
    dvbInfo_readable (w := 4) (by decide) (by decide), trivial, hloop⟩

namespace NetworkInformationSection

section Text
variable (values : (f : Format) → f.Value) (fuel : Nat) {h : headFormat.Value} {v v' : bodyFormat.Value} {n : Nat}
  {bytes : List UInt8} {hb bb : List Bool}

/-- The text of a section, with the checksum as it is in the struct. -/
def sectionText (h : headFormat.Value) (v : bodyFormat.Value) (n : Nat) (crc : UInt32) : List UInt8 :=
  headFormat.text h 0 ++
    blockText 0 n (dvbInfo "section_length") (bodyFormat.text v 1 ++ uintLine 1 32 crc.toNat (dvbInfo "CRC"))

theorem crcIo_simulates {o o' : ObCtx} {t : OcCtx} {info : Info} {crc crc' : UInt32} (hsim : Simulates o t)
    (hroom : o.bitpos + 32 < 2^32)
    (ho : Iox.crcIo 0 (m := .constructBinary) crc info o = .ok crc' o') :
    Iox.crcIo 0 (m := .constructText) crc info t = .ok crc (t.print 32 (uintLine t.scopeStack.length 32 crc.toNat info)) ∧
      Simulates o' (t.print 32 (uintLine t.scopeStack.length 32 crc.toNat info)) := by
  obtain ⟨hal, hstack, hlimit, hpos, hfit⟩ := crcIo_ok ho
  rw [u32_of_lt hroom] at hpos
  have hprint : Ocx.uint 32 crc info t = .ok () (t.print 32 (uintLine t.scopeStack.length 32 crc.toNat info)) := by
    have hlimit := hsim.limit
    rw [ocx_uint_apply, hsim.bitpos, u32_of_lt hroom, if_neg (by omega), if_neg fun h => absurd h.1 (by decide), ← hsim.bitpos]
    rfl
  constructor
  · exact (bind_ok (crcAligned_ok rfl rfl (by rwa [hsim.bitpos]))).trans (bind_ok hprint)
  · have hfield := hsim.field hstack hlimit (t.prod ++ uintLine t.scopeStack.length 32 crc.toNat info)
    rwa [hpos, ← hsim.bitpos] at hfield

theorem block_prints (crc : UInt32) {o : ObCtx} {t : OcCtx} (hsim : Simulates o t)
    (hbody : bodyFormat.encode 32 v 24 = some (v', bb)) (hsize : bb.length + 32 = 8 * n) (hn : n < 2^12) (hpos : o.bitpos = 12)
    (hroom : 8 * (3 + n) ≤ o.bitlimit) (hl : o.bitlimit < 2^32) (hseat : t.prod.length < 2^32)
    (hseats : bodyFormat.Seated v (t.scopeStack.length + 1)
      (t.prod.length + (indent t.scopeStack.length ++ chars "\x7b\n").length)) : ∃ t1 t2 t3,
      Iox.namedBlockBegin (m := .constructText) 12 (dvbInfo "section_length") t = .ok () t1 ∧
      bodyFormat.io (m := .constructText) values fuel v t1 = .ok v' t2 ∧
      Iox.crcIo 0 (m := .constructText) crc (dvbInfo "CRC") t2 = .ok crc t3 ∧
      Iox.namedBlockEnd (m := .constructText) (dvbInfo "section_length") t3 = .ok n (t.print (12 + 8 * n)
        (blockText t.scopeStack.length n (dvbInfo "section_length") (bodyFormat.text v (t.scopeStack.length + 1) ++
          uintLine (t.scopeStack.length + 1) 32 crc.toNat (dvbInfo "CRC")))) ∧
      ∃ bits, bodyFormat.encode 40 v 24 = some (v', bits) ∧ bits.length + 32 = 8 * n := by
  have hfits := Format.fits_of_encode bodyFormat_wf hbody
  obtain ⟨hv', hbb⟩ := Format.encode_eq_some hbody
  obtain ⟨o1, o2, o3, crc1, hbegin, hbody', hpos2, hcrc, hend⟩ := block_writes values fuel crc hbody hsize
    hn hpos hroom hl
  obtain ⟨t1, hbegin', hsim1⟩ := namedBlockBegin_simulates hsim hbegin
  obtain ⟨-, rfl⟩ := ocx_namedBlockBegin_enter (by rw [hsim.bitpos]; omega) hseat hbegin'
  have hpos1 : o1.bitpos = 24 := hsim1.bitpos.symm.trans (by
    show t.bitpos + 12 = 24
    rw [hsim.bitpos, hpos])
  obtain ⟨v1, bits, hprint, hsim2, henc, hbits⟩ := Format.simulated_prints values fuel bodyFormat_wf hfits
    (Format.small_of_encode hbody).bounded hsim1 (by omega) (List.length_append ▸ hseats) hbody'
  obtain ⟨hv1, -⟩ := Format.encode_eq_some henc
  obtain rfl : v1 = v' := hv1.trans hv'.symm
  obtain ⟨hcrc', hsim3⟩ := crcIo_simulates hsim2 (by omega) hcrc
  obtain ⟨t4, hend', -⟩ := namedBlockEnd_simulates hsim3 hend
  rw [print_print] at hend' hcrc'
  obtain ⟨hlength, rfl⟩ := ocx_namedBlockEnd_close (by rw [hsim.bitpos]; omega) hend'
  rw [hlength] at hend' hcrc'
  rw [hpos1] at henc
  exact ⟨_, _, _, hbegin', hprint, hcrc', hend', bits, henc, by omega⟩

theorem seated (he : Encodes h v v' n bytes) (hsmall : n ≤ 1021) : headFormat.Seated h 0 0 ∧
    (headFormat.text h 0).length < 2^32 ∧
      bodyFormat.Seated v 1 ((headFormat.text h 0).length + (indent 0 ++ chars "\x7b\n").length) := by
  obtain ⟨hb, bb, hhead, hbody, hsize, -⟩ := he
  obtain ⟨-, hbodySize⟩ := Format.encode_eq_some hbody
  have hheadText : (headFormat.text h 0).length ≤ 3 * (2 * 12 + 32 + 34) * 12 :=
    Format.length_text_le headFormat_wf headFormat_brief (Format.small_of_encode hhead) (show 0 + 12 ≤ 12 by decide)
  have hbodyText : (bodyFormat.text v 1).length ≤ 3 * (2 * 8137 + 32 + 34) * 8136 :=
    (Format.length_text_le bodyFormat_wf bodyFormat_brief (Format.small_of_encode hbody) (show _ ≤ 8137 by omega)).trans
      (Nat.mul_le_mul_left _ (by omega))
  have hbrace : (indent 0 ++ chars "\x7b\n").length = 2 := rfl
  exact ⟨Format.seated_of_short (by omega), by omega, Format.seated_of_short (by omega)⟩

theorem formatIo_prints (length : UInt16) (crc : UInt32) (he : Encodes h v v' n bytes) (hsmall : n ≤ 1021) :
    formatIo (m := .constructText) values fuel h v length crc OcCtx.create =
        .ok (ofValue h v' (UInt16.ofNat n) crc) (OcCtx.create.print (8 * (3 + n)) (sectionText h v n crc)) ∧
      ∃ hb bb, headFormat.encode 40 h 0 = some (h, hb) ∧ bodyFormat.encode 40 v 24 = some (v', bb) ∧
        bb.length + 32 = 8 * n := by
  have he' := he
  obtain ⟨hb, bb, hhead, hbody, hsize, hn, -⟩ := he
  have h12 := head_length hhead
  have hfits := Format.fits_of_encode headFormat_wf hhead
  obtain ⟨hh, -⟩ := Format.encode_eq_some hhead
  obtain ⟨hheadSeats, hseat, hseats⟩ := seated he' hsmall
  have hcreate : Simulates (ObCtx.create (fun _ => 0) 1024) OcCtx.create := .create (by decide)
  have hwrite : headFormat.io (m := .constructBinary) values fuel h (ObCtx.create (fun _ => 0) 1024) = _ :=
    (Format.writes values fuel headFormat_wf hfits (by decide : 2^30 ≤ highTop)).ok ⟨by decide, by decide⟩ hhead (show 0 + hb.length ≤ 8192 by omega)
  obtain ⟨h1, hb', hprint, hsim, henc, -⟩ := Format.simulated_prints values fuel headFormat_wf hfits
    (Format.small_of_encode hhead).bounded hcreate (show 0 + 12 < 2^32 by decide) hheadSeats hwrite
  obtain ⟨hh1, -⟩ := Format.encode_eq_some henc
  obtain rfl : h1 = h := hh1.trans hh.symm
  obtain ⟨t1, t2, t3, hbegin, hprint', hcrc, hend, bits, henc', hbits⟩ := block_prints values fuel crc hsim hbody hsize hn
    (show 0 + hb.length = 12 by omega) (show 8 * (3 + n) ≤ 8192 by omega) (show 8192 < 2^32 by decide) hseat hseats
  refine ⟨?_, hb', bits, henc, henc', hbits⟩
  have hstart : Iox.bitpos (m := .constructText) OcCtx.create = .ok 0 OcCtx.create := rfl
  refine (bind_ok hstart).trans ((bind_ok hprint).trans ((bind_ok hbegin).trans ?_))
  rw [if_neg fun hguard => by cases hguard.1]
  refine (bind_ok hprint').trans ((bind_ok rfl).trans ((bind_ok hcrc).trans ((bind_ok hend).trans ?_)))
  refine (bind_ok (crcLateFix_apply (by decide) rfl rfl ?_)).trans ?_
  · show (0 + 12 + (12 + 8 * n)) % 8 = 0
    omega
  · rw [if_neg fun hguard => ?_]
    · rw [print_print, show headFormat.size h1 = 12 from rfl, show 12 + (12 + 8 * n) = 8 * (3 + n) by omega]
      rfl
    · have hlong : 1021 < n % 65536 := hguard.2
      omega

/-- The line of the checksum is read, up to the sign if there is one, and what is left of it
is taken for the end of the block. -/
theorem crc_line {c : IcCtx} {depth : Nat} {crc : UInt32} {rest : List UInt8} (hroom : c.bitpos + 32 < 2^32)
    (hnext : c.Next (uintLine depth 32 crc.toNat (dvbInfo "CRC") ++ (chars "\x7d\n" ++ rest))) :
    ∃ crc' c', Icx.uint 32 (dvbInfo "CRC") c = .ok crc' c' ∧ c'.scopeStack = c.scopeStack ∧ c'.bitpos = c.bitpos + 32 ∧
      ∃ text, Icx.leaveScope c' = .ok () { c' with parsePos := text } := by
  by_cases hsmall : crc.toNat < 2^31
  · have hread := Icx.uint_line (by decide) (dvbInfo_readable hsmall le_rfl) crc.toNat_lt crc.toNat_lt hnext
    have hbrace : IcCtx.skipBlanks (10 :: (chars "\x7d\n" ++ rest)) = 125 :: 10 :: rest := rfl
    exact ⟨_, _, hread, rfl, u32_of_lt hroom, Icx.leaveScope_ok hbrace⟩
  · unfold uintLine at hnext
    simp only [List.append_assoc, IcCtx.Next.indent] at hnext
    rw [← List.append_assoc (dvbInfo "CRC").name] at hnext
    rw [Icx.number_sign (by decide) (by decide) (not_lt.mp hsmall)] at hnext
    have hread := (Icx.readUint_line (w := 32) (by decide) hnext).trans (Icx.readNumeral_sign rfl)
    have hminus (text : List UInt8) : IcCtx.skipBlanks (45 :: text) = 45 :: text := rfl
    have huint := icx_uint_of_ok hread
    exact ⟨_, _, huint, rfl, u32_of_lt hroom, Icx.leaveScope_ok (hminus _)⟩

theorem block_scans (v0 : bodyFormat.Value) (crc0 : UInt32) {c : IcCtx} {crc : UInt32} {rest : List UInt8}
    (hbody : bodyFormat.encode 40 v 24 = some (v', bb)) (hsize : bb.length + 32 = 8 * n) (hn : n < 2^12) (hfuel : 2^15 ≤ fuel)
    (hreadable : bodyFormat.Fields Readable v)
    (hnext : c.Next (blockText 0 n (dvbInfo "section_length")
      (bodyFormat.text v 1 ++ uintLine 1 32 crc.toNat (dvbInfo "CRC")) ++ rest))
    (hpos : c.bitpos % 8 = 4) (hroom : c.bitpos + 12 + 8 * n ≤ c.bitlimit) (hl : c.bitlimit < 2^32) :
    ∃ v1 crc' n' c1 c2 c3 c4,
      Iox.namedBlockBegin (m := .parseText) 12 (dvbInfo "section_length") c = .ok () c1 ∧
      bodyFormat.io (m := .parseText) values fuel v0 c1 = .ok v1 c2 ∧
      Iox.crcIo 0 (m := .parseText) crc0 (dvbInfo "CRC") c2 = .ok crc' c3 ∧
      Iox.namedBlockEnd (m := .parseText) (dvbInfo "section_length") c3 = .ok n' c4 ∧ c4.bitpos % 8 = 0 ∧
      bodyFormat.contents v1 = bodyFormat.contents v := by
  unfold blockText at hnext
  simp only [List.append_assoc] at hnext
  have hbegin := icx_namedBlockBegin_line (b := 12) (by decide) (dvbInfo_readable hn (by decide)) (by decide) hn hnext
    (by omega) hroom hl
  obtain ⟨v1, c2, hread, hv1, hpassed⟩ := Format.scans values bodyFormat_wf bodyFormat_called hreadable hbody
    (show bb.length < fuel by omega) 1 (uintLine 1 32 crc.toNat (dvbInfo "CRC") ++ (indent 0 ++ (chars "\x7d\n" ++ rest))) v0
    (c.enter 12 n (dvbInfo "section_length") _) (skipBlanks_newline _) (show (c.bitpos + 12) % 8 = 24 % 8 by omega)
    (show c.bitpos + 12 + bb.length ≤ c.bitpos + 12 + 8 * n by omega) (show c.bitpos + 12 + 8 * n < 2^32 by omega)
  have hwithin : c2.bitpos ≤ c.bitpos + 12 + bb.length := hpassed.within
  have hoffset : c2.bitpos % 8 = (c.bitpos + 12 + bb.length) % 8 := hpassed.offset
  have hal : c2.bitpos % 8 = 0 := by omega
  obtain ⟨crc', c3, hline, hstack, hpos3, text, hleave⟩ := crc_line (by omega) hpassed.next
  have hend : Icx.blockEnd (dvbInfo "section_length") c3 = _ := icx_blockEnd_apply (hstack.trans hpassed.stack) hleave (by
    show sub32 c3.bitpos (c.bitpos + 12) % 8 = 0
    unfold sub32
    omega)
  have hal' : c3.bitpos % 8 = 0 := by omega
  exact ⟨v1, crc', _, _, c2, c3, _, hbegin, hread, (bind_ok (crcAligned_ok rfl rfl hal)).trans hline, hend, hal', hv1⟩

theorem formatIo_scans (h0 : headFormat.Value) (v0 : bodyFormat.Value) (crc crc0 : UInt32) {length : UInt16}
    (hhead : headFormat.encode 40 h 0 = some (h, hb)) (hbody : bodyFormat.encode 40 v 24 = some (v', bb))
    (hsize : bb.length + 32 = 8 * n) (hsmall : n ≤ 1021) (hfuel : 2^15 ≤ fuel) (hrh : headFormat.Fields Readable h)
    (hrv : bodyFormat.Fields Readable v) (hlength : length ≤ 1021) :
    ∃ v1 length' crc' c, formatIo (m := .parseText) values fuel h0 v0 length crc0 (IcCtx.create (sectionText h v n crc)) =
      .ok (ofValue h v1 length' crc') c ∧ bodyFormat.contents v1 = bodyFormat.contents v := by
  have h12 := head_length hhead
  obtain ⟨h1, c, hread, hh1, hpassed⟩ := Format.scans values headFormat_wf headFormat_called hrh hhead
    (show hb.length < fuel by omega) 0 (blockText 0 n (dvbInfo "section_length")
      (bodyFormat.text v 1 ++ uintLine 1 32 crc.toNat (dvbInfo "CRC")) ++ [0]) h0 (IcCtx.create (sectionText h v n crc))
    (congrArg IcCtx.skipBlanks (List.append_assoc _ _ _)) rfl (show 0 + hb.length ≤ 8 * 1000000 by omega)
    (show 8 * 1000000 < 2^32 by decide)
  obtain rfl : h1 = h := hh1
  have hwithin : c.bitpos ≤ 0 + hb.length := hpassed.within
  have hoffset : c.bitpos % 8 = (0 + hb.length) % 8 := hpassed.offset
  have hlimit : c.bitlimit = 8 * 1000000 := hpassed.limit
  obtain ⟨v1, crc', n', c1, c2, c3, c4, hbegin, hbody', hcrc, hend, hal, hv1⟩ := block_scans values fuel v0 crc0
    hbody hsize (by omega) hfuel hrv hpassed.next (by omega) (by omega) (by omega)
  refine ⟨v1, UInt16.ofNat n', crc', c4, ?_, hv1⟩
  have hstart : Iox.bitpos (m := .parseText) (IcCtx.create (sectionText h1 v n crc)) = .ok 0 _ := rfl
  refine (bind_ok hstart).trans ((bind_ok hread).trans ((bind_ok hbegin).trans ?_))
  rw [if_neg fun hguard => UInt16.not_lt.mpr hlength hguard.2]
  refine (bind_ok hbody').trans ((bind_ok rfl).trans ((bind_ok hcrc).trans ((bind_ok hend).trans ?_)))
  refine (bind_ok (crcLateFix_apply (by decide) rfl rfl hal)).trans ?_
  rw [if_neg fun hguard => absurd hguard.1 (by decide)]
  rfl

theorem tagged_contents {list : List descriptorFormat.Value} : Tagged (list.map descriptorFormat.contents) ↔ Tagged list := by
  unfold Tagged
  rw [List.forall_mem_map]
  rfl

theorem bodyTagged_contents : bodyTagged (bodyFormat.contents v) ↔ bodyTagged v := by
  refine and_congr tagged_contents ?_
  show (∀ t ∈ List.map tsFormat.contents _, tsTagged t) ↔ _
  rw [List.forall_mem_map]
  exact forall₂_congr fun t _ => tagged_contents

theorem encodes_of_contents {v1 : bodyFormat.Value} (he : Encodes h v v' n bytes)
    (hv1 : bodyFormat.contents v1 = bodyFormat.contents v) : Encodes h v1 v' n bytes := by
  have hencode : bodyFormat.encode 32 v1 = bodyFormat.encode 32 v := by
    rw [← Format.encode_contents, hv1, Format.encode_contents]
  unfold Encodes
  rw [hencode]
  exact he

end Text

section RoundTrip
variable {fresh fresh' fresh'' : Fresh} {t : NetworkInformationSection} {data : Memory UInt8} {size : Nat}

/-- A section that is accepted is printed, and read from the text it is constructed again as it was:
the checksum is not read from the text if it is printed as a negative number, but it is calculated
again. -/
theorem text_round_trip (hfuel : 2^15 ≤ fresh'.fuel) {d : IbCtx}
    (hrun : io (m := .parseBinary) fresh zero (IbCtx.create data size) = .ok t d) (hsmall : t.sectionLength ≤ 1021)
    (htag : ∀ d ∈ t.descriptors, d.tag ≠ 0x70) (hdecimal : ∀ d ∈ t.descriptors, d.Decimal) :
    ∃ c t' d', io (m := .constructText) fresh'' t OcCtx.create = .ok t c ∧
      io (m := .parseText) fresh' zero (IcCtx.create c.prod) = .ok t' d' ∧
      ∀ (data' : Memory UInt8) (size' : Nat), 8 * (3 + t.sectionLength.toNat) ≤ u32 (size' * 8) →
        ∃ c', io (m := .constructBinary) fresh'' t' (ObCtx.create data' size') = .ok t c' ∧
          emitted c' = data.read 0 (3 + t.sectionLength.toNat) := by
  rw [io_parsing Format.zero rfl fresh zero headFormat.zero bodyFormat.zero 0] at hrun
  obtain ⟨-, h, v, n, bytes, he, hs, rfl⟩ := formatIo_accepts rfl (Nat.mod_lt _ (by decide)) hrun
  obtain ⟨-, hdata⟩ := (sees_checked he).mp hs
  have hn : (ofValue h v (UInt16.ofNat n) (dvbCrc32 bytes)).sectionLength.toNat = n := by
    obtain ⟨-, -, -, -, -, hn, -⟩ := he
    exact Nat.mod_eq_of_lt (hn.trans (by decide))
  have hsmall : n ≤ 1021 := hn ▸ UInt16.le_iff_toNat_le.mp hsmall
  have htagged := bodyTagged_of htag
  obtain ⟨hb, bb, hhead, hbody, -⟩ := id he
  obtain ⟨hprint, hb', bb', hhead', hbody', hsize⟩ := formatIo_prints Format.zero fresh''.fuel (UInt16.ofNat n)
    (dvbCrc32 bytes) he hsmall
  obtain ⟨v1, length', crc', d', hscan, hv1⟩ := formatIo_scans Format.zero fresh'.fuel headFormat.zero bodyFormat.zero
    (dvbCrc32 bytes) 0 hhead' hbody' hsize hsmall hfuel
    (head_readable (Format.fits_of_encode headFormat_wf hhead))
    (body_readable (Format.fits_of_encode bodyFormat_wf hbody) hdecimal) (show zero.sectionLength ≤ 1021 by decide)
  rw [← io_eq Format.zero fresh'' fun _ => htagged] at hprint
  rw [← io_parsing Format.zero rfl fresh' zero] at hscan
  refine ⟨_, _, d', hprint, hscan, fun data' size' hfit => ?_⟩
  rw [hn] at hfit ⊢
  have htagged1 : bodyTagged v1 := bodyTagged_contents.mp (hv1 ▸ bodyTagged_contents.mpr htagged)
  rw [io_eq Format.zero fresh'' fun _ => htagged1]
  refine ⟨_, formatIo_writes (encodes_of_contents he hv1) hsmall rfl hfit (Nat.mod_lt _ (by decide)), ?_⟩
  rw [emitted_emit, hdata]

theorem sampleSection_decimal : ∀ d ∈ sampleSection.descriptors, d.Decimal := by
  have hfrequency : Bcd 0x03120000 := by
    unfold Bcd
    decide
  refine List.forall_mem_cons.mpr ⟨?_, List.forall_mem_cons.mpr ⟨?_, List.forall_mem_singleton.mpr ?_⟩⟩
  · rintro system ⟨⟩
  · rintro system ⟨⟩
  · rintro system ⟨⟩
    exact hfrequency

theorem text_round_trip_sample : ∃ c t' d',
    io (m := .constructText) sampleFresh sampleSection OcCtx.create = .ok sampleSection c ∧
    io (m := .parseText) sampleFresh zero (IcCtx.create c.prod) = .ok t' d' ∧
    ∃ c', io (m := .constructBinary) sampleFresh t' (ObCtx.create (fun _ => 0xff) 44) = .ok sampleSection c' ∧
      emitted c' = sampleBytes := by
  obtain ⟨d, hrun⟩ := exists_ok_of_gives (x := io (m := .parseBinary) sampleFresh zero)
    (s := IbCtx.create (Memory.write (fun _ => 0) 0 sampleBytes) 44) (a := sampleSection) (by decide +kernel)
  obtain ⟨c, t', d', hprint, hread, hwrite⟩ := @text_round_trip sampleFresh sampleFresh sampleFresh sampleSection _ 44
    (le_refl (2^15)) d hrun (by decide) (by decide) sampleSection_decimal
  exact ⟨c, t', d', hprint, hread, hwrite (fun _ => 0xff) 44 (by decide)⟩

end RoundTrip

end NetworkInformationSection

end Mopa.Dvb
