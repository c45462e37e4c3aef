import Mopa.Checksums
import Mopa.NitFormat

/-! Sections as bytes: binary parsing reads a section back that stands in the buffer with its
checksum, and accepts nothing else. -/
namespace Mopa.Dvb
open Io Bits Outcome

/-- The bytes in front of the checksum. Behind `section_length` there are `n` bytes with the
checksum; `v'` has the lengths of its blocks filled in. -/
def Encodes (h : headFormat.Value) (v v' : bodyFormat.Value) (n : Nat) (bytes : List UInt8) : Prop :=
  ∃ hb bb, headFormat.encode 32 h 0 = some (h, hb) ∧ bodyFormat.encode 32 v 24 = some (v', bb) ∧
    bb.length + 32 = 8 * n ∧ n < 2^12 ∧ ofBytes bytes = hb ++ (ofNat 12 n ++ bb)

def checked (bytes : List UInt8) : List UInt8 := bytes ++ bytes32 (dvbCrc32 bytes)

theorem head_length {h h' : headFormat.Value} {span p : Nat} {bits : List Bool}
    (he : headFormat.encode span h p = some (h', bits)) : bits.length = 12 := (Format.encode_eq_some he).2

theorem Encodes.length {h : headFormat.Value} {v v' : bodyFormat.Value} {n : Nat} {bytes : List UInt8}
    (he : Encodes h v v' n bytes) : bytes.length + 1 = n := by
  obtain ⟨hb, bb, hhead, -, hsize, -, hbytes⟩ := he
  have hlength := congrArg List.length hbytes
  rw [length_ofBytes, List.length_append, List.length_append, length_ofNat, head_length hhead] at hlength
  omega

theorem ofBytes_checked (bytes : List UInt8) :
    ofBytes (checked bytes) = ofBytes bytes ++ ofNat 32 (dvbCrc32 bytes).toNat := by
  rw [checked, ofBytes_append, ofBytes_bytes32]

theorem Encodes.length_checked {h : headFormat.Value} {v v' : bodyFormat.Value} {n : Nat} {bytes : List UInt8}
    (he : Encodes h v v' n bytes) : (checked bytes).length = 3 + n := by
  have := he.length
  rw [checked, List.length_append, show (bytes32 (dvbCrc32 bytes)).length = 4 from rfl]
  omega

namespace NetworkInformationSection

section Parsing
variable {values : (f : Format) → f.Value} {fuel : Nat} {h0 h h' : headFormat.Value} {v0 v v' : bodyFormat.Value}
  {length : UInt16} {crc0 crc : UInt32} {n : Nat} {bytes : List UInt8} {bb : List Bool} {d d' : IbCtx}

theorem block_reads (hbody : bodyFormat.encode 32 v 24 = some (v', bb)) (hsize : bb.length + 32 = 8 * n) (hn : n < 2^12)
    (hfuel : 2^15 ≤ fuel) (hpos : d.bitpos = 12) (hs : d.Sees (ofNat 12 n ++ (bb ++ ofNat 32 crc.toNat)))
    (hcrc : dvbCrc32 (d.data.read 0 (n - 1)) = crc) : ∃ d1 d2 d3,
      Iox.namedBlockBegin (m := .parseBinary) 12 (dvbInfo "section_length") d = .ok () d1 ∧
      bodyFormat.io (m := .parseBinary) values fuel v0 d1 = .ok v' d2 ∧
      Iox.crcIo 0 (m := .parseBinary) crc0 (dvbInfo "CRC") d2 = .ok crc d3 ∧
      Iox.namedBlockEnd (m := .parseBinary) (dvbInfo "section_length") d3 = .ok n (d.skip (12 + 8 * n)) := by
  have hroom := hs.room
  have hlimit := hs.limit
  rw [List.length_append, List.length_append, length_ofNat, length_ofNat] at hroom
  obtain ⟨hs1, hs2⟩ := IbCtx.Sees.append_iff.mp hs
  have hread : d.next 12 = ofNat 12 n := by
    have hstands := hs1.stands
    rwa [length_ofNat] at hstands
  have hbegin : Iox.namedBlockBegin (m := .parseBinary) 12 (dvbInfo "section_length") d =
      .ok () ((d.skip 12).enter n (dvbInfo "section_length")) :=
    ibx_namedBlockBegin_enter (by decide) hn hread (by omega) (by omega) hlimit
  generalize he : (d.skip 12).enter n (dvbInfo "section_length") = e at hbegin
  have hepos : e.bitpos = 24 := by
    rw [← he]
    show d.bitpos + 12 = 24
    omega
  have helimit : e.bitlimit = 24 + 8 * n := by
    rw [← he]
    show d.bitpos + 12 + 8 * n = _
    omega
  have hes : e.Sees (bb ++ ofNat 32 crc.toNat) := by
    refine ⟨?_, ?_, by omega⟩
    · rw [← he]
      exact hs2.stands
    · rw [List.length_append, length_ofNat]
      omega
  have hbody' : bodyFormat.io (m := .parseBinary) values fuel v0 e = .ok v' (e.skip bb.length) :=
    Format.reads values bodyFormat_wf hbody (by omega) v0 e hepos helimit hes.left
  have hcrc' : Iox.crcIo 0 (m := .parseBinary) crc0 (dvbInfo "CRC") (e.skip bb.length) = .ok crc (e.skip (8 * n)) := by
    have hdata : dvbCrc32 (e.data.read 0 (sub32 (e.skip bb.length).bitpos 0 / 8)) = crc := by
      rw [sub32_of_le (Nat.zero_le _) (by rw [IbCtx.skip_bitpos]; omega), IbCtx.skip_bitpos,
        show (e.bitpos + bb.length - 0) / 8 = n - 1 by omega, ← he]
      exact hcrc
    have hreads : Reads (Ibx.uint32 32 (dvbInfo "CRC")) crc (24 + bb.length) (e.skip bb.length).bitlimit
        (ofNat 32 crc.toNat) := .uint32 (by omega) crc.toNat_lt
    have h32 := hreads (e.skip bb.length) (by rw [IbCtx.skip_bitpos, hepos]) rfl hes.right
    rw [crcIo_apply rfl (by rw [IbCtx.skip_bitpos]; omega), bind_ok h32, IbCtx.skip_data, hdata, if_neg (not_not.mpr rfl),
      IbCtx.skip_skip, length_ofNat, hsize]
    rfl
  have hend : Iox.namedBlockEnd (m := .parseBinary) (dvbInfo "section_length") (e.skip (8 * n)) =
      .ok n (d.skip (12 + 8 * n)) := by
    rw [← he]
    exact ibx_blockEnd_close (dvbInfo "section_length") (by omega)
  exact ⟨_, _, _, hbegin, hbody', hcrc', hend⟩

theorem formatIo_reads (he : Encodes h v v' n bytes) (hpos : d.bitpos = 0) (hs : d.Sees (ofBytes (checked bytes)))
    (hlength : length ≤ 1021) (hfuel : 2^15 ≤ fuel) :
    formatIo (m := .parseBinary) values fuel h0 v0 length crc0 d =
      .ok (ofValue h v' (UInt16.ofNat n) (dvbCrc32 bytes)) (d.skip (8 * (3 + n))) := by
  have hlen := he.length
  obtain ⟨hb, bb, hhead, hbody, hsize, hn, hbytes⟩ := he
  have h12 := head_length hhead
  have hdata : d.data.read 0 (n - 1) = bytes := by
    have hfront : d.Sees (ofBytes bytes) := (ofBytes_checked bytes ▸ hs).left
    have hread := hfront.read_bytes (by omega)
    rwa [hpos, show bytes.length = n - 1 by omega] at hread
  rw [ofBytes_checked, hbytes, List.append_assoc, List.append_assoc, IbCtx.Sees.append_iff, h12] at hs
  obtain ⟨hs1, hs2⟩ := hs
  have hhead : headFormat.io (m := .parseBinary) values fuel h0 d = .ok h (d.skip 12) := by
    have hread := Format.reads values headFormat_wf hhead (show hb.length < fuel by omega) h0 d hpos rfl hs1
    rwa [h12] at hread
  obtain ⟨d1, d2, d3, hbegin, hbody', hcrc, hend⟩ := block_reads (d := d.skip 12) hbody hsize hn hfuel
    (by rw [IbCtx.skip_bitpos, hpos]) hs2 (congrArg dvbCrc32 hdata)
  rw [IbCtx.skip_skip, show 12 + (12 + 8 * n) = 8 * (3 + n) by omega] at hend
  have hstart : Iox.bitpos (m := .parseBinary) d = .ok 0 d := congrArg (EStateM.Result.ok · d) hpos
  refine (bind_ok hstart).trans ((bind_ok hhead).trans ((bind_ok hbegin).trans ?_))
  rw [if_neg fun hguard => UInt16.not_lt.mpr hlength hguard.2]
  refine (bind_ok hbody').trans ((bind_ok rfl).trans ((bind_ok hcrc).trans ((bind_ok hend).trans ?_)))
  refine (bind_ok (crcLateFix_apply (by decide) rfl rfl ?_)).trans ?_
  · rw [IbCtx.skip_bitpos]
    omega
  · rw [if_neg fun hguard => absurd hguard.1 (by decide)]
    rfl

theorem field_ok {w : Nat} {fresh val : UInt8} {info : Info} (hw : w ≤ 8) (hpos : d.bitpos ≤ 12) (hl : d.bitlimit < 2^32)
    (h : (Format.uint .uint8 w info).io (m := .parseBinary) values fuel fresh d = .ok val d') :
    (Format.uint .uint8 w info).encode 32 val d.bitpos = some (val, ofNat w val.toNat) ∧
      d.Sees (ofNat w val.toNat) ∧ d' = d.skip w := by
  obtain ⟨hval, hs, hd'⟩ := ibx_uint8_ok (by omega) hl hw h
  exact ⟨Format.encodeUint_eq_some.mpr ⟨rfl, ⟨hval, nofun⟩, rfl⟩, hs, hd'⟩

theorem required_ok {w : Nat} {val : UInt8} {info : Info} (hw : w ≤ 8) (hpos : d.bitpos ≤ 12) (hl : d.bitlimit < 2^32)
    (h : (Format.required .uint8 w val info).io (m := .parseBinary) values fuel () d = .ok () d') :
    (Format.required .uint8 w val info).encode 32 () d.bitpos = some ((), ofNat w val.toNat) ∧
      d.Sees (ofNat w val.toNat) ∧ d' = d.skip w := by
  obtain ⟨v, d1, h1, h⟩ := bind_eq_ok.mp h
  split at h
  · cases h
  · next hval =>
    cases h
    obtain rfl : v = val := not_not.mp fun hne => hval ⟨rfl, hne⟩
    obtain ⟨he, hs, hd'⟩ := @field_ok values fuel _ _ _ _ _ _ hw hpos hl h1
    exact ⟨Encoder.bind_eq_some.mpr ⟨v, _, [], he, rfl, (List.append_nil _).symm⟩, hs, hd'⟩

theorem head_ok (hpos : d.bitpos = 0) (hl : d.bitlimit < 2^32)
    (h : headFormat.io (m := .parseBinary) values fuel h0 d = .ok h' d') :
    ∃ hb, headFormat.encode 32 h' 0 = some (h', hb) ∧ d.Sees hb ∧ d' = d.skip 12 := by
  have hnear {n : Nat} (hn : n ≤ 12) : (d.skip n).bitpos ≤ 12 := by
    rw [IbCtx.skip_bitpos, hpos, Nat.zero_add]
    exact hn
  obtain ⟨tableId, d1, h1, h⟩ := bind_eq_ok.mp h
  obtain ⟨r, d2, h2, h⟩ := bind_eq_ok.mp h
  cases h
  obtain ⟨he1, hs1, rfl⟩ := field_ok (w := 8) le_rfl (hnear (Nat.zero_le _)) hl h1
  obtain ⟨sectionSyntaxIndicator, d1, h1, h⟩ := bind_eq_ok.mp h2
  obtain ⟨r, d2, h2, h⟩ := bind_eq_ok.mp h
  cases h
  obtain ⟨he2, hs2, rfl⟩ := field_ok (w := 1) (by decide) (hnear (by decide)) hl h1
  obtain ⟨⟨⟩, d1, h1, h⟩ := bind_eq_ok.mp h2
  obtain ⟨⟨⟩, d2, h2, h⟩ := bind_eq_ok.mp h
  cases h
  obtain ⟨he3, hs3, rfl⟩ := required_ok (w := 1) (by decide) (hnear (n := 9) (by decide)) hl h1
  obtain ⟨he4, hs4, rfl⟩ := required_ok (w := 2) (by decide) (hnear (n := 10) (by decide)) hl h2
  rw [← hpos]
  refine ⟨_, Encoder.pair_eq_some he1 (Encoder.pair_eq_some he2 (Encoder.pair_eq_some he3 he4)),
    IbCtx.Sees.append_iff.mpr ⟨hs1, IbCtx.Sees.append_iff.mpr ⟨hs2, IbCtx.Sees.append_iff.mpr ⟨hs3, hs4⟩⟩⟩, rfl⟩

/-- The block of a section that is accepted stands in the buffer, with the checksum of what stands
in front of it. -/
theorem block_accepts {d1 d2 d3 d4 : IbCtx} {u : Unit} (hpos : d.bitpos = 12) (hl : d.bitlimit < 2^32)
    (hbegin : Iox.namedBlockBegin (m := .parseBinary) 12 (dvbInfo "section_length") d = .ok u d1)
    (hbody : bodyFormat.io (m := .parseBinary) values fuel v0 d1 = .ok v d2)
    (hcrc : Iox.crcIo 0 (m := .parseBinary) crc0 (dvbInfo "CRC") d2 = .ok crc d3)
    (hend : Iox.namedBlockEnd (m := .parseBinary) (dvbInfo "section_length") d3 = .ok n d4) :
    ∃ bb, bodyFormat.encode 32 v 24 = some (v, bb) ∧ bb.length + 32 = 8 * n ∧ n < 2^12 ∧
      d.Sees (ofNat 12 n ++ (bb ++ ofNat 32 crc.toNat)) ∧ dvbCrc32 (d.data.read 0 (n - 1)) = crc ∧
      d4 = d.skip (12 + 8 * n) := by
  obtain ⟨k, hk, hread, -, hroom, rfl⟩ := ibx_namedBlockBegin_ok (by decide) (by omega) hbegin
  have hpos1 : ((d.skip 12).enter k (dvbInfo "section_length")).bitpos = 24 := by
    show d.bitpos + 12 = 24
    omega
  have hgood : ((d.skip 12).enter k (dvbInfo "section_length")).Good :=
    ⟨Nat.le_add_right _ _, show d.bitpos + 12 + 8 * k ≤ 2^31 by omega⟩
  obtain ⟨hal, bb, henc, hs3, rfl⟩ := Format.accepts values fuel bodyFormat_wf bodyFormat_aligned v0 (by decide) _ v d2 hgood
    (by rw [hpos1]) hbody
  rw [hpos1] at henc
  rw [crcIo_apply rfl hal] at hcrc
  obtain ⟨crc', d6, h32, hcrc⟩ := bind_eq_ok.mp hcrc
  obtain ⟨-, hs4, rfl⟩ := ibx_uint32_ok (hs3.right_good hgood) (by decide) (by omega) h32
  split at hcrc
  · cases hcrc
  · next hsum =>
    cases hcrc
    have hinside : d.bitpos + 12 + bb.length + 32 ≤ d.bitpos + 12 + 8 * k := by
      have hroom4 := hs4.room
      rwa [length_ofNat] at hroom4
    rw [IbCtx.skip_skip] at hend
    obtain ⟨hsize, rfl, rfl⟩ := ibx_blockEnd_ok (by omega) (by omega) hend
    have hlength : sub32 (((d.skip 12).enter n (dvbInfo "section_length")).skip bb.length).bitpos 0 / 8 = n - 1 := by
      rw [sub32_of_le (Nat.zero_le _) (by rw [IbCtx.skip_bitpos]; omega), IbCtx.skip_bitpos, hpos1]
      omega
    rw [hlength] at hsum
    refine ⟨bb, henc, hsize, hk, ?_, not_not.mp hsum, rfl⟩
    refine IbCtx.Sees.append_iff.mpr ⟨⟨?_, ?_, hl⟩, ?_⟩
    · rw [length_ofNat, hread]
    · rw [length_ofNat]
      omega
    · rw [length_ofNat]
      refine IbCtx.Sees.append_iff.mpr ⟨⟨hs3.stands, ?_, hl⟩, ⟨hs4.stands, ?_, hl⟩⟩
      · show d.bitpos + 12 + bb.length ≤ d.bitlimit
        omega
      · rw [length_ofNat]
        show d.bitpos + 12 + bb.length + 32 ≤ d.bitlimit
        omega

theorem formatIo_accepts {t : NetworkInformationSection} (hpos : d.bitpos = 0) (hl : d.bitlimit < 2^32)
    (h : formatIo (m := .parseBinary) values fuel h0 v0 length crc0 d = .ok t d') :
    length ≤ 1021 ∧ ∃ h v n bytes, Encodes h v v n bytes ∧ d.Sees (ofBytes (checked bytes)) ∧
      t = ofValue h v (UInt16.ofNat n) (dvbCrc32 bytes) := by
  obtain ⟨nitBegin, d0, hstart, h⟩ := bind_eq_ok.mp h
  cases hstart
  obtain ⟨h1, d1, hhead, h⟩ := bind_eq_ok.mp h
  obtain ⟨hb, henc, hs1, rfl⟩ := head_ok hpos hl hhead
  obtain ⟨u, d2, hbegin, h⟩ := bind_eq_ok.mp h
  have hguard : ¬ (Mode.parseBinary.isParsing = true ∧ length > 1021) := fun hguard => by
    rw [if_pos hguard] at h
    cases h
  rw [if_neg hguard] at h
  obtain ⟨v, d3, hbody, h⟩ := bind_eq_ok.mp h
  obtain ⟨crcPos, d4, hcrcPos, h⟩ := bind_eq_ok.mp h
  cases hcrcPos
  obtain ⟨crc, d5, hcrc, h⟩ := bind_eq_ok.mp h
  obtain ⟨n, d6, hend, h⟩ := bind_eq_ok.mp h
  rw [hpos] at hcrc h
  obtain ⟨bb, hbb, hsize, hn, hs2, hsum, rfl⟩ := block_accepts (d := d.skip 12) (by rw [IbCtx.skip_bitpos, hpos]) hl hbegin
    hbody hcrc hend
  rw [bind_ok (crcLateFix_apply (by decide) rfl rfl (by rw [IbCtx.skip_bitpos, IbCtx.skip_bitpos]; omega)),
    if_neg fun hguard => absurd hguard.1 (by decide)] at h
  cases h
  have h12 := head_length henc
  have hsees : d.Sees ((hb ++ (ofNat 12 n ++ bb)) ++ ofNat 32 crc.toNat) := by
    rw [List.append_assoc, List.append_assoc, IbCtx.Sees.append_iff, h12]
    exact ⟨hs1, hs2⟩
  have hfront : ofBytes (d.data.read 0 (n - 1)) = hb ++ (ofNat 12 n ++ bb) := by
    have hbytes := IbCtx.next_bytes (d := d) (by omega) (n - 1)
    have hstands := hsees.left.stands
    rw [List.length_append, List.length_append, length_ofNat, h12, show 12 + (12 + bb.length) = 8 * (n - 1) by omega, hbytes,
      hpos] at hstands
    exact hstands
  obtain rfl : dvbCrc32 (d.data.read 0 (n - 1)) = crc := hsum
  refine ⟨UInt16.not_lt.mp fun hlt => hguard ⟨rfl, hlt⟩, h1, v, n, d.data.read 0 (n - 1),
    ⟨hb, bb, henc, hbb, hsize, hn, hfront⟩, ?_, rfl⟩
  rw [ofBytes_checked, hfront]
  exact hsees

end Parsing

end NetworkInformationSection

end Mopa.Dvb
