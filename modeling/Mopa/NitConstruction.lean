import Mopa.NitSection

/-! Construction of sections: what is at the front of the buffer in the end is the section
with its checksum. -/
namespace Mopa.Dvb
open Io Bits Outcome

/-- From this context the program succeeds exactly when the bits fit, and writes them. -/
def Puts {α : Type} (x : Obx α) (a : α) (bits : List Bool) (c : ObCtx) : Prop :=
  ∀ b c', x c = .ok b c' ↔ c.bitpos + bits.length ≤ c.bitlimit ∧ b = a ∧ c' = c.emit bits

namespace Puts
variable {α β : Type} {x : Obx α} {a : α} {bits as bs : List Bool} {c : ObCtx}

protected theorem pure (a : α) (hc : c.bitpos ≤ c.bitlimit) : Puts (pure a) a [] c := fun b c' => by
  rw [pure_eq_ok, ObCtx.emit_nil]
  exact ⟨fun h => ⟨hc, h.1.symm, h.2.symm⟩, fun h => ⟨h.2.1.symm, h.2.2.symm⟩⟩

protected theorem bind {f : α → Obx β} {b : β} (hx : Puts x a as c)
    (hf : c.bitpos + as.length ≤ c.bitlimit → Puts (f a) b bs (c.emit as)) : Puts (x >>= f) b (as ++ bs) c := fun b' c' => by
  rw [bind_eq_ok, List.length_append, ← Nat.add_assoc, ObCtx.emit_append]
  constructor
  · rintro ⟨a', c1, h1, h2⟩
    obtain ⟨hfit, rfl, rfl⟩ := (hx _ _).mp h1
    exact (hf hfit b' c').mp h2
  · rintro ⟨hfit, h⟩
    have hfirst : c.bitpos + as.length ≤ c.bitlimit := by omega
    exact ⟨a, c.emit as, (hx _ _).mpr ⟨hfirst, rfl, rfl⟩, (hf hfirst b' c').mpr ⟨hfit, h⟩⟩

theorem bind_pure {f : α → Obx β} {b : β} (hx : Puts x a bits c) (hf : f a = pure b) : Puts (x >>= f) b bits c := by
  have h := hx.bind fun hfit => (hf ▸ Puts.pure b hfit : Puts (f a) b [] (c.emit bits))
  rwa [List.append_nil] at h

theorem pair {y : Obx β} {b : β} (hx : Puts x a as c) (hy : Puts y b bs (c.emit as)) :
    Puts (do
      let a ← x
      let b ← y
      return (a, b)) (a, b) (as ++ bs) c := hx.bind fun _ => hy.bind_pure rfl

theorem uint8 {w : Nat} {val : UInt8} (info : Info) (hw : w ≤ 8) (hv : val.toNat < 2^w) (hc : c.bitpos + w < 2^32) :
    Puts (Iox.uint8 (m := .constructBinary) w val info) val (ofNat w val.toNat) c := by
  have hu : u32 (c.bitpos + w) = c.bitpos + w := u32_of_lt hc
  have hput : c.nocheckUint8 w val = c.emit (ofNat w val.toNat) :=
    ObCtx.eq_emit (by rw [length_ofNat]; exact hu) rfl rfl (nocheckUint8_write c w val hw hv)
  intro b c'
  rw [length_ofNat, ← hput]
  show (Obx.uint8 w val info >>= fun _ => pure val) c = _ ↔ _
  by_cases hfit : c.bitpos + w ≤ c.bitlimit
  · have hrun : Obx.uint8 w val info c = .ok () (c.nocheckUint8 w val) := if_neg (by omega)
    rw [bind_ok hrun, pure_eq_ok]
    exact ⟨fun h => ⟨hfit, h.1.symm, h.2.symm⟩, fun h => ⟨h.2.1.symm, h.2.2.symm⟩⟩
  · have hrun : Obx.uint8 w val info c = _ := if_pos (by omega)
    rw [bind_error hrun]
    exact ⟨nofun, fun h => absurd h.1 hfit⟩

theorem required {w : Nat} {val : UInt8} (info : Info) (hw : w ≤ 8) (hv : val.toNat < 2^w) (hc : c.bitpos + w < 2^32) :
    Puts (Iox.require (m := .constructBinary) (fun v => Iox.uint8 w v info) val info) () (ofNat w val.toNat) c := by
  exact (uint8 info hw hv hc).bind_pure (if_neg fun h => by cases h.1)

end Puts

theorem exists_bytes {s : List Bool} {n : Nat} (h : s.length = 8 * n) : ∃ bytes, ofBytes bytes = s := by
  refine ⟨(toMemory (Memory.write (fun _ => false) 0 s)).read 0 n, ?_⟩
  rw [← ofMemory_read, ofMemory_toMemory, ← h]
  exact Memory.read_write_same _ _ _

section Checksums
variable {c c' : ObCtx} {info : Info} {crc crc' : UInt32}

theorem crcIo_construct (hc : c.bitpos % 8 = 0) : Iox.crcIo 0 (m := .constructBinary) crc info c =
    (Obx.uint32 32 (dvbCrc32 (c.data.read 0 (sub32 c.bitpos 0 / 8))) info >>= fun _ =>
      pure (dvbCrc32 (c.data.read 0 (sub32 c.bitpos 0 / 8)))) c :=
  (bind_ok (crcAligned_ok rfl rfl hc)).trans (get_bind _ c)

theorem crcIo_writes (crc : UInt32) (info : Info) (hc : c.bitpos % 8 = 0) (hfit : c.bitpos + 32 ≤ c.bitlimit) (hl : c.bitlimit < 2^32) :
    ∃ crc', Iox.crcIo 0 (m := .constructBinary) crc info c = .ok crc' (c.emit (ofNat 32 crc'.toNat)) := by
  rw [crcIo_construct hc]
  generalize dvbCrc32 (c.data.read 0 (sub32 c.bitpos 0 / 8)) = crc'
  exact ⟨crc', bind_ok (obx_uint32_ok info (by decide) crc'.toNat_lt hfit hl (by omega))⟩

theorem crcIo_ok (h : Iox.crcIo 0 (m := .constructBinary) crc info c = .ok crc' c') :
    c.bitpos % 8 = 0 ∧ c'.scopeStack = c.scopeStack ∧ c'.bitlimit = c.bitlimit ∧ c'.bitpos = u32 (c.bitpos + 32) ∧
      c'.bitpos ≤ c.bitlimit := by
  by_cases hc : c.bitpos % 8 = 0
  · rw [crcIo_construct hc] at h
    obtain ⟨u, c1, h32, hpure⟩ := bind_eq_ok.mp h
    obtain ⟨-, rfl⟩ := pure_eq_ok.mp hpure
    obtain ⟨hstack, hlimit, hpos, hroom⟩ := obx_uint32_frame h32
    exact ⟨hc, hstack, hlimit, hpos, hroom⟩
  · obtain ⟨u, c1, haligned, -⟩ := bind_eq_ok.mp h
    obtain ⟨p, c2, hp, haligned⟩ := bind_eq_ok.mp haligned
    cases hp
    rw [if_pos hc] at haligned
    cases haligned

theorem emit_again {as bs : List Bool} (h : as.length = bs.length) :
    { c.emit as with bitpos := c.bitpos }.emit bs = c.emit bs := by
  refine ObCtx.eq_emit rfl rfl rfl ?_
  rw [ObCtx.emit_data]
  show (ofMemory (c.emit as).data).write c.bitpos bs = _
  rw [ObCtx.emit_data, Memory.write_write _ _ _ _ h]

theorem crcLateFix_construct (crc : UInt32) (info : Info) {bytes : List UInt8} {as : List Bool} (hpos : c.bitpos = 8 * bytes.length)
    (hdata : c.data.read 0 bytes.length = bytes) (has : as.length = 32) (hfit : c.bitpos + 32 ≤ c.bitlimit)
    (hl : c.bitlimit < 2^32) : Iox.crcLateFix 0 c.bitpos (m := .constructBinary) crc info (c.emit as) =
      .ok (dvbCrc32 bytes) (c.emit (ofNat 32 (dvbCrc32 bytes).toNat)) := by
  have haligned : (c.emit as).bitpos % 8 = 0 := by
    rw [ObCtx.emit_bitpos]
    omega
  have hread : (c.emit as).data.read 0 (sub32 c.bitpos 0 / 8) = bytes := by
    have hlength : sub32 c.bitpos 0 / 8 = bytes.length := by
      rw [sub32_of_le (Nat.zero_le _) (by omega)]
      omega
    rw [hlength]
    refine ofBytes_inj ?_
    rw [← ofMemory_read, ObCtx.emit_data, Memory.read_write_disjoint _ _ _ _ _ (Or.inl (by omega)), ofMemory_read, hdata]
  have hwrite : Obx.uint32 32 (dvbCrc32 bytes) info { c.emit as with bitpos := c.bitpos } =
      .ok () (c.emit (ofNat 32 (dvbCrc32 bytes).toNat)) := by
    rw [← emit_again (c := c) (has.trans (length_ofNat _ _).symm)]
    exact obx_uint32_ok info (by decide) (dvbCrc32 bytes).toNat_lt hfit hl (show c.bitpos % 8 + 32 ≤ 32 by omega)
  refine (bind_ok (crcAligned_ok rfl rfl haligned)).trans ((get_bind _ _).trans ?_)
  rw [Nat.zero_div, hread]
  refine (bind_ok rfl).trans ((bind_ok hwrite).trans ((bind_ok rfl).trans ?_))
  refine congrArg (EStateM.Result.ok _) ?_
  show { c.emit (ofNat 32 (dvbCrc32 bytes).toNat) with bitpos := (c.emit as).bitpos } = _
  rw [ObCtx.emit_bitpos, has, show c.bitpos + 32 = (c.emit (ofNat 32 (dvbCrc32 bytes).toNat)).bitpos by
    rw [ObCtx.emit_bitpos, length_ofNat]]

end Checksums

namespace NetworkInformationSection

section Construction
variable {values : (f : Format) → f.Value} {fuel : Nat} {h : headFormat.Value} {v v' : bodyFormat.Value} {length : UInt16}
  {crc0 : UInt32} {n : Nat} {bytes : List UInt8} {t : NetworkInformationSection} {c c' : ObCtx}

theorem head_puts (hfits : headFormat.Fits h) (hpos : c.bitpos = 0) : ∃ hb, headFormat.encode 32 h 0 = some (h, hb) ∧
    Puts (headFormat.io (m := .constructBinary) values fuel h) h hb c := by
  obtain ⟨tableId, sectionSyntaxIndicator, ⟨⟩, ⟨⟩⟩ := h
  obtain ⟨htable, hindicator, -, -⟩ := hfits
  have hfield {w : Nat} {val : UInt8} {info : Info} {p : Nat} (hv : val.toNat < 2^w) :
      (Format.uint .uint8 w info).encode 32 val p = some (val, ofNat w val.toNat) :=
    Format.encodeUint_eq_some.mpr ⟨rfl, ⟨hv, nofun⟩, rfl⟩
  have hrequired {w : Nat} {val : UInt8} {info : Info} {p : Nat} (hv : val.toNat < 2^w) :
      (Format.required .uint8 w val info).encode 32 () p = some ((), ofNat w val.toNat) :=
    Encoder.bind_eq_some.mpr ⟨val, _, [], Format.encodeUint_eq_some.mpr ⟨rfl, ⟨hv, nofun⟩, rfl⟩, rfl, (List.append_nil _).symm⟩
  have hnear {bits : List Bool} {m : Nat} (hm : bits.length + m ≤ 12) : (c.emit bits).bitpos + m < 2^32 := by
    rw [ObCtx.emit_bitpos]
    omega
  refine ⟨_, Encoder.pair_eq_some (hfield htable) (Encoder.pair_eq_some (hfield hindicator)
    (Encoder.pair_eq_some (hrequired (by decide)) (hrequired (by decide)))), ?_⟩
  refine .pair (.uint8 _ le_rfl htable (by omega)) (.pair (.uint8 _ (by decide) hindicator ?_)
    (.pair (.required _ (by decide) (by decide) ?_) (.required _ (by decide) (by decide) ?_)))
  · exact hnear (by rw [length_ofNat]; decide)
  · rw [← ObCtx.emit_append]
    exact hnear (by rw [List.length_append, length_ofNat, length_ofNat]; decide)
  · rw [← ObCtx.emit_append, ← ObCtx.emit_append]
    exact hnear (by rw [List.length_append, List.length_append, length_ofNat, length_ofNat, length_ofNat])

theorem enter_section (hpos : c.bitpos = 12) :
    (c.enter 12 (dvbInfo "section_length")).bitpos = 24 ∧
      (c.enter 12 (dvbInfo "section_length")).bitlimit = min c.bitlimit (24 + 8 * 4095) := by
  unfold ObCtx.enter
  rw [hpos]
  exact ⟨rfl, rfl⟩

section Block
variable {c1 c2 c3 c4 : ObCtx} {crc1 : UInt32} {u : Unit} {bb : List Bool}

theorem block_writes (values : (f : Format) → f.Value) (fuel : Nat) (crc0 : UInt32)
    (hbody : bodyFormat.encode 32 v 24 = some (v', bb)) (hsize : bb.length + 32 = 8 * n) (hn : n < 2^12)
    (hpos : c.bitpos = 12) (hroom : 8 * (3 + n) ≤ c.bitlimit) (hl : c.bitlimit < 2^32) : ∃ c1 c2 c3 crc1,
      Iox.namedBlockBegin (m := .constructBinary) 12 (dvbInfo "section_length") c = .ok () c1 ∧
      bodyFormat.io (m := .constructBinary) values fuel v c1 = .ok v' c2 ∧ c2.bitpos = 24 + bb.length ∧
      Iox.crcIo 0 (m := .constructBinary) crc0 (dvbInfo "CRC") c2 = .ok crc1 c3 ∧
      Iox.namedBlockEnd (m := .constructBinary) (dvbInfo "section_length") c3 =
        .ok n (c.emit (ofNat 12 n ++ (bb ++ ofNat 32 crc1.toNat))) := by
  obtain ⟨hpos1, hlimit1⟩ := enter_section hpos
  have hpos2 : ((c.enter 12 (dvbInfo "section_length")).emit bb).bitpos = 24 + bb.length := by
    rw [ObCtx.emit_bitpos, hpos1]
  have hlimit2 : ((c.enter 12 (dvbInfo "section_length")).emit bb).bitlimit = min c.bitlimit (24 + 8 * 4095) := hlimit1
  obtain ⟨crc1, hcrc⟩ := crcIo_writes crc0 (dvbInfo "CRC")
    (c := (c.enter 12 (dvbInfo "section_length")).emit bb) (by omega) (by omega) (by omega)
  rw [← ObCtx.emit_append] at hcrc
  have hlength : (bb ++ ofNat 32 crc1.toNat).length = 8 * n := by rw [List.length_append, length_ofNat, hsize]
  have hroom3 : (c.enter 12 (dvbInfo "section_length")).bitpos + (bb ++ ofNat 32 crc1.toNat).length ≤
      (c.enter 12 (dvbInfo "section_length")).bitlimit := by omega
  have hclose := obx_namedBlockEnd_close hl (by decide) (by decide) (dvbInfo "section_length") (dvbInfo "section_length")
    (show c.bitpos + 12 ≤ c.bitlimit by omega) (by omega) hroom3 (by omega)
  rw [hlength, Nat.mul_div_cancel_left n (by decide)] at hclose
  refine ⟨_, _, _, crc1, obx_namedBlockBegin_enter (dvbInfo "section_length") hl (by omega) (by omega)
    (by omega), ?_, hpos2, hcrc, hclose⟩
  exact (Format.writes values fuel bodyFormat_wf (Format.fits_of_encode bodyFormat_wf hbody)
    (by decide : 2^30 ≤ highTop)).ok ⟨by omega, by omega⟩
    (hpos1.symm ▸ hbody) (by omega)

theorem block_room (hfits : bodyFormat.Fits v) (hpos : c.bitpos = 12)
    (hbegin : Iox.namedBlockBegin (m := .constructBinary) 12 (dvbInfo "section_length") c = .ok u c1)
    (hbody : bodyFormat.io (m := .constructBinary) values fuel v c1 = .ok v' c2)
    (hcrc : Iox.crcIo 0 (m := .constructBinary) crc0 (dvbInfo "CRC") c2 = .ok crc1 c3)
    (hend : Iox.namedBlockEnd (m := .constructBinary) (dvbInfo "section_length") c3 = .ok n c4) : 24 ≤ c.bitlimit := by
  by_contra hover
  have hbegin : Obx.namedBlockBegin 12 (dvbInfo "section_length") c = .ok u c1 := hbegin
  rw [obx_namedBlockBegin_apply, hpos, if_neg (by decide)] at hbegin
  cases hbegin
  have hstack := (crcIo_ok hcrc).2.1.trans ((Format.writes values fuel bodyFormat_wf hfits (by decide : 2^30 ≤ highTop)).balanced _ _ _ hbody).1
  refine not_fails_of_ok hend (obx_namedBlockEnd_fails hstack ?_)
  have h24 : u32 (12 + sub32 (u32 (12 + 12)) 12) = 24 := by decide
  show u32 (12 + sub32 (u32 (12 + 12)) 12) > c.bitlimit
  omega

theorem block_ok (hfits : bodyFormat.Fits v) (hpos : c.bitpos = 12) (hl : c.bitlimit < 2^32)
    (hbegin : Iox.namedBlockBegin (m := .constructBinary) 12 (dvbInfo "section_length") c = .ok u c1)
    (hbody : bodyFormat.io (m := .constructBinary) values fuel v c1 = .ok v' c2)
    (hcrc : Iox.crcIo 0 (m := .constructBinary) crc0 (dvbInfo "CRC") c2 = .ok crc1 c3)
    (hend : Iox.namedBlockEnd (m := .constructBinary) (dvbInfo "section_length") c3 = .ok n c4) :
    ∃ bb, bodyFormat.encode 32 v 24 = some (v', bb) ∧ bb.length + 32 = 8 * n ∧ n < 2^12 ∧ 8 * (3 + n) ≤ c.bitlimit := by
  have hroom := block_room hfits hpos hbegin hbody hcrc hend
  obtain ⟨hpos1, hlimit1⟩ := enter_section hpos
  have henter : Iox.namedBlockBegin (m := .constructBinary) 12 (dvbInfo "section_length") c =
      .ok () (c.enter 12 (dvbInfo "section_length")) :=
    obx_namedBlockBegin_enter (dvbInfo "section_length") hl (by omega) (by omega) (by omega)
  cases hbegin.symm.trans henter
  obtain ⟨bb, hbb, hfit, rfl⟩ := (Format.writes values fuel bodyFormat_wf hfits (by decide : 2^30 ≤ highTop)).of_ok ⟨by omega, by omega⟩ hbody
  have hpos2 : ((c.enter 12 (dvbInfo "section_length")).emit bb).bitpos = 24 + bb.length := by
    rw [ObCtx.emit_bitpos, hpos1]
  have hlimit2 : ((c.enter 12 (dvbInfo "section_length")).emit bb).bitlimit = min c.bitlimit (24 + 8 * 4095) := hlimit1
  obtain ⟨hal, -, -, hpos3, hroom2⟩ := crcIo_ok hcrc
  rw [hpos3, u32_of_lt (by omega)] at hroom2
  obtain ⟨crc', hcrc'⟩ := crcIo_writes crc0 (dvbInfo "CRC") hal hroom2 (by omega)
  cases hcrc.symm.trans hcrc'
  have hlength : (bb ++ ofNat 32 crc1.toNat).length = bb.length + 32 := by rw [List.length_append, length_ofNat]
  have hroom3 : (c.enter 12 (dvbInfo "section_length")).bitpos + (bb ++ ofNat 32 crc1.toNat).length ≤
      (c.enter 12 (dvbInfo "section_length")).bitlimit := by omega
  have hclose := obx_namedBlockEnd_close hl (by decide) (by decide) (dvbInfo "section_length") (dvbInfo "section_length")
    (show c.bitpos + 12 ≤ c.bitlimit by omega) (by omega) hroom3 (by omega)
  rw [ObCtx.emit_append] at hclose
  have hlength' := (EStateM.Result.ok.inj (hend.symm.trans hclose)).1
  rw [hpos1] at hbb
  exact ⟨bb, hbb, by omega, by omega, by omega⟩

end Block

theorem formatIo_writes (he : Encodes h v v' n bytes) (hsmall : n ≤ 1021) (hpos : c.bitpos = 0) (hroom : 8 * (3 + n) ≤ c.bitlimit)
    (hl : c.bitlimit < 2^32) : formatIo (m := .constructBinary) values fuel h v length crc0 c =
      .ok (ofValue h v' (UInt16.ofNat n) (dvbCrc32 bytes)) (c.emit (ofBytes (checked bytes))) := by
  have hlength := he.length
  obtain ⟨hb, bb, hhead, hbody, hsize, hn, hbytes⟩ := he
  have h12 := head_length hhead
  have hhead : headFormat.io (m := .constructBinary) values fuel h c = .ok h (c.emit hb) := by
    obtain ⟨hb', hhead', hput⟩ := head_puts (Format.fits_of_encode headFormat_wf hhead) hpos
    obtain rfl : hb = hb' := (Prod.mk.inj (Option.some.inj (hhead.symm.trans hhead'))).2
    exact (hput h (c.emit hb)).mpr ⟨by omega, rfl, rfl⟩
  obtain ⟨c1, c2, c3, crc1, hbegin, hbody, hpos2, hcrc, hend⟩ := block_writes values fuel crc0 hbody hsize hn (c := c.emit hb)
    (by rw [ObCtx.emit_bitpos, hpos, h12]) hroom hl
  rw [← ObCtx.emit_append, ← List.append_assoc, ← List.append_assoc, List.append_assoc hb, ← hbytes, ObCtx.emit_append] at hend
  have hfix : Iox.crcLateFix 0 (24 + bb.length) (m := .constructBinary) crc1 (dvbInfo "CRC")
      ((c.emit (ofBytes bytes)).emit (ofNat 32 crc1.toNat)) = .ok (dvbCrc32 bytes) (c.emit (ofBytes (checked bytes))) := by
    have hpos4 : (c.emit (ofBytes bytes)).bitpos = 8 * bytes.length := by
      rw [ObCtx.emit_bitpos, hpos, length_ofBytes, Nat.zero_add]
    have hdata : (c.emit (ofBytes bytes)).data.read 0 bytes.length = bytes := by
      refine ofBytes_inj ?_
      rw [← ofMemory_read, ObCtx.emit_data, hpos, ← length_ofBytes]
      exact Memory.read_write_same _ _ _
    have hfix := crcLateFix_construct crc1 (dvbInfo "CRC") hpos4 hdata (length_ofNat 32 crc1.toNat)
      (show (c.emit (ofBytes bytes)).bitpos + 32 ≤ c.bitlimit by omega) hl
    rwa [show (c.emit (ofBytes bytes)).bitpos = 24 + bb.length by omega,
      ← ObCtx.emit_append c _ (ofNat 32 (dvbCrc32 bytes).toNat), ← ofBytes_checked] at hfix
  have hstart : Iox.bitpos (m := .constructBinary) c = .ok 0 c := congrArg (EStateM.Result.ok · c) hpos
  have hcrcPos : Iox.bitpos (m := .constructBinary) c2 = .ok (24 + bb.length) c2 := congrArg (EStateM.Result.ok · c2) hpos2
  refine (bind_ok hstart).trans ((bind_ok hhead).trans ((bind_ok hbegin).trans ?_))
  rw [if_neg fun hguard => by cases hguard.1]
  refine (bind_ok hbody).trans ((bind_ok hcrcPos).trans ((bind_ok hcrc).trans ((bind_ok hend).trans ((bind_ok hfix).trans ?_))))
  refine congrFun (if_neg fun hguard => ?_) _
  have hlong : 1021 < n % 65536 := hguard.2
  omega

theorem formatIo_encodes (hfh : headFormat.Fits h) (hfv : bodyFormat.Fits v) (hpos : c.bitpos = 0) (hl : c.bitlimit < 2^32)
    (hrun : formatIo (m := .constructBinary) values fuel h v length crc0 c = .ok t c') :
    ∃ v' n bytes, Encodes h v v' n bytes ∧ n ≤ 1021 ∧ 8 * (3 + n) ≤ c.bitlimit := by
  obtain ⟨hb, hhead, hput⟩ := head_puts hfh hpos
  have h12 := head_length hhead
  obtain ⟨nitBegin, c0, hstart, hrun⟩ := bind_eq_ok.mp hrun
  cases hstart
  obtain ⟨h1, c1, hhead1, hrun⟩ := bind_eq_ok.mp hrun
  obtain ⟨-, rfl, rfl⟩ := (hput _ _).mp hhead1
  obtain ⟨u, c2, hbegin, hrun⟩ := bind_eq_ok.mp hrun
  rw [if_neg fun hguard => by cases hguard.1] at hrun
  obtain ⟨v', c3, hbody, hrun⟩ := bind_eq_ok.mp hrun
  obtain ⟨crcPos, c4, hcrcPos, hrun⟩ := bind_eq_ok.mp hrun
  cases hcrcPos
  obtain ⟨crc1, c5, hcrc, hrun⟩ := bind_eq_ok.mp hrun
  obtain ⟨n, c6, hend, hrun⟩ := bind_eq_ok.mp hrun
  obtain ⟨crc2, c7, -, hrun⟩ := bind_eq_ok.mp hrun
  rw [hpos] at hcrc
  have hpos1 : (c.emit hb).bitpos = 12 := by rw [ObCtx.emit_bitpos, hpos, h12]
  obtain ⟨bb, hbb, hsize, hn, hroom⟩ := block_ok hfv hpos1 hl hbegin hbody hcrc hend
  have hsmall : n ≤ 1021 := by
    by_contra hlong
    have hlong' : 1021 < n % 65536 := by omega
    rw [if_pos ⟨rfl, hlong'⟩] at hrun
    cases hrun
  obtain ⟨bytes, hbytes⟩ := exists_bytes (n := n - 1) (s := hb ++ (ofNat 12 n ++ bb))
    (by rw [List.length_append, List.length_append, length_ofNat]; omega)
  exact ⟨v', n, bytes, ⟨hb, bb, hhead, hbb, hsize, hn, hbytes⟩, hsmall, hroom⟩

end Construction

end NetworkInformationSection

end Mopa.Dvb
