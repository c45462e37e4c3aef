import Mopa.NitFormat
import Mopa.BinaryProgress
import Mopa.TextProgress

/-! Parsing network information sections comes to an end on every input. -/
namespace Mopa.Dvb
open Io Outcome Progress

/-- The operation returns or throws: it does not run for ever, and in text mode it does not
read behind the zero that ends the text. -/
def Finishes {σ α : Type} : EStateM.Result Halt σ α → Prop
  | .ok .. => True
  | .error e _ => e.Thrown

section Prefixes
variable {m : Mode} (fresh : Fresh)

def TsSpecification.untilDescriptors (t : TsSpecification) : Iox m Unit := do
  let _ ← Iox.uint16 16 t.transportStreamId (dvbInfo "transport_stream_id")
  let _ ← Iox.uint16 16 t.originalNetworkId (dvbInfo "original_network_id")
  Iox.uintReq 4 0xf (dvbInfo "reserved_future_use")

/-- The loop over descriptors comes behind the fields in front. -/
def TsSpecification.SplitsAtLoop (m : Mode) (fresh : Fresh) (t : TsSpecification) : Prop :=
  discard (io (m := m) fresh t) = (do
    t.untilDescriptors
    discard (Iox.namedBlock 12 (dvbInfo "transport_descriptors_length") (dvbInfo "transport_descriptors")
      (descriptorVectorIo fresh.fuel fresh.service t.transportDescriptors)))

theorem TsSpecification.splitsAtLoop (t : TsSpecification) : t.SplitsAtLoop m fresh := by
  simp [SplitsAtLoop, io, untilDescriptors, discard, map_const]

/-- The loop over services comes behind the tag and the length. -/
def Descriptor.SplitsAtLoop (m : Mode) (fresh : Fresh) : Prop :=
  ∃ rest : UInt8 → Iox m Unit, discard (readAhead (m := m) fresh.fuel fresh.service) = (do
    let tag ← Iox.uint8 8 0 (dvbInfo "tag")
    if tag = 0x41 then
      discard (Iox.namedBlock 8 (dvbInfo "length") (dvbInfo "descriptor_content")
        (Iox.vectorIo fresh.fuel fresh.service Service.io []))
    else rest tag)

theorem Descriptor.splitsAtLoop (hm : m.isParsing = true) : SplitsAtLoop m fresh := by
  refine ⟨fun tag => discard (io fresh.fuel fresh.service ⟨tag, 0, descriptorFactory tag⟩), ?_⟩
  have hbind : discard (readAhead (m := m) fresh.fuel fresh.service) = (do
      let tag ← Iox.uint8 8 0 (dvbInfo "tag")
      discard (io fresh.fuel fresh.service ⟨tag, 0, descriptorFactory tag⟩)) := by
    simp [readAhead, discard, map_const]
  rw [hbind]
  refine congrArg _ (funext fun tag => ?_)
  split
  · next htag => simp [htag, io, descriptorFactory, tagIo, hm, discard, map_const]
  · rfl

namespace NetworkInformationSection
variable (t : NetworkInformationSection)

def untilLength : Iox m Unit := do
  let _ ← Iox.uint8 8 t.tableId (dvbInfo "table_id")
  let _ ← Iox.uint8 1 t.sectionSyntaxIndicator (dvbInfo "section_syntax_indicator")
  Iox.uintReq 1 1 (dvbInfo "reserved_future_use")
  Iox.uintReq 2 0x3 (dvbInfo "reserved")

def untilNetworkDescriptors : Iox m Unit := do
  if m.isParsing ∧ t.sectionLength > 1021 then throwX (dvbInfo "section_length") "NIT size exceeds 1024"
  let _ ← Iox.uint16 16 t.networkId (dvbInfo "network_id")
  Iox.uintReq 2 0x3 (dvbInfo "reserved")
  let _ ← Iox.uint8 5 t.versionNumber (dvbInfo "version_number")
  let _ ← Iox.uint8 1 t.currentNextIndicator (dvbInfo "current_next_indicator")
  let _ ← Iox.uint8 8 t.sectionNumber (dvbInfo "section_number")
  let _ ← Iox.uint8 8 t.lastSectionNumber (dvbInfo "last_section_number")
  Iox.uintReq 4 0xf (dvbInfo "reserved_future_use")

def untilTsLoop : Iox m Unit := do
  let _ ← Iox.namedBlock 12 (dvbInfo "network_descriptors_length") (dvbInfo "network_descriptors_length")
    (descriptorVectorIo fresh.fuel fresh.service t.networkDescriptors)
  Iox.uintReq 4 0xf (dvbInfo "reserved_future_use")

/-- The loops come behind these parts. -/
def SplitsAtLoops (m : Mode) (fresh : Fresh) (t : NetworkInformationSection) : Prop :=
  ∃ rest : Nat → Iox m Unit, discard (io (m := m) fresh t) = (do
    let nitBegin ← Iox.bitpos
    t.untilLength
    Iox.namedBlockBegin 12 (dvbInfo "section_length")
    t.untilNetworkDescriptors
    t.untilTsLoop fresh
    discard (Iox.namedBlock 12 (dvbInfo "transport_stream_loop_length") (dvbInfo "transport_stream_loop_length")
      (Iox.vectorIo fresh.fuel { fresh.ts with transportDescriptors := [] } (TsSpecification.io fresh) t.tsLoop))
    rest nitBegin)

theorem splitsAtLoops : t.SplitsAtLoops m fresh := by
  refine ⟨fun nitBegin => do
    let crcPos ← Iox.bitpos
    let crc ← Iox.crcIo nitBegin t.crc (dvbInfo "CRC")
    let sectionLength := UInt16.ofNat (← Iox.namedBlockEnd (dvbInfo "section_length"))
    let _ ← Iox.crcLateFix nitBegin crcPos crc (dvbInfo "CRC")
    if m.isParsing = false ∧ sectionLength > 1021 then throwX (dvbInfo "section_length") "NIT size exceeds 1024", ?_⟩
  have hthrow {α : Type} {cond : Prop} [Decidable cond] {info : Info} {message : String} (f : PUnit → α) (a : α) :
      Function.const α PUnit.unit <$> (if cond then f <$> throwX info message else pure a : Iox m α) =
        if cond then throwX info message else pure () := by
    split <;> rfl
  by_cases hguard : m.isParsing ∧ t.sectionLength > 1021 <;>
    simp [io, untilNetworkDescriptors, untilLength, untilTsLoop, discard, map_const, hguard, hthrow]

end NetworkInformationSection

end Prefixes

section Turns
variable {m : Mode} (turn : Ctx m → Ctx m → Prop) (fresh : Fresh)

/-- Every turn of the loop over the services of a descriptor that is read from `c` on. -/
def Descriptor.EachTurn (c : Ctx m) : Prop :=
  ∀ tag c1, Iox.uint8 8 0 (dvbInfo "tag") c = .ok tag c1 → tag = 0x41 →
    ∀ u c2, Iox.namedBlockBegin 8 (dvbInfo "length") c1 = .ok u c2 →
      Iox.EachTurn turn (fun _ => True) (Service.io fresh.service) fresh.fuel c2

/-- Every turn of the loop over descriptors, and of the loops in it. -/
def descriptorVectorTurns (c : Ctx m) : Prop :=
  Iox.EachTurn turn (Descriptor.EachTurn turn fresh) (Descriptor.readAhead fresh.fuel fresh.service) fresh.fuel c

def TsSpecification.EachTurn (c : Ctx m) : Prop :=
  ∀ r c1, TsSpecification.untilDescriptors fresh.ts c = .ok r c1 →
    ∀ u c2, Iox.namedBlockBegin 12 (dvbInfo "transport_descriptors_length") c1 = .ok u c2 →
      descriptorVectorTurns turn fresh c2

/-- Every turn of every loop of `NetworkInformationSection.io`. -/
def NetworkInformationSection.EachTurn (t : NetworkInformationSection) (c : Ctx m) : Prop :=
  ∀ r c1, t.untilLength c = .ok r c1 →
    ∀ u c2, Iox.namedBlockBegin 12 (dvbInfo "section_length") c1 = .ok u c2 →
      ∀ r c3, t.untilNetworkDescriptors c2 = .ok r c3 →
        (∀ u c4, Iox.namedBlockBegin 12 (dvbInfo "network_descriptors_length") c3 = .ok u c4 →
          descriptorVectorTurns turn fresh c4) ∧
        ∀ r c4, t.untilTsLoop fresh c3 = .ok r c4 →
          ∀ u c5, Iox.namedBlockBegin 12 (dvbInfo "transport_stream_loop_length") c4 = .ok u c5 →
            Iox.EachTurn turn (TsSpecification.EachTurn turn fresh)
              (TsSpecification.io fresh { fresh.ts with transportDescriptors := [] }) fresh.fuel c5

end Turns

theorem dvbInfo_named {str : String} (h : 0 ∉ chars str) : (dvbInfo str).Named := h

theorem serviceFormat_named : serviceFormat.Named := ⟨dvbInfo_named (by decide), dvbInfo_named (by decide)⟩

theorem cableDeliverySystemFormat_named : cableDeliverySystemFormat.Named :=
  ⟨show Info.Named _ by decide, dvbInfo_named (by decide), dvbInfo_named (by decide), dvbInfo_named (by decide),
    dvbInfo_named (by decide), dvbInfo_named (by decide)⟩

theorem dataFormat_named : ∀ n, (dataFormat n).Named
  | 0 => trivial
  | _+1 => dvbInfo_named (by decide)

theorem DescriptorClass.format_named (k : DescriptorClass) : k.format.Named := by
  cases k with
  | adaptationFieldData => exact ⟨dvbInfo_named (by decide), dvbInfo_named (by decide)⟩
  | serviceList => exact ⟨dvbInfo_named (by decide), trivial, serviceFormat_named⟩
  | cableDeliverySystem => exact ⟨dvbInfo_named (by decide), cableDeliverySystemFormat_named⟩
  | unknown => exact ⟨dvbInfo_named (by decide), fun n => dataFormat_named n.toNat⟩

theorem descriptorFormat_named : descriptorFormat.Named :=
  ⟨dvbInfo_named (by decide), fun _ => DescriptorClass.format_named _⟩

theorem tsFormat_named : tsFormat.Named :=
  ⟨dvbInfo_named (by decide), dvbInfo_named (by decide), dvbInfo_named (by decide), dvbInfo_named (by decide), trivial,
    descriptorFormat_named⟩

section Items
variable {m : Mode} {P : Parsing m} {bound : Nat} {fresh : Fresh}

theorem uint_ends {p q w : Nat} (var : Variable) {val : var.Word} {str : String}
    (h : (1 ≤ w ∧ w ≤ var.width) ∧ var ≠ .uint32 ∧ 0 ∉ chars str ∧ q % 8 = (p + w) % 8) :
    P.Ends bound p q (fun _ => 1) (Iox.uint var w val (dvbInfo str)) := by
  obtain ⟨⟨h0, hw⟩, hvar, hn, hq⟩ := h
  exact Parsing.Ends.congr (P.uint var h0 hw (fun h => absurd h hvar) hn) rfl hq

theorem uintReq_ends {p q w val : Nat} {str : String} (h : (1 ≤ w ∧ w ≤ 8) ∧ 0 ∉ chars str ∧ q % 8 = (p + w) % 8) :
    P.Ends bound p q (fun _ => 1) (Iox.uintReq (m := m) w val (dvbInfo str)) := by
  obtain ⟨⟨h0, hw⟩, hn, hq⟩ := h
  rw [Iox.uintReq, if_pos hw]
  exact Parsing.Ends.congr (Parsing.require .uint8 h0 hw nofun hn) rfl hq

theorem Service.io_ends (s : Service) : P.Ends bound 0 0 (fun _ => 1) (Service.io (m := m) s) := by
  refine Progress.Ends.bind (uint_ends .uint16 (q := 0) (by decide)) fun _ => ?_
  exact Progress.Ends.bind (uint_ends .uint8 (q := 0) (by decide)) fun _ => .pure rfl

theorem Descriptor.readAhead_ends (hfuel : bound < fresh.fuel) :
    P.Ends bound 0 0 (fun _ => 1) (readAhead (m := m) fresh.fuel fresh.service) := by
  rw [readAhead_eq Format.zero fresh.fuel P.parsing fresh.service descriptorFormat.zero]
  refine (P.format_ends hfuel descriptorFormat_wf descriptorFormat_named descriptorFormat_aligned _).map fun v => ?_
  exact Nat.le_min.mpr ⟨le_rfl, (by decide : 1 ≤ 8).trans (Nat.le_add_right 8 _)⟩

theorem descriptorVectorIo_ends (hfuel : bound < fresh.fuel) (list : List Descriptor) :
    P.Ends bound 0 0 (fun _ => 0) (descriptorVectorIo (m := m) fresh.fuel fresh.service list) := by
  rw [descriptorVectorIo, if_pos P.parsing]
  exact Parsing.items (Descriptor.readAhead_ends hfuel) hfuel []

theorem TsSpecification.io_ends (hfuel : bound < fresh.fuel) (t : TsSpecification) :
    P.Ends bound 0 0 (fun _ => 1) (io (m := m) fresh t) := by
  refine Progress.Ends.bind (uint_ends .uint16 (q := 0) (by decide)) fun _ => ?_
  refine Progress.Ends.bind (uint_ends .uint16 (q := 0) (by decide)) fun _ => ?_
  refine Progress.Ends.bind (uintReq_ends (q := 4) (by decide)) fun _ => ?_
  refine Progress.Ends.bind (Parsing.namedBlock (by decide) (by decide) (dvbInfo_named (by decide))
    (Parsing.Ends.congr (descriptorVectorIo_ends hfuel _) rfl rfl)) fun _ => .pure rfl

theorem crcAligned_ends (startedAt : Nat) (info : Info) :
    P.Ends bound 0 0 (fun _ => 0) (Iox.crcAligned (m := m) startedAt info) := by
  unfold Iox.crcAligned
  exact Parsing.guarded (P.bitpos.bind fun _ => Parsing.throwIf)

theorem crcIo_ends (startedAt : Nat) (crc : UInt32) (info : Info) (hn : info.Named) :
    P.Ends bound 0 0 (fun _ => 0) (Iox.crcIo (m := m) startedAt crc info) := by
  have h32 (crc : UInt32) : P.Ends bound 0 0 (fun _ => 0) (Iox.uint32 (m := m) 32 crc info) :=
    Progress.Ends.mono (Parsing.Ends.congr (P.uint .uint32 (p := 0) (by decide) le_rfl (fun _ => by decide) hn) rfl
      rfl) fun _ => Nat.zero_le _
  have hm := P.parsing
  cases m with
  | parseBinary =>
    refine (crcAligned_ends startedAt info).bind fun _ => Progress.Ends.bind Parsing.get fun c => ?_
    exact Progress.Ends.bind (h32 crc) fun _ => Parsing.guarded (.pure rfl)
  | parseText => exact (crcAligned_ends startedAt info).bind fun _ => h32 crc
  | constructBinary => cases hm
  | constructText => cases hm

theorem crcLateFix_ends (startedAt crcPos : Nat) (crc : UInt32) (info : Info) :
    P.Ends bound 0 0 (fun _ => 0) (Iox.crcLateFix (m := m) startedAt crcPos crc info) := by
  have hm := P.parsing
  cases m with
  | parseBinary => exact (crcAligned_ends startedAt info).bind fun _ => .pure rfl
  | parseText => exact (crcAligned_ends startedAt info).bind fun _ => .pure rfl
  | constructBinary => cases hm
  | constructText => cases hm

theorem NetworkInformationSection.io_ends (hfuel : bound < fresh.fuel) (t : NetworkInformationSection) :
    P.Ends bound 0 0 (fun _ => 0) (io (m := m) fresh t) := by
  refine P.bitpos.bind fun nitBegin => ?_
  refine Progress.Ends.bind (uint_ends .uint8 (q := 8) (by decide)) fun _ => ?_
  refine Progress.Ends.bind (uint_ends .uint8 (q := 9) (by decide)) fun _ => ?_
  refine Progress.Ends.bind (uintReq_ends (q := 10) (by decide)) fun _ => ?_
  refine Progress.Ends.bind (uintReq_ends (q := 12) (by decide)) fun _ => ?_
  refine Parsing.blockBegin_bind (by decide) (by decide) (dvbInfo_named (by decide)) (.guarded ?_)
  refine .bind (uint_ends .uint16 (q := 40) (by decide)) fun _ => ?_
  refine .bind (uintReq_ends (q := 42) (by decide)) fun _ => ?_
  refine .bind (uint_ends .uint8 (q := 47) (by decide)) fun _ => ?_
  refine .bind (uint_ends .uint8 (q := 48) (by decide)) fun _ => ?_
  refine .bind (uint_ends .uint8 (q := 56) (by decide)) fun _ => ?_
  refine .bind (uint_ends .uint8 (q := 64) (by decide)) fun _ => ?_
  refine .bind (uintReq_ends (q := 68) (by decide)) fun _ => ?_
  refine .bind (Parsing.namedBlock (by decide) (by decide) (dvbInfo_named (by decide))
    (Parsing.Ends.congr (descriptorVectorIo_ends hfuel _) rfl rfl)) fun _ => ?_
  refine .bind (uintReq_ends (q := 4) (by decide)) fun _ => ?_
  refine .bind (Parsing.namedBlock (by decide) (by decide) (dvbInfo_named (by decide)) ?_) fun _ => ?_
  · rw [Iox.vectorIo, if_pos P.parsing]
    exact Parsing.Ends.congr (Parsing.items (TsSpecification.io_ends hfuel _) hfuel []) rfl rfl
  · refine .bind P.bitpos fun crcPos => .bind (crcIo_ends nitBegin t.crc _ (dvbInfo_named (by decide))) fun crc => ?_
    refine .close fun n => ?_
    refine Progress.Ends.bind (crcLateFix_ends nitBegin crcPos crc _) fun crc => ?_
    exact Parsing.guarded (.pure rfl)

end Items

section Loops
variable {m : Mode} (P : Parsing m) {turn : Ctx m → Ctx m → Prop} (hturn : ∀ c c', P.Turn c c' → turn c c') {bound : Nat}
  {fresh : Fresh} {c : Ctx m}
include hturn

theorem Descriptor.eachTurn (hc : P.rank.Valid 0 c) (hb : P.rank.left c ≤ bound) :
    Descriptor.EachTurn turn fresh c := by
  intro tag c1 h1 _ u c2 h2
  have htag : P.Ends bound 0 8 (fun _ => 1) (Iox.uint8 (m := m) 8 0 (dvbInfo "tag")) :=
    uint_ends .uint8 (by decide)
  obtain ⟨hc2, hb2⟩ := P.inside (r := 0) htag (by decide) (by decide) (dvbInfo_named (by decide)) rfl hc hb h1 h2
  exact P.eachTurn hturn (Service.io_ends _) (fun _ _ _ => trivial) _ hc2 hb2

theorem descriptorVector_eachTurn (hfuel : bound < fresh.fuel) (hc : P.rank.Valid 0 c) (hb : P.rank.left c ≤ bound) :
    descriptorVectorTurns turn fresh c :=
  P.eachTurn hturn (Descriptor.readAhead_ends hfuel) (fun _ => Descriptor.eachTurn P hturn) _ hc hb

theorem TsSpecification.eachTurn (hfuel : bound < fresh.fuel) (hc : P.rank.Valid 0 c) (hb : P.rank.left c ≤ bound) :
    TsSpecification.EachTurn turn fresh c := by
  intro r c1 h1 u c2 h2
  have hprefix : P.Ends bound 0 4 (fun _ => 0) (untilDescriptors (m := m) fresh.ts) := by
    refine Progress.Ends.bind (uint_ends .uint16 (q := 0) (by decide)) fun _ => ?_
    refine Progress.Ends.bind (uint_ends .uint16 (q := 0) (by decide)) fun _ => ?_
    exact Progress.Ends.mono (uintReq_ends (by decide)) fun _ => Nat.zero_le _
  obtain ⟨hc2, hb2⟩ := P.inside (r := 0) hprefix (by decide) (by decide) (dvbInfo_named (by decide)) rfl hc hb h1 h2
  exact descriptorVector_eachTurn P hturn hfuel hc2 hb2

theorem NetworkInformationSection.eachTurn (hfuel : bound < fresh.fuel) (t : NetworkInformationSection)
    (hc : P.rank.Valid 0 c) (hb : P.rank.left c ≤ bound) : NetworkInformationSection.EachTurn turn fresh t c := by
  intro r1 c1 h1 u1 c2 h2
  have hhead : P.Ends bound 0 12 (fun _ => 0) (t.untilLength (m := m)) := by
    refine Progress.Ends.bind (uint_ends .uint8 (q := 8) (by decide)) fun _ => ?_
    refine Progress.Ends.bind (uint_ends .uint8 (q := 9) (by decide)) fun _ => ?_
    refine Progress.Ends.bind (uintReq_ends (q := 10) (by decide)) fun _ => ?_
    exact Progress.Ends.mono (uintReq_ends (by decide)) fun _ => Nat.zero_le _
  obtain ⟨hc2, hb2⟩ := P.inside (r := 24) hhead (by decide) (by decide) (dvbInfo_named (by decide)) rfl hc hb h1 h2
  intro r3 c3 h3
  have hfields : P.Ends bound 24 4 (fun _ => 0) (t.untilNetworkDescriptors (m := m)) := by
    unfold untilNetworkDescriptors
    refine Parsing.guarded ?_
    refine Progress.Ends.bind (uint_ends .uint16 (q := 40) (by decide)) fun _ => ?_
    refine Progress.Ends.bind (uintReq_ends (q := 42) (by decide)) fun _ => ?_
    refine Progress.Ends.bind (uint_ends .uint8 (q := 47) (by decide)) fun _ => ?_
    refine Progress.Ends.bind (uint_ends .uint8 (q := 48) (by decide)) fun _ => ?_
    refine Progress.Ends.bind (uint_ends .uint8 (q := 56) (by decide)) fun _ => ?_
    refine Progress.Ends.bind (uint_ends .uint8 (q := 64) (by decide)) fun _ => ?_
    exact Progress.Ends.mono (uintReq_ends (by decide)) fun _ => Nat.zero_le _
  obtain ⟨hc3, -, hleft3⟩ := (hfields c2 hc2 hb2).ok h3
  have hb3 : P.rank.left c3 ≤ bound := by omega
  constructor
  · intro u c4 h4
    obtain ⟨hc4, hb4⟩ := P.inside (r := 0) (x := pure ()) (k := fun _ => 0) (Progress.Ends.pure rfl) (by decide) (by decide)
      (dvbInfo_named (by decide)) rfl hc3 hb3 rfl h4
    exact descriptorVector_eachTurn P hturn hfuel hc4 hb4
  · intro r4 c4 h4 u5 c5 h5
    have hnetwork : P.Ends bound 4 4 (fun _ => 0) (t.untilTsLoop (m := m) fresh) := by
      refine Progress.Ends.bind (Parsing.namedBlock (by decide) (by decide) (dvbInfo_named (by decide))
        (Parsing.Ends.congr (descriptorVectorIo_ends hfuel _) rfl rfl)) fun _ => ?_
      exact Progress.Ends.mono (uintReq_ends (by decide)) fun _ => Nat.zero_le _
    obtain ⟨hc5, hb5⟩ := P.inside (r := 0) hnetwork (by decide) (by decide) (dvbInfo_named (by decide)) rfl hc3 hb3 h4 h5
    exact P.eachTurn hturn (TsSpecification.io_ends hfuel _) (fun _ => TsSpecification.eachTurn P hturn hfuel) _ hc5 hb5

end Loops

/-- A turn of binary parsing moves the position on, not past the limit. -/
def BinaryTurn (d d' : IbCtx) : Prop := d.bitpos < d'.bitpos ∧ d'.bitpos ≤ d'.bitlimit ∧ d'.bitlimit = d.bitlimit

/-- A turn of text parsing moves the position on, not past the zero that ends the text. -/
def TextTurn (c c' : IcCtx) : Prop :=
  c'.parsePos <:+ c.parsePos ∧ c'.parsePos.length < c.parsePos.length ∧ c'.parsePos ≠ []

theorem binaryTurn (d d' : IbCtx) (h : binaryParsing.Turn d d') : BinaryTurn d d' := by
  obtain ⟨⟨hd, -⟩, ⟨hd', -⟩, ⟨-, hlimit⟩, hleft⟩ := h
  have hpos := hd.pos
  have hpos' := hd'.pos
  replace hleft : d'.bitlimit - d'.bitpos < d.bitlimit - d.bitpos := hleft
  exact ⟨by omega, hpos', hlimit⟩

theorem textTurn (c c' : IcCtx) (h : textParsing.Turn c c') : TextTurn c c' := by
  obtain ⟨-, hc', hsuffix, hlength⟩ := h
  exact ⟨hsuffix, hlength, Terminated.ne_nil hc'⟩

theorem finishes_of_ends {m : Mode} {P : Parsing m} {α : Type} {bound p q : Nat} {k : α → Nat} {x : Iox m α} {c : Ctx m}
    (hx : P.Ends bound p q k x) (hc : P.rank.Valid p c) (hb : P.rank.left c ≤ bound) : Finishes (x c) := by
  have h := hx c hc hb
  cases hr : x c with
  | error e c' => exact h.error hr
  | ok a c' => trivial

namespace NetworkInformationSection

theorem finishes_on_binary (t : NetworkInformationSection) (service : Service) (ts : TsSpecification) (data : Memory UInt8)
    {size fuel : Nat} (hsize : size < 2^28) (hfuel : 8 * size < fuel) :
    Finishes (io (m := .parseBinary) ⟨fuel, service, ts⟩ t (IbCtx.create data size)) ∧
      t.EachTurn (m := .parseBinary) BinaryTurn ⟨fuel, service, ts⟩ (IbCtx.create data size) := by
  have hlimit : (IbCtx.create data size).bitlimit = 8 * size := by
    show u32 (size * 8) = _
    rw [Nat.mul_comm, u32_of_lt (by omega)]
  have hc : binaryParsing.rank.Valid 0 (IbCtx.create data size) := ⟨⟨Nat.zero_le _, by omega⟩, rfl⟩
  have hb : binaryParsing.rank.left (IbCtx.create data size) ≤ 8 * size := hlimit.le
  exact ⟨finishes_of_ends (io_ends hfuel t) hc hb, eachTurn binaryParsing binaryTurn hfuel t hc hb⟩

theorem finishes_on_text (t : NetworkInformationSection) (service : Service) (ts : TsSpecification) (text : List UInt8)
    {fuel : Nat} (hfuel : text.length + 1 < fuel) :
    Finishes (io (m := .parseText) ⟨fuel, service, ts⟩ t (IcCtx.create text)) ∧
      t.EachTurn (m := .parseText) TextTurn ⟨fuel, service, ts⟩ (IcCtx.create text) := by
  have hc : textParsing.rank.Valid 0 (IcCtx.create text) := terminated_append text
  have hb : textParsing.rank.left (IcCtx.create text) ≤ text.length + 1 := List.length_append.le
  exact ⟨finishes_of_ends (io_ends hfuel t) hc hb, eachTurn textParsing textTurn hfuel t hc hb⟩

/-- Parsing returns or throws on every input, binary or text, with a bound on the turns of
its loops, which are those that `io` comes to. -/
theorem parsing_finishes (t : NetworkInformationSection) (service : Service) (ts : TsSpecification) :
    (∀ (data : Memory UInt8) (size fuel : Nat), size < 2^28 → 8 * size < fuel →
      Finishes (io (m := .parseBinary) ⟨fuel, service, ts⟩ t (IbCtx.create data size)) ∧
        t.EachTurn (m := .parseBinary) BinaryTurn ⟨fuel, service, ts⟩ (IbCtx.create data size)) ∧
    (∀ (text : List UInt8) (fuel : Nat), text.length + 1 < fuel →
      Finishes (io (m := .parseText) ⟨fuel, service, ts⟩ t (IcCtx.create text)) ∧
        t.EachTurn (m := .parseText) TextTurn ⟨fuel, service, ts⟩ (IcCtx.create text)) ∧
    ∀ (m : Mode) (fuel : Nat), m.isParsing = true → t.SplitsAtLoops m ⟨fuel, service, ts⟩ ∧
      (∀ t : TsSpecification, t.SplitsAtLoop m ⟨fuel, service, ts⟩) ∧ Descriptor.SplitsAtLoop m ⟨fuel, service, ts⟩ :=
  ⟨fun data _ _ => t.finishes_on_binary service ts data, fun text _ => t.finishes_on_text service ts text,
    fun _ fuel hm => ⟨t.splitsAtLoops ⟨fuel, service, ts⟩, fun t => t.splitsAtLoop ⟨fuel, service, ts⟩,
      Descriptor.splitsAtLoop ⟨fuel, service, ts⟩ hm⟩⟩

theorem parsing_finishes_cut_short :
    let fresh : Fresh := ⟨32, ⟨0, 0⟩, ⟨0, 0, 0, []⟩⟩
    let data : Memory UInt8 := Memory.write (fun _ => 0) 0 [64, 240, 20]
    (Finishes (io (m := .parseBinary) fresh zero (IbCtx.create data 3)) ∧
      zero.EachTurn (m := .parseBinary) BinaryTurn fresh (IbCtx.create data 3)) ∧
    Finishes (io (m := .parseText) fresh zero (IcCtx.create (chars "table_id:"))) ∧
      zero.EachTurn (m := .parseText) TextTurn fresh (IcCtx.create (chars "table_id:")) :=
  ⟨(parsing_finishes zero ⟨0, 0⟩ ⟨0, 0, 0, []⟩).1 _ 3 32 (by decide) (by decide),
    (parsing_finishes zero ⟨0, 0⟩ ⟨0, 0, 0, []⟩).2.1 _ 32 (by decide)⟩

end NetworkInformationSection

end Mopa.Dvb
