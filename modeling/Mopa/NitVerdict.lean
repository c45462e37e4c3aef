import Mopa.NitSection
import Mopa.NitProgress

/-! What the parser makes of a byte string, whatever the struct held that it parses into. -/
namespace Mopa.Dvb
open Io Bits Outcome

/-- A failure from this context is a `mopa::Exception`. -/
def ThrowsFrom {σ α : Type} (x : EStateM Halt σ α) (c : σ) : Prop := ∀ e c', x c = .error e c' → e.Thrown

theorem ThrowsFrom.bind {σ α β : Type} {x : EStateM Halt σ α} {f : α → EStateM Halt σ β} {c : σ} (hx : ThrowsFrom x c)
    (hf : ∀ a c', x c = .ok a c' → ThrowsFrom (f a) c') : ThrowsFrom (x >>= f) c := by
  intro e c' h
  cases hr : x c with
  | error e' c1 =>
    rw [bind_error hr] at h
    cases h
    exact hx e c' hr
  | ok a c1 => exact hf a c1 hr e c' ((bind_ok hr).symm.trans h)

def OnlyThrows {σ α : Type} (x : EStateM Halt σ α) : Prop := ∀ c, ThrowsFrom x c

namespace OnlyThrows
variable {σ α β : Type} {x : EStateM Halt σ α} {info : Info}

protected theorem pure (a : α) : OnlyThrows (pure a : EStateM Halt σ α) := nofun

theorem throwX {message : String} : OnlyThrows (throwX info message : EStateM Halt σ α) := by
  intro c e c' h
  cases h
  exact ⟨info, message, rfl⟩

protected theorem bind {f : α → EStateM Halt σ β} (hx : OnlyThrows x) (hf : ∀ a, OnlyThrows (f a)) :
    OnlyThrows (x >>= f) := fun c => (hx c).bind fun a c' _ => hf a c'

theorem ibx_uint8 {w : Nat} : OnlyThrows (Ibx.uint8 w info) := by
  intro c e c' h
  unfold Ibx.uint8 at h
  split at h
  · exact throwX _ _ _ h
  · cases h

theorem ibx_namedBlockBegin {b : Nat} : OnlyThrows (Ibx.namedBlockBegin b info) := by
  refine .bind (fun c e c' h => ?_) fun length c e c' h => ?_
  · unfold Ibx.uint32 at h
    split at h
    · exact throwX _ _ _ h
    · cases h
  · unfold Ibx.blockBegin at h
    split at h
    · exact throwX _ _ _ h
    · split at h
      · exact throwX _ _ _ h
      · cases h

theorem ibx_blockEnd : OnlyThrows (Ibx.blockEnd info) := by
  intro c e c' h
  unfold Ibx.blockEnd at h
  split at h
  · exact throwX _ _ _ h
  · split at h
    · exact throwX _ _ _ h
    · dsimp only at h
      split at h
      · exact throwX _ _ _ h
      · cases h

theorem required {w : Nat} {val : UInt8} : OnlyThrows (Iox.require (m := .parseBinary)
    (fun v => Iox.uint8 w v info) val info) := by
  refine .bind ibx_uint8 fun v => ?_
  split
  · exact throwX
  · exact .pure _

theorem crcLateFix {startedAt crcPos : Nat} {crc : UInt32} :
    OnlyThrows (Iox.crcLateFix startedAt crcPos (m := .parseBinary) crc info) := by
  refine .bind ?_ fun _ => .pure _
  unfold Iox.crcAligned
  split
  · exact .bind throwX fun _ => .bind nofun fun _ => by split; exacts [throwX, .pure _]
  · exact .bind nofun fun _ => by split; exacts [throwX, .pure _]

theorem head {values : (f : Format) → f.Value} {fuel : Nat} (h0 : headFormat.Value) :
    OnlyThrows (headFormat.io (m := .parseBinary) values fuel h0) :=
  .bind ibx_uint8 fun _ => .bind (.bind ibx_uint8 fun _ => .bind (.bind required fun _ => .bind required fun _ => .pure _)
    fun _ => .pure _) fun _ => .pure _

end OnlyThrows

theorem bodyFormat_named : bodyFormat.Named :=
  ⟨dvbInfo_named (by decide), dvbInfo_named (by decide), dvbInfo_named (by decide), dvbInfo_named (by decide),
    dvbInfo_named (by decide), dvbInfo_named (by decide), dvbInfo_named (by decide),
    ⟨dvbInfo_named (by decide), trivial, descriptorFormat_named⟩, dvbInfo_named (by decide),
    dvbInfo_named (by decide), trivial, tsFormat_named⟩

namespace NetworkInformationSection

section Verdict
variable {values : (f : Format) → f.Value} {fuel : Nat} {h0 : headFormat.Value} {v0 : bodyFormat.Value} {length : UInt16}
  {crc0 : UInt32} {d d' : IbCtx} {e : Halt}

/-- A section that is not accepted is refused with an exception: 4095 bytes are the most
that a block takes, and the loops have turns enough for them. -/
theorem formatIo_throws (hpos : d.bitpos = 0) (hl : d.bitlimit < 2^32) (hfuel : 2^15 ≤ fuel) :
    ThrowsFrom (formatIo (m := .parseBinary) values fuel h0 v0 length crc0) d := by
  refine .bind nofun fun nitBegin d0 hstart => ?_
  cases hstart
  refine .bind (OnlyThrows.head h0 d) fun h1 d1 hhead => ?_
  obtain ⟨hb, henc, hs1, rfl⟩ := head_ok hpos hl hhead
  refine .bind (OnlyThrows.ibx_namedBlockBegin _) fun u d2 hbegin => ?_
  obtain ⟨n, hn, -, hal, hroom, rfl⟩ := ibx_namedBlockBegin_ok (by decide) (by rw [IbCtx.skip_bitpos]; omega) hbegin
  split
  · exact .bind (OnlyThrows.throwX _) nofun
  · generalize hinside : ((d.skip 12).skip 12).enter n (dvbInfo "section_length") = d2
    have hpos2 : d2.bitpos = 24 := by
      rw [← hinside]
      show d.bitpos + 12 + 12 = 24
      omega
    have hlimit2 : d2.bitlimit = 24 + 8 * n := by
      rw [← hinside]
      show d.bitpos + 12 + 12 + 8 * n = _
      omega
    have hvalid : binaryParsing.rank.Valid 24 d2 := ⟨⟨by omega, by omega⟩, by rw [hpos2]⟩
    have hleft : binaryParsing.rank.left d2 ≤ 8 * 4095 := by
      show d2.bitlimit - d2.bitpos ≤ _
      omega
    have hbody : binaryParsing.Ends (8 * 4095) 24 0 (fun v => min 1 (bodyFormat.size v))
        (bodyFormat.io (m := .parseBinary) values fuel v0) :=
      Parsing.format_ends (by omega) bodyFormat_wf bodyFormat_named bodyFormat_aligned v0
    refine .bind (fun e d3 h3 => (hbody d2 hvalid hleft).error h3) fun v d3 h3 => ?_
    obtain ⟨hvalid3, -, hleft3⟩ := (hbody d2 hvalid hleft).ok h3
    refine .bind nofun fun crcPos d4 h4 => ?_
    cases h4
    have hcrc : binaryParsing.Ends (8 * 4095) 0 0 (fun _ => 0) (Iox.crcIo d.bitpos crc0 (dvbInfo "CRC")) :=
      crcIo_ends _ _ _ (dvbInfo_named (by decide))
    have hleft3 : binaryParsing.rank.left d3 ≤ 8 * 4095 := by omega
    refine .bind (fun e d5 h5 => (hcrc d3 hvalid3 hleft3).error h5) fun crc d5 _ => ?_
    refine .bind (OnlyThrows.ibx_blockEnd _) fun n' d6 _ => .bind (OnlyThrows.crcLateFix _) fun crc d7 _ => ?_
    split
    · exact .bind (OnlyThrows.throwX _) nofun
    · exact OnlyThrows.pure _ _

end Verdict

section Buffers
variable {data : Memory UInt8} {size : Nat} {fresh fresh' : Fresh} {t t' : NetworkInformationSection}
  {h : headFormat.Value} {v v' : bodyFormat.Value} {n : Nat} {bytes : List UInt8}

def Stands (data : Memory UInt8) (size : Nat) (h : headFormat.Value) (v : bodyFormat.Value) (n : Nat) (bytes : List UInt8) :
    Prop := Encodes h v v n bytes ∧ 8 * (3 + n) ≤ u32 (size * 8) ∧ data.read 0 (3 + n) = checked bytes

def BeginsWithSection (data : Memory UInt8) (size : Nat) : Prop := ∃ h v n bytes, Stands data size h v n bytes

/-- `section_length` as it stands in the buffer. -/
def announcedLength (data : Memory UInt8) : Nat := toNat ((ofMemory data).read 12 12)

theorem sees_checked (he : Encodes h v v' n bytes) :
    (IbCtx.create data size).Sees (ofBytes (checked bytes)) ↔
      8 * (3 + n) ≤ u32 (size * 8) ∧ data.read 0 (3 + n) = checked bytes := by
  have hlength := he.length_checked
  have hstart : (IbCtx.create data size).bitpos / 8 = 0 := Nat.zero_div 8
  constructor
  · intro hs
    have hroom := hs.room
    have hread := hs.read_bytes rfl
    rw [length_ofBytes, hlength] at hroom
    rw [hlength, hstart] at hread
    exact ⟨(Nat.zero_add _).symm.trans_le hroom, hread⟩
  · rintro ⟨hfit, hread⟩
    refine ⟨?_, ?_, Nat.mod_lt _ (by decide)⟩
    · rw [length_ofBytes, hlength, IbCtx.next_bytes rfl, hstart]
      exact congrArg ofBytes hread
    · rw [length_ofBytes, hlength]
      exact (Nat.zero_add _).trans_le hfit

theorem Stands.announced (hs : Stands data size h v n bytes) : announcedLength data = n := by
  obtain ⟨he, hfit⟩ := hs
  have hsees := (sees_checked he).mpr hfit
  obtain ⟨hb, bb, hhead, -, -, hn, hbytes⟩ := he
  rw [ofBytes_checked, hbytes, List.append_assoc, IbCtx.Sees.append_iff, head_length hhead, List.append_assoc] at hsees
  have hlength := hsees.2.left.stands
  rw [length_ofNat] at hlength
  refine (congrArg toNat hlength).trans (toNat_ofNat_of_lt hn)

theorem Stands.parsed (hs : Stands data size h v n bytes) (ht : t.sectionLength ≤ 1021) (hfuel : 2^15 ≤ fresh.fuel) :
    io (m := .parseBinary) fresh t (IbCtx.create data size) =
      .ok (ofValue h v (UInt16.ofNat n) (dvbCrc32 bytes)) ((IbCtx.create data size).skip (8 * (3 + n))) := by
  rw [io_parsing Format.zero rfl fresh t headFormat.zero bodyFormat.zero 0]
  exact formatIo_reads hs.1 rfl ((sees_checked hs.1).mpr hs.2) ht hfuel

theorem parse_refuses (hfuel : 2^15 ≤ fresh.fuel) (h : ¬ (t.sectionLength ≤ 1021 ∧ BeginsWithSection data size)) :
    ∃ e d, io (m := .parseBinary) fresh t (IbCtx.create data size) = .error e d ∧ e.Thrown := by
  have hlimit : (IbCtx.create data size).bitlimit < 2^32 := Nat.mod_lt _ (by decide)
  rw [io_parsing Format.zero rfl fresh t headFormat.zero bodyFormat.zero 0]
  cases hrun : formatIo (m := .parseBinary) Format.zero fresh.fuel headFormat.zero bodyFormat.zero t.sectionLength 0
    (IbCtx.create data size) with
  | ok t' d =>
    obtain ⟨ht, h', v, n, bytes, he, hs, -⟩ := formatIo_accepts rfl hlimit hrun
    exact absurd ⟨ht, h', v, n, bytes, he, (sees_checked he).mp hs⟩ h
  | error e d => exact ⟨e, d, rfl, formatIo_throws rfl hlimit hfuel e d hrun⟩

/-- Two runs of the parser agree: both give the same struct, or both throw. -/
def SameVerdict {σ α : Type} : EStateM.Result Halt σ α → EStateM.Result Halt σ α → Prop
  | .ok t _, .ok t' _ => t = t'
  | .error e _, .error e' _ => e.Thrown ∧ e'.Thrown
  | _, _ => False

/-- The verdict is the same for two structs, and what is accepted for one of them announces at
most 1021 bytes. -/
def InputDecides (data : Memory UInt8) (size : Nat) (fresh fresh' : Fresh) (t t' : NetworkInformationSection) : Prop :=
  SameVerdict (io (m := .parseBinary) fresh t (IbCtx.create data size))
    (io (m := .parseBinary) fresh' t' (IbCtx.create data size)) ∧
  ((∃ r d, io (m := .parseBinary) fresh t (IbCtx.create data size) = .ok r d) ∨
    (∃ r d, io (m := .parseBinary) fresh' t' (IbCtx.create data size) = .ok r d) → announcedLength data ≤ 1021)

/-- The parser looks at the length that the struct held before. Where a section stands, the
verdict depends on the input alone if both structs held lengths over the limit, or if none
did and the section is not too long. -/
theorem inputDecides_iff (hfuel : 2^15 ≤ fresh.fuel) (hfuel' : 2^15 ≤ fresh'.fuel) :
    InputDecides data size fresh fresh' t t' ↔ (BeginsWithSection data size →
      t.sectionLength > 1021 ∧ t'.sectionLength > 1021 ∨
        t.sectionLength ≤ 1021 ∧ t'.sectionLength ≤ 1021 ∧ announcedLength data ≤ 1021) := by
  unfold InputDecides
  by_cases hsection : BeginsWithSection data size
  · obtain ⟨h, v, n, bytes, hs⟩ := id hsection
    have hover {t : NetworkInformationSection} (ht : ¬ t.sectionLength ≤ 1021) : t.sectionLength > 1021 := UInt16.not_le.mp ht
    by_cases ht : t.sectionLength ≤ 1021
    · rw [hs.parsed ht hfuel]
      by_cases ht' : t'.sectionLength ≤ 1021
      · rw [hs.parsed ht' hfuel']
        exact ⟨fun hdecides _ => Or.inr ⟨ht, ht', hdecides.2 (Or.inl ⟨_, _, rfl⟩)⟩, fun hshort =>
          ⟨rfl, fun _ => (hshort hsection).elim (fun hlong => absurd ht (UInt16.not_le.mpr hlong.1)) fun h => h.2.2⟩⟩
      · obtain ⟨e, d, hrun, -⟩ := parse_refuses hfuel' fun h => ht' h.1
        rw [hrun]
        exact ⟨fun hdecides => hdecides.1.elim, fun hshort =>
          (hshort hsection).elim (fun hlong => absurd ht (UInt16.not_le.mpr hlong.1)) fun h => absurd h.2.1 ht'⟩
    · obtain ⟨e, d, hrun, he⟩ := parse_refuses hfuel fun h => ht h.1
      rw [hrun]
      by_cases ht' : t'.sectionLength ≤ 1021
      · rw [hs.parsed ht' hfuel']
        exact ⟨fun hdecides => hdecides.1.elim, fun hshort =>
          (hshort hsection).elim (fun hlong => absurd ht' (UInt16.not_le.mpr hlong.2)) fun h => absurd h.1 ht⟩
      · obtain ⟨e', d', hrun', he'⟩ := parse_refuses hfuel' fun h => ht' h.1
        rw [hrun']
        exact ⟨fun _ _ => Or.inl ⟨hover ht, hover ht'⟩, fun _ => ⟨⟨he, he'⟩, by rintro (⟨r, d, ⟨⟩⟩ | ⟨r, d, ⟨⟩⟩)⟩⟩
  · obtain ⟨e, d, hrun, he⟩ := parse_refuses (t := t) hfuel fun h => hsection h.2
    obtain ⟨e', d', hrun', he'⟩ := parse_refuses (t := t') hfuel' fun h => hsection h.2
    rw [hrun, hrun']
    exact ⟨fun _ h => absurd h hsection, fun _ => ⟨⟨he, he'⟩, by rintro (⟨r, d, ⟨⟩⟩ | ⟨r, d, ⟨⟩⟩)⟩⟩

def emptySection : Memory UInt8 := Memory.write (fun _ => 0) 0 [64, 240, 13, 0, 1, 193, 0, 0, 240, 0, 240, 0, 59, 133, 132, 2]

def emptySectionStruct : NetworkInformationSection := ⟨64, 1, 13, 1, 0, 1, 0, 0, 0, [], 0, [], 998605826⟩

def sampleFresh : Fresh := ⟨2^15, ⟨0, 0⟩, ⟨0, 0, 0, []⟩⟩

theorem inputDecides_empty : InputDecides emptySection 16 sampleFresh sampleFresh zero zero :=
  (inputDecides_iff le_rfl le_rfl).mpr fun _ => Or.inr ⟨by decide, by decide, by decide +kernel⟩

/-- The section is accepted into a fresh struct, and refused if the struct held a longer one before. -/
theorem stale_length_decides : ¬ InputDecides emptySection 16 sampleFresh sampleFresh zero
    { zero with sectionLength := 1022 } := by
  obtain ⟨d, hrun⟩ := exists_ok_of_gives (x := io (m := .parseBinary) sampleFresh zero)
    (s := IbCtx.create emptySection 16) (a := emptySectionStruct) (by decide +kernel)
  obtain ⟨e, d', hrun', -⟩ := parse_refuses (t := { zero with sectionLength := 1022 }) (show 2^15 ≤ sampleFresh.fuel from le_rfl)
    fun h => absurd h.1 (by decide)
  intro hdecides
  unfold InputDecides at hdecides
  rw [hrun, hrun'] at hdecides
  exact hdecides.1

end Buffers

end NetworkInformationSection

end Mopa.Dvb
