import Mopa.NitRoundTrip
import Mopa.TsRoundTrip
import Mathlib.Data.List.Forall2

/-! Sections from the structs of a sender to those of a receiver: through binary construction,
packets, extraction and binary parsing. -/
namespace Mopa.Dvb
open Io Bits Outcome
open Mopa.Merger (dvbSectionLength)

theorem dvbSectionLength_announced (data : Memory UInt8) :
    dvbSectionLength (data 1) (data 2) = NetworkInformationSection.announcedLength data + 3 := by
  have hword : (ofMemory data).read 8 16 = ofNat 16 ((data 1).toNat * 2^8 + (data 2).toNat) := by
    rw [← Bits.ofBytes_word2]
    exact ofMemory_read data 1 2
  have hsplit : (ofMemory data).read 8 (4 + 12) = (ofMemory data).read 8 4 ++ (ofMemory data).read 12 12 :=
    Memory.read_add _ _ _ _
  rw [hword, ofNat_append 4 12] at hsplit
  obtain ⟨-, hlow⟩ := List.append_inj hsplit (by rw [length_ofNat, Memory.read_length])
  have hor : (data 1).toNat <<< 8 ||| (data 2).toNat = (data 1).toNat * 2^8 + (data 2).toNat := by
    rw [Nat.shiftLeft_eq, Nat.mul_comm]
    exact (Nat.two_pow_add_eq_or_of_lt (data 2).toNat_lt _).symm
  rw [dvbSectionLength, NetworkInformationSection.announcedLength, ← hlow, toNat_ofNat, hor]
  exact congrArg (· + 3) (Nat.and_two_pow_sub_one_eq_mod _ 12)

theorem Encodes.table_id {h : headFormat.Value} {v v' : bodyFormat.Value} {n : Nat} {bytes : List UInt8}
    (he : Encodes h v v' n bytes) : bytes.head? = some h.1 := by
  obtain ⟨hb, bb, hhead, -, -, -, hbytes⟩ := he
  obtain ⟨a, as, rest, h1, -, rfl⟩ := Encoder.bind_eq_some.mp hhead
  obtain ⟨-, -, rfl⟩ := Format.encodeUint_eq_some.mp h1
  cases bytes with
  | nil =>
    have hlen := congrArg List.length hbytes
    simp only [List.length_append, length_ofNat, ofBytes_nil, List.length_nil] at hlen
    omega
  | cons b bytes =>
    rw [ofBytes_cons, List.append_assoc] at hbytes
    obtain ⟨hfirst, -⟩ := List.append_inj hbytes (by rw [length_ofNat, length_ofNat])
    exact congrArg some (UInt8.toNat_inj.mp (ofNat_inj b.toNat_lt h.1.toNat_lt hfirst))

theorem Encodes.wellFormed {h : headFormat.Value} {v v' : bodyFormat.Value} {n : Nat} {bytes : List UInt8}
    (he : Encodes h v v' n bytes) (hid : h.1 ≠ 0xff) : Merger.WellFormed (checked bytes) := by
  have hlen := he.length_checked
  have hfirst := he.table_id
  obtain ⟨hb, bb, hhead, -, -, hn, hbytes⟩ := he
  have hread : (Memory.write (fun _ => 0) 0 (checked bytes)).read 0 (3 + n) = checked bytes := by
    rw [← hlen]
    exact Memory.read_write_same _ _ _
  generalize Memory.write (fun _ => 0) 0 (checked bytes) = data at hread
  have hannounced : NetworkInformationSection.announcedLength data = n := by
    have hbits := ofMemory_read data 0 (3 + n)
    rw [hread, ofBytes_checked, hbytes, Nat.mul_add, show 8 * 3 = 12 + 12 by rfl, Nat.add_assoc, Memory.read_add,
      Memory.read_add, List.append_assoc, List.append_assoc] at hbits
    obtain ⟨-, hrest⟩ := List.append_inj hbits (by rw [Memory.read_length, head_length hhead])
    obtain ⟨hlength, -⟩ := List.append_inj hrest (by rw [Memory.read_length, length_ofNat])
    exact (congrArg toNat hlength).trans (toNat_ofNat_of_lt hn)
  have htable : data 0 = h.1 := by
    have hhead : (data.read 0 (3 + n)).head? = some (data 0) := by
      rw [Nat.add_comm]
      rfl
    rw [hread, checked, List.head?_append, hfirst] at hhead
    exact (Option.some.inj hhead).symm
  have hwf := Merger.wellFormed_read data 0 (htable ▸ hid)
  rwa [dvbSectionLength_announced data, hannounced, Nat.add_comm n 3, hread] at hwf

namespace NetworkInformationSection
variable {fresh fresh' : Fresh} {t t' : NetworkInformationSection} {sec : List UInt8}

def Constructs (fresh : Fresh) (t : NetworkInformationSection) (sec : List UInt8) : Prop :=
  ∃ data size t' c, io (m := .constructBinary) fresh t (ObCtx.create data size) = .ok t' c ∧ emitted c = sec

/-- Wherever the bytes stand at the front of a buffer, binary parsing gives the struct. -/
def Parses (fresh : Fresh) (sec : List UInt8) (t : NetworkInformationSection) : Prop :=
  ∀ data size, data.read 0 sec.length = sec → 8 * sec.length ≤ u32 (size * 8) →
    ∃ d, io (m := .parseBinary) fresh zero (IbCtx.create data size) = .ok t d

theorem Constructs.section (hsec : Constructs fresh t sec) (hwf : t.WellFormed) (htag : ∀ d ∈ t.descriptors, d.tag ≠ 0x70)
    (hid : t.tableId ≠ 0xff) (hfuel : 2^15 ≤ fresh'.fuel) :
    Merger.WellFormed sec ∧ sec.length ≤ 1024 ∧ ∃ crc, Parses fresh' sec (t.close crc) := by
  obtain ⟨data, size, t', c, hrun, rfl⟩ := hsec
  have hsurvives : Survives fresh fresh' t t' size c := survives hfuel hwf htag hrun
  obtain ⟨h, v, ht, hfh, hfv, htagged, hsize, hclose⟩ := hwf.exists_value htag
  have hio : io (m := .constructBinary) fresh t = formatIo Format.zero fresh.fuel h v t.sectionLength t.crc := by
    rw [← io_eq Format.zero fresh fun _ => htagged, ht]
  have hlimit : u32 (size * 8) < 2^32 := Nat.mod_lt _ (by decide)
  rw [hio] at hrun
  obtain ⟨v', n, bytes, he, hsmall, hroom⟩ := formatIo_encodes hfh hfv rfl hlimit hrun
  cases hrun.symm.trans (formatIo_writes he hsmall rfl hroom hlimit)
  have hbytes := emitted_emit data size (checked bytes)
  have htable : h.1 = t.tableId := congrArg tableId ht
  refine ⟨?_, ?_, dvbCrc32 bytes, fun data' size' hdata hfit => ?_⟩
  · rw [hbytes]
    exact he.wellFormed (htable ▸ hid)
  · rw [hbytes, he.length_checked]
    omega
  · obtain ⟨d, hd⟩ := hsurvives.parsed data' size' hdata hfit
    rw [hsurvives.values] at hd
    exact ⟨d, hd⟩

theorem read_xor {data data' : Memory UInt8} {n s w : Nat} {error : List UInt8}
    (hdata : data'.read 0 n = List.zipWith (· ^^^ ·) (data.read 0 n) error) (hsw : s + w ≤ 8 * n)
    (hclear : ∀ i, s ≤ i → i < s + w → (ofBytes error)[i]? = some false) :
    (ofMemory data').read s w = (ofMemory data).read s w := by
  have hbits := ofMemory_read data' 0 n
  rw [hdata, ofBytes_xor, ← ofMemory_read] at hbits
  refine Memory.read_congr _ _ s w fun i hl hu => ?_
  have hi := congrArg (fun l => l[i]?) hbits
  simp only [Memory.read_getElem?, List.getElem?_zipWith, hclear i hl hu] at hi
  simpa [show i < 8 * n by omega] using hi

/-- A section that is accepted is refused after a burst of at most 32 bits that leaves
`section_length` alone, wherever the changed bytes stand at the front of a buffer. -/
theorem burst_refused (fresh fresh' : Fresh) (hfuel' : 2^15 ≤ fresh'.fuel) {t0 t : NetworkInformationSection}
    {data : Memory UInt8} {size : Nat} {d : IbCtx}
    (hrun : io (m := .parseBinary) fresh t0 (IbCtx.create data size) = .ok t d) {error : List UInt8}
    (hlen : error.length = 3 + t.sectionLength.toNat) (hburst : Register.Burst 32 (ofBytes error))
    (hclear : ∀ i, 12 ≤ i → i < 24 → (ofBytes error)[i]? = some false) (t1 : NetworkInformationSection)
    (data' : Memory UInt8) (size' : Nat)
    (hdata : data'.read 0 error.length = List.zipWith (· ^^^ ·) (data.read 0 error.length) error) :
    ∃ e d', io (m := .parseBinary) fresh' t1 (IbCtx.create data' size') = .error e d' ∧ e.Thrown := by
  rw [io_parsing Format.zero rfl fresh t0 headFormat.zero bodyFormat.zero 0] at hrun
  obtain ⟨-, h, v, n, bytes, he, hs, rfl⟩ := formatIo_accepts rfl (Nat.mod_lt _ (by decide)) hrun
  have hstands : Stands data size h v n bytes := ⟨he, (sees_checked he).mp hs⟩
  have hn : (ofValue h v (UInt16.ofNat n) (dvbCrc32 bytes)).sectionLength.toNat = n := by
    obtain ⟨-, -, -, -, -, hn, -⟩ := he
    exact Nat.mod_eq_of_lt (hn.trans (by decide))
  rw [hn] at hlen
  rw [hlen] at hdata
  refine parse_refuses hfuel' fun hbegins => ?_
  obtain ⟨-, h', v', n', bytes', hstands'⟩ := hbegins
  have hsame : announcedLength data' = announcedLength data :=
    congrArg toNat (read_xor hdata (by omega) hclear)
  rw [hstands.announced, hstands'.announced] at hsame
  subst hsame
  obtain ⟨-, -, hread⟩ := hstands
  obtain ⟨-, -, hread'⟩ := hstands'
  rw [hread, hread'] at hdata
  refine dvbCrc32_burst ?_ (dvbCrc32_append_self bytes) hburst ((congrArg dvbCrc32 hdata).symm.trans (dvbCrc32_append_self bytes'))
  rw [hlen]
  exact he.length_checked

theorem burst_refused_network_id : ∃ e d', io (m := .parseBinary) sampleFresh zero
    (IbCtx.create (Memory.write emptySection 3 [1]) 16) = .error e d' ∧ e.Thrown := by
  obtain ⟨d, hd⟩ := exists_ok_of_gives (x := io (m := .parseBinary) sampleFresh zero) (s := IbCtx.create emptySection 16)
    (a := emptySectionStruct) (by decide +kernel)
  have hbits : (ofBytes ([0, 0, 0, 1] ++ List.replicate 12 0)).length = 128 := length_ofBytes _
  have hbit : ∀ i < 128, (ofBytes ([0, 0, 0, 1] ++ List.replicate 12 0))[i]? = some true → 31 ≤ i ∧ i < 31 + 32 := by
    decide +kernel
  have hburst : Register.Burst 32 (ofBytes ([0, 0, 0, 1] ++ List.replicate 12 0)) :=
    ⟨by decide +kernel, 31, fun i hi => hbit i (hbits ▸ (List.getElem?_eq_some_iff.mp hi).1) hi⟩
  refine burst_refused sampleFresh sampleFresh (le_refl (2^15)) hd rfl hburst ?_ zero _ 16 (by decide +kernel)
  exact fun i hl hu => by
    have hclear : ∀ i < 24, 12 ≤ i → (ofBytes ([0, 0, 0, 1] ++ List.replicate 12 0))[i]? = some false := by decide +kernel
    exact hclear i hu hl

end NetworkInformationSection

end Mopa.Dvb
