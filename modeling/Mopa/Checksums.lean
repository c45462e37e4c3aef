import Mopa.BinaryInput
import Mopa.CommonTypes

/-! Checksums in binary parsing: `crc_io` accepts the checksum that belongs to the bytes in
front of it, and notices a change within 32 consecutive bits of both. -/
namespace Mopa.Io
open Bits Outcome

theorem crcAligned_ok {m : Mode} {startedAt p : Nat} {info : Info} {c : Ctx m} (hs : startedAt % 8 = 0)
    (hc : Iox.bitpos c = .ok p c) (hp : p % 8 = 0) : Iox.crcAligned startedAt info c = .ok () c := by
  unfold Iox.crcAligned
  rw [if_neg (not_not.mpr hs)]
  refine (bind_ok rfl).trans ((bind_ok hc).trans ?_)
  rw [if_neg (not_not.mpr hp)]
  rfl

theorem crcLateFix_apply {m : Mode} (hm : m ≠ .constructBinary) {startedAt crcPos p : Nat} {crc : UInt32} {info : Info}
    {c : Ctx m} (hs : startedAt % 8 = 0) (hc : Iox.bitpos c = .ok p c) (hp : p % 8 = 0) :
    Iox.crcLateFix startedAt crcPos crc info c = .ok crc c := by
  have haligned : Iox.crcAligned startedAt info c = .ok () c := crcAligned_ok hs hc hp
  cases m with
  | parseBinary => exact (bind_ok haligned).trans rfl
  | parseText => exact (bind_ok haligned).trans rfl
  | constructBinary => exact absurd rfl hm
  | constructText => exact (bind_ok haligned).trans rfl

section
variable {d : IbCtx} {info : Info} {startedAt : Nat} {crc : UInt32}

theorem crcIo_apply (hs : startedAt % 8 = 0) (hd : d.bitpos % 8 = 0) :
    Iox.crcIo startedAt (m := .parseBinary) crc info d = (Ibx.uint32 32 info >>= fun crc =>
      if dvbCrc32 (d.data.read (startedAt/8) (sub32 d.bitpos startedAt / 8)) ≠ crc then
        throwX info "CRC mismatch. read=%8.8x,calculated=%8.8x"
      else pure crc) d := by
  refine (bind_ok (crcAligned_ok hs rfl hd)).trans ((get_bind _ d).trans ?_)
  refine congrFun (bind_congr fun crc => ?_) d
  split <;> rfl

theorem exists_bytes32 {bytes : List UInt8} (h : bytes.length = 4) : ∃ crc, bytes = bytes32 crc ∧
    crc = UInt32.ofNat (toNat (ofBytes bytes)) := by
  refine ⟨_, ofBytes_inj ?_, rfl⟩
  have hlt := toNat_lt (ofBytes bytes)
  have hlength : (ofBytes bytes).length = 32 := by rw [length_ofBytes, h]
  rw [ofBytes_bytes32, UInt32.toNat_ofNat', Nat.mod_eq_of_lt (hlength ▸ hlt), ← hlength, ofNat_toNat]

theorem crcIo_verdict {n : Nat} (hs : startedAt % 8 = 0) (hpos : d.bitpos = startedAt + 8*n)
    (hfit : d.bitpos + 32 < 2^32) (hroom : d.bitpos + 32 ≤ d.bitlimit) :
    Iox.crcIo startedAt (m := .parseBinary) crc info d =
      if dvbCrc32 (d.data.read (startedAt/8) (n+4)) = 0 then
        .ok (UInt32.ofNat (toNat (d.next 32))) (d.skip 32)
      else .error (.exception info "CRC mismatch. read=%8.8x,calculated=%8.8x") (d.skip 32) := by
  have hal : d.bitpos % 8 = 0 := by omega
  have hcount : sub32 d.bitpos startedAt / 8 = n := by
    unfold sub32
    omega
  have hread : Ibx.uint32 32 info d = .ok (UInt32.ofNat (toNat (d.next 32))) (d.skip 32) := by
    rw [ibx_uint32_apply (by omega) (by omega), if_pos hroom]
  have hnext : d.next 32 = ofBytes (d.data.read (startedAt/8 + n) 4) := by
    rw [show startedAt/8 + n = d.bitpos/8 by omega]
    exact IbCtx.next_bytes hal 4
  obtain ⟨crc', hbytes, hcrc⟩ := exists_bytes32 (Memory.read_length d.data (startedAt/8 + n) 4)
  rw [crcIo_apply hs hal, bind_ok hread, hcount, Memory.read_add, hbytes, hnext, ← hcrc]
  by_cases h : dvbCrc32 (d.data.read (startedAt/8) n) = crc'
  · rw [if_neg (not_not.mpr h), if_pos (dvbCrc32_append.mpr h)]
    rfl
  · rw [if_pos h, if_neg (mt dvbCrc32_append.mp h)]
    rfl

theorem crcIo_short (hs : startedAt % 8 = 0) (hal : d.bitpos % 8 = 0) (hfit : d.bitpos + 32 < 2^32)
    (hroom : ¬ d.bitpos + 32 ≤ d.bitlimit) :
    Iox.crcIo startedAt (m := .parseBinary) crc info d = .error (.exception info "left %d bits, needed %d") d := by
  have hread : Ibx.uint32 32 info d = .error (.exception info "left %d bits, needed %d") d := by
    rw [ibx_uint32_apply hfit (by omega), if_neg hroom]
  rw [crcIo_apply hs hal, bind_error hread]

end

/-- Bytes with their checksum behind them are accepted; with some bits changed, all within 32
consecutive ones, they are not. -/
theorem crc_detects_bursts {data error : List UInt8} (hlen : error.length = data.length + 4)
    (hburst : Register.Burst 32 (ofBytes error)) {d : IbCtx} {startedAt : Nat} (hs : startedAt % 8 = 0)
    (hpos : d.bitpos = startedAt + 8 * data.length) (hfit : d.bitpos + 32 < 2^32) (crc : UInt32) (info : Info) :
    (d.bitpos + 32 ≤ d.bitlimit → d.data.read (startedAt/8) (data.length + 4) = data ++ bytes32 (dvbCrc32 data) →
      Iox.crcIo startedAt (m := .parseBinary) crc info d = .ok (dvbCrc32 data) (d.skip 32)) ∧
    (d.data.read (startedAt/8) (data.length + 4) = List.zipWith (· ^^^ ·) (data ++ bytes32 (dvbCrc32 data)) error →
      ∃ message d', Iox.crcIo startedAt (m := .parseBinary) crc info d = .error (.exception info message) d') := by
  have hal : d.bitpos % 8 = 0 := by omega
  constructor
  · intro hroom hread
    have htail : d.data.read (startedAt/8 + data.length) 4 = bytes32 (dvbCrc32 data) := by
      rw [Memory.read_add] at hread
      exact (List.append_inj hread (Memory.read_length _ _ _)).2
    have hnext : d.next 32 = ofNat 32 (dvbCrc32 data).toNat := by
      rw [← ofBytes_bytes32, ← htail, show startedAt/8 + data.length = d.bitpos/8 by omega]
      exact IbCtx.next_bytes hal 4
    rw [crcIo_verdict hs hpos hfit hroom, hread, if_pos (dvbCrc32_append_self data), hnext,
      toNat_ofNat_of_lt (dvbCrc32 data).toNat_lt, UInt32.ofNat_toNat]
  · intro hread
    by_cases hroom : d.bitpos + 32 ≤ d.bitlimit
    · have hsize : (data ++ bytes32 (dvbCrc32 data)).length = error.length := by
        rw [List.length_append, hlen]
        rfl
      have hchanged := dvbCrc32_burst hsize (dvbCrc32_append_self data) hburst
      exact ⟨_, _, (crcIo_verdict hs hpos hfit hroom).trans (if_neg (hread ▸ hchanged))⟩
    · exact ⟨_, _, crcIo_short hs hal hfit hroom⟩

theorem crc_detects_bursts_two : ∃ message d', Iox.crcIo 0 (m := .parseBinary) 0 ⟨chars "CRC", 0⟩
    ⟨8, 40, fun i => (List.zipWith (· ^^^ ·) ([7] ++ bytes32 (dvbCrc32 [7])) [1, 128, 0, 0, 0]).getD i 0, []⟩ =
      .error (.exception ⟨chars "CRC", 0⟩ message) d' := by
  have hlow : ∀ i < 40, (ofBytes [1, 128, 0, 0, 0])[i]? = some true → 7 ≤ i ∧ i < 7+32 := by decide
  have hburst : Register.Burst 32 (ofBytes [1, 128, 0, 0, 0]) :=
    ⟨by decide, 7, fun i hi => hlow i (List.getElem?_eq_some_iff.mp hi).1 hi⟩
  have hlen : ([1, 128, 0, 0, 0] : List UInt8).length = ([7] : List UInt8).length + 4 := rfl
  exact (crc_detects_bursts hlen hburst rfl rfl (by decide) 0 ⟨chars "CRC", 0⟩).2 rfl

end Mopa.Io
