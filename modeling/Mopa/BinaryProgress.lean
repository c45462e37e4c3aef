import Mopa.ParsingProgress

/-! What binary parsing uses up: the bits up to the limit of the innermost block. -/
namespace Mopa.Io
open Bits Outcome Progress

/-- The position is within the limit and at an offset in its byte; blocks that end within a
program have begun in it. -/
def binaryRank : Rank Nat IbCtx where
  Valid p d := d.Good ∧ d.bitpos % 8 = p % 8
  Kept d d' := d'.scopeStack = d.scopeStack ∧ d'.bitlimit = d.bitlimit
  left d := d.bitlimit - d.bitpos
  refl _ := ⟨rfl, rfl⟩
  trans h h' := ⟨h'.1.trans h.1, h'.2.trans h.2⟩

namespace Ibx
variable {d d' : IbCtx} {info : Info} {bound p : Nat}

theorem skip_valid {n k : Nat} (hd : binaryRank.Valid p d) (hroom : d.bitpos + n ≤ d.bitlimit) (hk : k ≤ n) :
    binaryRank.Valid (p + n) (d.skip n) ∧ binaryRank.Kept d (d.skip n) ∧
      binaryRank.left (d.skip n) + k ≤ binaryRank.left d := by
  obtain ⟨hgood, hal⟩ := hd
  refine ⟨⟨⟨hroom, hgood.limit⟩, ?_⟩, ⟨rfl, rfl⟩, ?_⟩
  · show (d.bitpos + n) % 8 = (p + n) % 8
    omega
  · show d.bitlimit - (d.bitpos + n) + k ≤ d.bitlimit - d.bitpos
    omega

theorem uint8_ends {w : Nat} (h0 : 1 ≤ w) (hw : w ≤ 8) :
    Ends binaryRank Halt.Thrown bound p (p + w) (fun _ => 1) (uint8 w info) := by
  intro d hd _
  have happly : Ibx.uint8 w info d = _ := ibx_uint8_apply (hd.1.lt (show 2^31 + w < 2^32 by omega)) hw
  by_cases hroom : d.bitpos + w ≤ d.bitlimit
  · exact endsFrom_ok (happly.trans (if_pos hroom)) (skip_valid hd hroom h0)
  · exact endsFrom_error (happly.trans (if_neg hroom)) ⟨_, _, rfl⟩

theorem uint32_ends {w : Nat} (h0 : 1 ≤ w) (hw : p % 8 + w ≤ 32) :
    Ends binaryRank Halt.Thrown bound p (p + w) (fun _ => 1) (uint32 w info) := by
  intro d hd _
  have happly : Ibx.uint32 w info d = _ := ibx_uint32_apply (hd.1.lt (show 2^31 + w < 2^32 by omega)) (by rw [hd.2]; exact hw)
  by_cases hroom : d.bitpos + w ≤ d.bitlimit
  · exact endsFrom_ok (happly.trans (if_pos hroom)) (skip_valid hd hroom h0)
  · exact endsFrom_error (happly.trans (if_neg hroom)) ⟨_, _, rfl⟩

theorem uint_ends {w : Nat} {var : Variable} {val : var.Word} (h0 : 1 ≤ w) (hw : w ≤ var.width)
    (hal : var = .uint32 → p % 8 + w ≤ 32) :
    Ends binaryRank Halt.Thrown bound p (p + w) (fun _ => 1) (Iox.uint (m := .parseBinary) var w val info) := by
  cases var with
  | uint8 => exact uint8_ends h0 hw
  | uint16 =>
    have hw : w ≤ 16 := hw
    exact (uint32_ends h0 (by omega)).bind fun v => .pure rfl
  | uint32 => exact uint32_ends h0 (hal rfl)

theorem takeBytes_ends {len k : Nat} {message : String} (hp : p % 8 = 0) (hlen : len ≤ 255) (hk : k ≤ 8 * len) :
    Ends binaryRank Halt.Thrown bound p 0 (fun _ => k) fun d =>
      if u32 (d.bitpos + len * 8) > d.bitlimit then throwX info message d else takeBytes len d := by
  intro d hd _
  have hsum : u32 (d.bitpos + len * 8) = d.bitpos + 8 * len := by
    rw [Nat.mul_comm len 8, u32_of_lt (hd.1.lt (show 2^31 + 8 * len < 2^32 by omega))]
  by_cases hroom : d.bitpos + 8 * len ≤ d.bitlimit
  · obtain ⟨hvalid, hrest⟩ := skip_valid hd hroom hk
    refine endsFrom_ok (a := d.data.read (d.bitpos/8) len) ?_ ⟨⟨hvalid.1, ?_⟩, hrest⟩
    · show (if _ then _ else _) = _
      rw [hsum, if_neg (by omega), ibx_takeBytes_apply (hd.1.limit.trans_lt (by decide)) hroom]
    · rw [hvalid.2]
      omega
  · refine endsFrom_error (e := .exception info message) (t := d) ?_ ⟨_, _, rfl⟩
    show (if _ then _ else _) = _
    rw [hsum, if_pos (by omega)]
    rfl

theorem aligned_ends {α : Type} {x : Ibx α} {message : String} {q : Nat} {k : α → Nat} (hp : p % 8 = 0)
    (hx : Ends binaryRank Halt.Thrown bound p q k x) :
    Ends binaryRank Halt.Thrown bound p q k fun d => if d.bitpos % 8 ≠ 0 then throwX info message d else x d := by
  intro d hd hb
  have hal : ¬ d.bitpos % 8 ≠ 0 := by
    have := hd.2
    omega
  exact (hx d hd hb).of_eq (if_neg hal)

theorem namedBlockBegin_closes {b : Nat} (h0 : 1 ≤ b) (hb : b ≤ 16) (hd : binaryRank.Valid p d) :
    (∀ e d1, namedBlockBegin b info d = .error e d1 → e.Thrown) ∧
    ∀ u d1, namedBlockBegin b info d = .ok u d1 → binaryRank.Valid (p + b) d1 ∧
      binaryRank.left d1 ≤ binaryRank.left d ∧ Closes (m := .parseBinary) binaryRank d d1 := by
  obtain ⟨hgood, hal⟩ := hd
  have hpos := hgood.pos
  have hlimit := hgood.limit
  have hlt := d.next_lt b
  have hpow : 2^b ≤ 2^16 := Nat.pow_le_pow_right (by decide) hb
  have happly : Ibx.namedBlockBegin b info d = _ := ibx_namedBlockBegin_apply (by omega) (by omega)
  generalize toNat (d.next b) = len at hlt happly
  by_cases hroom : d.bitpos + b ≤ d.bitlimit
  · rw [if_pos hroom] at happly
    by_cases hal' : (d.bitpos + b) % 8 ≠ 0
    · rw [if_pos hal'] at happly
      exact thrown_of_eq happly
    · rw [if_neg hal'] at happly
      by_cases hfit : d.bitpos + b + 8 * len ≤ d.bitlimit
      · rw [if_pos hfit] at happly
        refine returned_of_eq happly ⟨⟨⟨Nat.le_add_right _ _, hfit.trans hlimit⟩, ?_⟩, ?_, ?_⟩
        · show (d.bitpos + b) % 8 = (p + b) % 8
          omega
        · show d.bitpos + b + 8 * len - (d.bitpos + b) ≤ d.bitlimit - d.bitpos
          omega
        · intro endInfo d2 hd2 hkept hleft
          obtain ⟨hstack, hlim⟩ := hkept
          have hpos2 := hd2.1.pos
          have hend : Ibx.blockEnd endInfo d2 = _ := ibx_blockEnd_apply ⟨info, d.bitpos + b, d.bitlimit⟩ d.scopeStack hstack
          replace hlim : d2.bitlimit = d.bitpos + b + 8 * len := hlim
          replace hleft : d2.bitlimit - d2.bitpos ≤ d.bitpos + b + 8 * len - (d.bitpos + b) := hleft
          split at hend
          · exact thrown_of_eq hend
          · split at hend
            · exact thrown_of_eq hend
            · refine returned_of_eq hend ⟨⟨⟨?_, hlimit⟩, hd2.2⟩, ⟨rfl, rfl⟩, ?_⟩
              · show d2.bitpos ≤ d.bitlimit
                omega
              · show d.bitlimit - d2.bitpos < d.bitlimit - d.bitpos
                omega
      · rw [if_neg hfit] at happly
        exact thrown_of_eq happly
  · rw [if_neg hroom] at happly
    exact thrown_of_eq happly

end Ibx

def binaryParsing : Parsing .parseBinary where
  parsing := rfl
  rank := binaryRank
  congr hpq hc := ⟨hc.1, hc.2.trans hpq⟩
  uint _ _ _ h0 hw hal _ := Ibx.uint_ends h0 hw hal
  shortString hp _ := by
    refine Ibx.aligned_ends hp ((Ibx.uint8_ends (by decide) le_rfl).bind fun len => ?_)
    exact (Ibx.takeBytes_ends (by omega) (by have := len.toNat_lt; omega) (Nat.zero_le _)).mono fun _ => by omega
  fixedString hp hn _ := by
    have hn' := Nat.mod_eq_of_lt (Nat.lt_succ_of_le hn)
    exact Ibx.aligned_ends hp (Ibx.takeBytes_ends hp (hn'.trans_le hn) (by omega))
  sizeLeft d hd _ := endsFrom_ok rfl ⟨hd, binaryRank.refl d, le_rfl⟩
  bitpos d hd _ := endsFrom_ok rfl ⟨hd, binaryRank.refl d, le_rfl⟩
  blockBegin h0 hb _ hc := Ibx.namedBlockBegin_closes h0 hb hc

end Mopa.Io
