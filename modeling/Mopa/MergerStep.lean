import Mopa.Merger

/-! What the extractor does with a packet: which of its bytes are read, and which go into the
buffer, behind what is kept there. -/
namespace Mopa.Merger

/-- The first byte behind header and adaptation field, as the packet tells it. -/
def behindAdaptation (p : Memory UInt8) : Nat :=
  if (p 3 >>> 4) &&& 3 = 2 ∨ (p 3 >>> 4) &&& 3 = 3 then 5 + (p 4).toNat else 4

namespace PsiExtractorImpl

/-- The buffer a packet finds: emptied when a new section is waited for. -/
def kept (x : PsiExtractorImpl) : Nat :=
  match x.state with
  | .waitStart => 0
  | .waitMore => x.dataLen

/-- A packet is looked at if it is in sequence, or starts a section that is waited for. -/
def Accepts (x : PsiExtractorImpl) (p : Memory UInt8) : Prop :=
  match x.state with
  | .waitStart => (p 1 >>> 6) &&& 1 = 1
  | .waitMore => (x.cc + 1) &&& 0xf = p 3 &&& 0xf

instance (x : PsiExtractorImpl) (p : Memory UInt8) : Decidable (x.Accepts p) :=
  match h : x.state with
  | .waitStart => decidable_of_iff ((p 1 >>> 6) &&& 1 = 1) (by rw [Accepts, h])
  | .waitMore => decidable_of_iff ((x.cc + 1) &&& 0xf = p 3 &&& 0xf) (by rw [Accepts, h])

/-- The first byte for the buffer. With a section in progress only the pointer field itself
is skipped. -/
def contentAt (x : PsiExtractorImpl) (p : Memory UInt8) : Nat :=
  if (p 1 >>> 6) &&& 1 = 1 then
    match x.state with
    | .waitStart => behindAdaptation p + (1 + (p (behindAdaptation p)).toNat)
    | .waitMore => behindAdaptation p + 1
  else behindAdaptation p

def content (x : PsiExtractorImpl) (p : Memory UInt8) : Option (List UInt8) :=
  if x.Accepts p ∧ x.contentAt p ≤ tsPacketLen then
    some (p.read (x.contentAt p) (tsPacketLen - x.contentAt p))
  else none

/-- The extractor as the packet finds it: its buffer empty when a new section is waited for,
its counter that of the packet. -/
def opened (x : PsiExtractorImpl) (p : Memory UInt8) : PsiExtractorImpl :=
  { x with dataLen := x.kept, cc := p 3 &&& 0xf }

def dropped (x : PsiExtractorImpl) (p : Memory UInt8) : PsiExtractorImpl :=
  { (if x.Accepts p then x.opened p else x) with state := .waitStart }

def handled (x : PsiExtractorImpl) (p : Memory UInt8) : PsiExtractorImpl × List Event :=
  match x.content p with
  | none => (x.dropped p, [])
  | some _ => (x.opened p).appendPayload p (x.contentAt p)

/-- The length bytes that are read: that of the adaptation field, and the pointer field when a
section is waited for. -/
def lengthBytes (x : PsiExtractorImpl) (p : Memory UInt8) : List Nat :=
  if x.Accepts p then
    (if (p 3 >>> 4) &&& 3 = 2 ∨ (p 3 >>> 4) &&& 3 = 3 then [4] else []) ++
      if (p 1 >>> 6) &&& 1 = 1 ∧ x.state = .waitStart ∧ behindAdaptation p ≤ tsPacketLen then [behindAdaptation p] else []
  else []

theorem tsPacket_waitStart (x : PsiExtractorImpl) (p : Memory UInt8) (hs : x.state = .waitStart) :
    x.tsPacket p = if (p 1 >>> 6) &&& 1 = 0 then (x, []) else
      { x with dataLen := 0, cc := p 3 &&& 0xf }.skipAdaptation p ((p 1 >>> 6) &&& 1)
        ((p 3 >>> 4) &&& 3) := by
  obtain ⟨max, cb, st, data, len, cc⟩ := x
  obtain rfl : st = .waitStart := hs
  rfl

theorem tsPacket_waitMore (x : PsiExtractorImpl) (p : Memory UInt8) (hs : x.state = .waitMore) :
    x.tsPacket p = if (x.cc + 1) &&& 0xf ≠ p 3 &&& 0xf then ({ x with state := .waitStart }, []) else
      { x with cc := (x.cc + 1) &&& 0xf }.skipAdaptation p ((p 1 >>> 6) &&& 1)
        ((p 3 >>> 4) &&& 3) := by
  obtain ⟨max, cb, st, data, len, cc⟩ := x
  obtain rfl : st = .waitMore := hs
  rfl

theorem contentAt_ge (x : PsiExtractorImpl) (p : Memory UInt8) : behindAdaptation p ≤ x.contentAt p := by
  unfold contentAt
  split
  · split
    · exact Nat.le_add_right _ _
    · exact Nat.le_succ _
  · exact le_rfl

theorem contentAt_ge_four (x : PsiExtractorImpl) (p : Memory UInt8) : 4 ≤ x.contentAt p := by
  have hge := x.contentAt_ge p
  unfold behindAdaptation at hge
  split at hge
  · omega
  · exact hge

theorem content_eq_some {x : PsiExtractorImpl} {p : Memory UInt8} {bytes : List UInt8} :
    x.content p = some bytes ↔
      (x.Accepts p ∧ x.contentAt p ≤ tsPacketLen) ∧ bytes = p.read (x.contentAt p) (tsPacketLen - x.contentAt p) := by
  unfold content
  split
  · next h => simp only [Option.some.injEq, eq_comm, and_iff_right h]
  · next h => exact iff_of_false (by simp) fun h' => h h'.1

theorem skipPointer_eq (x : PsiExtractorImpl) (p : Memory UInt8) (hpos : behindAdaptation p ≤ tsPacketLen) :
    x.skipPointer p ((p 1 >>> 6) &&& 1) (behindAdaptation p) =
      let r := if x.contentAt p ≤ tsPacketLen then x.appendPayload p (x.contentAt p)
        else ({ x with state := State.waitStart }, [])
      (r.1, (if (p 1 >>> 6) &&& 1 = 1 ∧ x.state = .waitStart then [.fetch (behindAdaptation p)] else []) ++ r.2) := by
  unfold skipPointer contentAt
  dsimp only
  by_cases hpusi : (p 1 >>> 6) &&& 1 = 1
  · simp only [if_pos hpusi]
    cases hs : x.state with
    | waitStart =>
      dsimp only
      by_cases hptr : 1 + (p (behindAdaptation p)).toNat > tsPacketLen - behindAdaptation p
      · rw [if_pos hptr, if_neg (by omega), if_pos ⟨hpusi, rfl⟩]
        rfl
      · rw [if_neg hptr, if_pos (by omega), if_pos ⟨hpusi, rfl⟩]
        rfl
    | waitMore =>
      dsimp only
      by_cases hptr : 1 > tsPacketLen - behindAdaptation p
      · rw [if_pos hptr, if_neg (by omega), if_neg (by simp)]
        rfl
      · rw [if_neg hptr, if_pos (by omega), if_neg (by simp)]
        rfl
  · simp only [if_neg hpusi]
    rw [if_pos hpos, if_neg fun h => hpusi h.1]
    rfl

theorem skipAdaptation_eq (x : PsiExtractorImpl) (p : Memory UInt8) :
    x.skipAdaptation p ((p 1 >>> 6) &&& 1) ((p 3 >>> 4) &&& 3) =
      let r := if x.contentAt p ≤ tsPacketLen then x.appendPayload p (x.contentAt p)
        else ({ x with state := State.waitStart }, [])
      (r.1, ((if (p 3 >>> 4) &&& 3 = 2 ∨ (p 3 >>> 4) &&& 3 = 3 then [4] else []) ++
        if (p 1 >>> 6) &&& 1 = 1 ∧ x.state = State.waitStart ∧ behindAdaptation p ≤ tsPacketLen then [behindAdaptation p]
          else []).map Event.fetch ++ r.2) := by
  have hL : tsPacketLen = 188 := rfl
  have hfetch (hpos : behindAdaptation p ≤ tsPacketLen) :
      (if (p 1 >>> 6) &&& 1 = 1 ∧ x.state = .waitStart ∧ behindAdaptation p ≤ tsPacketLen then [behindAdaptation p]
        else []).map Event.fetch =
        if (p 1 >>> 6) &&& 1 = 1 ∧ x.state = .waitStart then [.fetch (behindAdaptation p)] else [] := by
    by_cases h : (p 1 >>> 6) &&& 1 = 1 ∧ x.state = .waitStart
    · rw [if_pos ⟨h.1, h.2, hpos⟩, if_pos h]
      rfl
    · rw [if_neg fun h' => h ⟨h'.1, h'.2.1⟩, if_neg h]
      rfl
  have hge := x.contentAt_ge p
  unfold skipAdaptation
  dsimp only
  rw [List.map_append]
  by_cases hafc : (p 3 >>> 4) &&& 3 = 2 ∨ (p 3 >>> 4) &&& 3 = 3
  · have hbehind : behindAdaptation p = 4 + (1 + (p 4).toNat) := by
      rw [behindAdaptation, if_pos hafc]
      omega
    simp only [if_pos hafc]
    by_cases hlen : 1 + (p 4).toNat > tsPacketLen - 4
    · rw [if_pos hlen, if_neg (show ¬ x.contentAt p ≤ tsPacketLen by omega), if_neg (by omega)]
      rfl
    · have hpos : behindAdaptation p ≤ tsPacketLen := by omega
      rw [if_neg hlen, ← hbehind, skipPointer_eq x p hpos, hfetch hpos]
      rfl
  · have hbehind : behindAdaptation p = 4 := if_neg hafc
    have hpos : behindAdaptation p ≤ tsPacketLen := by omega
    have hskip := skipPointer_eq x p hpos
    rw [if_neg hafc, hfetch hpos]
    rw [hbehind] at hskip
    simp only [if_neg hafc, hskip, hbehind]
    rfl

theorem bit_cases (b : UInt8) : b &&& 1 = 0 ∨ b &&& 1 = 1 := by
  have hbit : (b &&& 1).toNat = b.toNat % 2 := (UInt8.toNat_and b 1).trans (Nat.and_one_is_mod _)
  rcases Nat.mod_two_eq_zero_or_one b.toNat with h | h
  · exact .inl (UInt8.toNat_inj.mp (hbit.trans h))
  · exact .inr (UInt8.toNat_inj.mp (hbit.trans h))

theorem tsPacket_eq (x : PsiExtractorImpl) (p : Memory UInt8) :
    x.tsPacket p = ((x.handled p).1, (x.lengthBytes p).map .fetch ++ (x.handled p).2) := by
  have haccepted (h : x.Accepts p) : (x.opened p).skipAdaptation p ((p 1 >>> 6) &&& 1) ((p 3 >>> 4) &&& 3) =
      ((x.handled p).1, (x.lengthBytes p).map .fetch ++ (x.handled p).2) := by
    have heq := skipAdaptation_eq (x.opened p) p
    have hat : (x.opened p).contentAt p = x.contentAt p := rfl
    rw [heq, hat, lengthBytes, if_pos h]
    by_cases hfits : x.contentAt p ≤ tsPacketLen
    · have hcontent : x.content p = some _ := if_pos ⟨h, hfits⟩
      rw [if_pos hfits, handled, hcontent]
      rfl
    · have hcontent : x.content p = none := if_neg fun h' => hfits h'.2
      rw [if_neg hfits, handled, hcontent, dropped, if_pos h]
      rfl
  have hrefused (h : ¬ x.Accepts p) : ({ x with state := .waitStart }, []) =
      ((x.handled p).1, (x.lengthBytes p).map .fetch ++ (x.handled p).2) := by
    have hcontent : x.content p = none := if_neg fun h' => h h'.1
    rw [handled, hcontent, lengthBytes, if_neg h, dropped, if_neg h]
    rfl
  cases hs : x.state with
  | waitStart =>
    have hmatch : x.Accepts p ↔ (p 1 >>> 6) &&& 1 = 1 := by rw [Accepts, hs]
    rw [tsPacket_waitStart x p hs]
    rcases bit_cases (p 1 >>> 6) with hpusi | hpusi
    · have hno : ¬ x.Accepts p := fun h => by
        rw [hmatch, hpusi] at h
        exact absurd h (by decide)
      rw [if_pos hpusi, ← hrefused hno]
      obtain ⟨max, cb, st, data, len, cc⟩ := x
      obtain rfl : st = .waitStart := hs
      rfl
    · have hopened : x.opened p = { x with dataLen := 0, cc := p 3 &&& 0xf } := by rw [opened, kept, hs]
      rw [if_neg (by rw [hpusi]; decide), ← hopened]
      exact haccepted (hmatch.mpr hpusi)
  | waitMore =>
    have hmatch : x.Accepts p ↔ (x.cc + 1) &&& 0xf = p 3 &&& 0xf := by rw [Accepts, hs]
    rw [tsPacket_waitMore x p hs]
    by_cases hcc : (x.cc + 1) &&& 0xf = p 3 &&& 0xf
    · have hopened : x.opened p = { x with cc := (x.cc + 1) &&& 0xf } := by rw [opened, kept, hs, hcc]
      rw [if_neg (not_not.mpr hcc), ← hopened]
      exact haccepted (hmatch.mpr hcc)
    · rw [if_pos hcc]
      exact hrefused fun h => hcc (hmatch.mp h)

end PsiExtractorImpl

end Mopa.Merger
