import Mopa.StreamReception

/-! The extractor refines the abstract receiver: on packets with a payload it
delivers what `absorb` delivers and holds what `absorb` holds. -/
namespace Mopa.Merger
open Mopa.SectionStream

def Holds (max : Nat) (x : PsiExtractorImpl) (h : Held) : Prop :=
  x.maxSectionSize = max ∧ x.callback = true ∧
  match h with
  | none => x.state = .waitStart
  | some (cc, buf) => x.state = .waitMore ∧ x.cc = cc ∧ x.data.read 0 x.dataLen = buf

/-- Where the payload of a packet begins, behind header and adaptation field. -/
def PayloadAt (p : Memory UInt8) (pos : Nat) : Prop :=
  if (p 3 >>> 4) &&& 3 = 2 ∨ (p 3 >>> 4) &&& 3 = 3 then
    pos = 5 + (p 4).toNat ∧ pos ≤ tsPacketLen
  else pos = 4

/-- The bytes at `p` are a transport packet with the given payload. -/
structure Carries (p : Memory UInt8) (k : Packet) : Prop where
  cc : p 3 &&& 0xf = k.cc
  start : (p 1 >>> 6) &&& 1 = if k.pusi then 1 else 0
  payload : ∃ pos, PayloadAt p pos ∧
    if k.pusi then pos < tsPacketLen ∧ (p pos).toNat = k.pointer ∧ k.pointer ≤ k.body.length ∧
      k.body = p.read (pos+1) (tsPacketLen - (pos+1))
    else k.body = p.read pos (tsPacketLen - pos)

theorem carve_short (max : Nat) (bs : List UInt8) (hlen : bs.length < 3)
    (hff : ¬ (1 ≤ bs.length ∧ bs.head? = some 0xff)) : carve max bs = ([], some bs) := by
  match bs, hlen with
  | [], _ => simp [carve]
  | [t], _ => simp_all [carve]
  | [t, b], _ => simp_all [carve]

@[simp] theorem sections_nil : sections [] = [] := rfl
@[simp] theorem sections_compact (src n : Nat) (evs : List Event) :
    sections (.compact src n :: evs) = sections evs := rfl
@[simp] theorem sections_fetch (pos : Nat) (evs : List Event) :
    sections (.fetch pos :: evs) = sections evs := rfl
@[simp] theorem sections_append (dst src : Nat) (bytes : List UInt8) (evs : List Event) :
    sections (.append dst src bytes :: evs) = sections evs := rfl
@[simp] theorem sections_ready (pos : Nat) (bytes : List UInt8) (evs : List Event) :
    sections (.sectionReady pos bytes :: evs) = bytes :: sections evs := rfl
theorem sections_concat (as bs : List Event) : sections (as ++ bs) = sections as ++ sections bs :=
  List.filterMap_append

theorem read_header (m : Memory UInt8) (o n : Nat) (h : ¬ n < 3) :
    m.read o n = m o :: m (o+1) :: m (o+2) :: m.read (o+3) (n-3) := by
  obtain ⟨d, rfl⟩ := Nat.exists_eq_add_of_le (Nat.le_of_not_lt h)
  rw [Nat.add_comm 3 d, Nat.add_sub_cancel]
  rfl

theorem carve_read (max : Nat) (m : Memory UInt8) (secP n : Nat) :
    carve max (m.read secP n) =
      if 1 ≤ n ∧ m secP = 0xff then ([], none)
      else if n < 3 then ([], some (m.read secP n))
      else
        let size := dvbSectionLength (m (secP+1)) (m (secP+2))
        if size > max then ([], none)
        else if n ≥ size then
          if n - size > 0 then
            let r := carve max (m.read (secP+size) (n-size))
            (m.read secP size :: r.1, r.2)
          else ([m.read secP size], none)
        else ([], some (m.read secP n)) := by
  by_cases hff : 1 ≤ n ∧ m secP = 0xff
  · obtain ⟨d, rfl⟩ := Nat.exists_eq_add_of_le hff.1
    rw [if_pos hff, Nat.add_comm, Memory.read_succ, hff.2, carve_stuffing]
  · rw [if_neg hff]
    by_cases hlen : n < 3
    · rw [if_pos hlen, carve_short _ _ (by simpa using hlen)]
      rintro ⟨h1, h2⟩
      obtain ⟨d, rfl⟩ := Nat.exists_eq_add_of_le (show 1 ≤ n by simpa using h1)
      rw [Nat.add_comm, Memory.read_succ] at h2
      exact hff ⟨by omega, by simpa using h2⟩
    · have ht : m secP ≠ 0xff := fun h => hff ⟨by omega, h⟩
      have hsize := dvbSectionLength_ge (m (secP+1)) (m (secP+2))
      have hcons := read_header m secP n hlen
      rw [if_neg hlen, hcons, carve, if_neg ht, Memory.read_length, show n - 3 + 3 = n by omega]
      dsimp only
      split
      · rfl
      · split
        · next hge =>
          have htake := Memory.read_take m secP n (dvbSectionLength (m (secP+1)) (m (secP+2))) hge
          rw [Memory.read_drop _ _ _ _ (by omega), ← hcons, htake,
            show secP + 3 + (dvbSectionLength (m (secP+1)) (m (secP+2)) - 3) =
              secP + dvbSectionLength (m (secP+1)) (m (secP+2)) by omega,
            show n - 3 - (dvbSectionLength (m (secP+1)) (m (secP+2)) - 3) =
              n - dvbSectionLength (m (secP+1)) (m (secP+2)) by omega]
          split
          · rfl
          · rw [show n = dvbSectionLength (m (secP+1)) (m (secP+2)) by omega]
        · rw [← hcons]
namespace PsiExtractorImpl

theorem moreSections_carve (x : PsiExtractorImpl) (secP : Nat) (hcb : x.callback = true) :
    sections (x.moreSections secP).2 = (carve x.maxSectionSize (x.data.read secP x.dataLen)).1 ∧
    Holds x.maxSectionSize (x.moreSections secP).1
      (hold x.cc (carve x.maxSectionSize (x.data.read secP x.dataLen))).1 := by
  have hcompact (x : PsiExtractorImpl) (secP : Nat) :
      (x.data.write 0 (x.data.read secP x.dataLen)).read 0 x.dataLen = x.data.read secP x.dataLen := by
    simpa using Memory.read_write_same x.data 0 (x.data.read secP x.dataLen)
  rw [carve_read]
  fun_induction moreSections x secP with
  | case1 x secP hff =>
    rw [if_pos hff]
    exact ⟨rfl, rfl, hcb, rfl⟩
  | case2 x secP hff hlen =>
    rw [if_neg hff, if_pos hlen]
    exact ⟨rfl, rfl, hcb, rfl, rfl, hcompact x secP⟩
  | case3 x secP hff hlen size hmax =>
    rw [if_neg hff, if_neg hlen]
    dsimp only
    rw [if_pos hmax]
    exact ⟨rfl, rfl, hcb, rfl⟩
  | case4 x secP hff hlen size hmax hge hno =>
    rw [hcb] at hno
    cases hno
  | case5 x secP hff hlen size hmax hge hno ready hleft x' evs heq ih =>
    rw [if_neg hff, if_neg hlen]
    dsimp only
    rw [if_neg hmax, if_pos hge, if_pos hleft, sections_ready]
    rw [heq, ← carve_read] at ih
    obtain ⟨hout, hheld⟩ := ih hcb
    exact ⟨congrArg (_ :: ·) hout, hheld⟩
  | case6 x secP hff hlen size hmax hge hno ready hleft =>
    rw [if_neg hff, if_neg hlen]
    dsimp only
    rw [if_neg hmax, if_pos hge, if_neg hleft]
    exact ⟨rfl, rfl, hcb, rfl⟩
  | case7 x secP hff hlen size hmax hge =>
    rw [if_neg hff, if_neg hlen]
    dsimp only
    rw [if_neg hmax, if_neg hge]
    exact ⟨rfl, rfl, hcb, rfl, rfl, hcompact x secP⟩

theorem appendPayload_carve (x : PsiExtractorImpl) (p : Memory UInt8) (pos : Nat)
    (hcb : x.callback = true) :
    sections (x.appendPayload p pos).2 = (carve x.maxSectionSize
      (x.data.read 0 x.dataLen ++ p.read pos (tsPacketLen - pos))).1 ∧
    Holds x.maxSectionSize (x.appendPayload p pos).1 (hold x.cc (carve x.maxSectionSize
      (x.data.read 0 x.dataLen ++ p.read pos (tsPacketLen - pos)))).1 := by
  have h := moreSections_carve { x with
    data := x.data.write x.dataLen (p.read pos (tsPacketLen - pos)),
    dataLen := x.dataLen + (tsPacketLen - pos) } 0 hcb
  have hread := Memory.read_write_extend x.data 0 x.dataLen (p.read pos (tsPacketLen - pos))
  simp only [Nat.zero_add, Memory.read_length] at hread
  simp only [hread] at h
  exact h

theorem sections_tsPacket (x : PsiExtractorImpl) (p : Memory UInt8) :
    sections (x.tsPacket p).2 = sections (x.handled p).2 := by
  have hfetches : sections ((x.lengthBytes p).map .fetch) = [] :=
    List.filterMap_eq_nil_iff.mpr fun e he => by
      obtain ⟨pos, -, rfl⟩ := List.mem_map.mp he
      rfl
  rw [tsPacket_eq, sections_concat, hfetches, List.nil_append]

theorem behindAdaptation_payload {p : Memory UInt8} {pos : Nat} (h : PayloadAt p pos) :
    behindAdaptation p = pos ∧ pos ≤ tsPacketLen := by
  unfold PayloadAt at h
  unfold behindAdaptation
  split at h
  · next hafc => exact ⟨(if_pos hafc).trans h.1.symm, h.2⟩
  · next hafc =>
    rw [h]
    exact ⟨if_neg hafc, by decide⟩

theorem content_carried {x : PsiExtractorImpl} {p : Memory UInt8} {k : Packet} (hp : Carries p k) (ha : x.Accepts p) :
    x.content p = some (match x.state with
      | .waitStart => k.body.drop k.pointer
      | .waitMore => k.body) := by
  obtain ⟨-, hstart, pos, hpos, hbody⟩ := hp
  obtain ⟨hbehind, hle⟩ := behindAdaptation_payload hpos
  refine content_eq_some.mpr ⟨⟨ha, ?_⟩, ?_⟩
  · unfold contentAt
    rw [hstart, hbehind]
    by_cases hk : k.pusi = true
    · simp only [hk, if_true] at hbody ⊢
      obtain ⟨hlt, hptr, hbound, hbody⟩ := hbody
      have hlen : k.body.length = tsPacketLen - (pos+1) := by rw [hbody, Memory.read_length]
      split
      · omega
      · exact hlt
    · rw [if_neg hk, if_neg (by decide)]
      exact hle
  · unfold contentAt
    rw [hstart, hbehind]
    by_cases hk : k.pusi = true
    · simp only [hk, if_true] at hbody ⊢
      obtain ⟨hlt, hptr, hbound, hbody⟩ := hbody
      cases x.state with
      | waitStart =>
        dsimp only
        rw [hptr, hbody, Memory.read_drop _ _ _ _ (by rw [hbody, Memory.read_length] at hbound; exact hbound)]
        congr 1
        all_goals omega
      | waitMore => exact hbody
    · rw [if_neg hk] at hbody
      rw [if_neg hk, if_neg (by decide)]
      cases hs : x.state with
      | waitStart =>
        rw [Accepts, hs] at ha
        dsimp only at ha
        rw [hstart, if_neg hk] at ha
        exact absurd ha (by decide)
      | waitMore => exact hbody

theorem tsPacket_absorb (max : Nat) (x : PsiExtractorImpl) (p : Memory UInt8) (h : Held) (k : Packet)
    (hp : Carries p k) (hx : Holds max x h) :
    Holds max (x.tsPacket p).1 (absorb max h k).1 ∧
    sections (x.tsPacket p).2 = (absorb max h k).2 := by
  obtain ⟨rfl, hcb, hx⟩ := hx
  have haccepted (ha : x.Accepts p) {bytes : List UInt8} (hcontent : x.content p = some bytes) :
      sections (x.handled p).2 = (carve x.maxSectionSize (x.data.read 0 x.kept ++ bytes)).1 ∧
        Holds x.maxSectionSize (x.handled p).1 (hold k.cc (carve x.maxSectionSize (x.data.read 0 x.kept ++ bytes))).1 := by
    obtain ⟨-, rfl⟩ := content_eq_some.mp hcontent
    rw [handled, hcontent, ← hp.cc]
    exact appendPayload_carve (x.opened p) p (x.contentAt p) hcb
  rw [sections_tsPacket, tsPacket_eq]
  cases h with
  | none =>
    have hs : x.state = .waitStart := hx
    by_cases hk : k.pusi = true
    · have ha : x.Accepts p := by
        rw [Accepts, hs]
        exact hp.start.trans (if_pos hk)
      obtain ⟨hout, hheld⟩ := haccepted ha (content_carried hp ha)
      rw [hs, kept, hs] at hout hheld
      simp only [absorb, hk, if_true]
      exact ⟨hheld, hout⟩
    · have hno : ¬ x.Accepts p := by
        rw [Accepts, hs]
        dsimp only
        rw [hp.start, if_neg hk]
        decide
      have hcontent : x.content p = none := if_neg fun h => hno h.1
      rw [handled, hcontent, dropped, if_neg hno]
      simp only [hk, absorb, Bool.false_eq_true, if_false, sections_nil, and_true]
      exact ⟨rfl, hcb, rfl⟩
  | some held =>
    obtain ⟨cc, buf⟩ := held
    obtain ⟨hs, hcc, hbuf⟩ := hx
    subst hcc hbuf
    have hiff : x.Accepts p ↔ (x.cc + 1) &&& 0xf = k.cc := by rw [Accepts, hs, hp.cc]
    by_cases hstep : (x.cc + 1) &&& 0xf = k.cc
    · obtain ⟨hout, hheld⟩ := haccepted (hiff.mpr hstep) (content_carried hp (hiff.mpr hstep))
      rw [hs, kept, hs] at hout hheld
      simp only [absorb, hstep, if_true]
      exact ⟨hheld, hout⟩
    · have hno := mt hiff.mp hstep
      have hcontent : x.content p = none := if_neg fun h => hno h.1
      rw [handled, hcontent, dropped, if_neg hno]
      simp only [absorb, hstep, if_false, sections_nil, and_true]
      exact ⟨rfl, hcb, rfl⟩

end PsiExtractorImpl

theorem run_absorb (max : Nat) {ps : List (Memory UInt8)} {ks : List Packet}
    (hps : List.Forall₂ Carries ps ks) (x : PsiExtractorImpl) (h : Held) (hx : Holds max x h) :
    sections (Machine.run PsiExtractorImpl.tsPacket x ps).2 = (Machine.run (absorb max) h ks).2 :=
  (Machine.run_simulates PsiExtractorImpl.tsPacket (absorb max) (Holds max) Carries sections id
    sections_concat (fun _ _ => rfl) rfl
    (fun x h p k hk hx => x.tsPacket_absorb max p h k hk hx) hps x h hx).2

theorem create_holds (maxSectionSize : Nat) (data : Memory UInt8) :
    Holds (min maxSectionSize 4096) ((create maxSectionSize data).onSectionReady true) none :=
  ⟨rfl, rfl, rfl⟩

end Mopa.Merger
