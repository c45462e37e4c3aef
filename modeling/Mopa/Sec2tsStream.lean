import Mopa.Sec2ts
import Mopa.MergerRefinement
import Mathlib.Data.UInt

/-! The packetizer produces a stream: its packets carry one section after the
other, and the packet it holds back carries what was given but not yet sent. -/
namespace Mopa.Sec2ts
open Mopa.SectionStream
open Mopa.Merger (Carries PayloadAt)

/-- What a callback has to do: a length of at most 182, and the first byte of a
field that is not empty tells the length of the rest. -/
def Polite (cb : AdaptationField) : Prop :=
  ∀ k area, (cb k area).1 ≤ 182 ∧ (0 < (cb k area).1 → ((cb k area).2 0).toNat + 1 = (cb k area).1)

def Emits (p : List UInt8) (k : Packet) : Prop :=
  p.length = tsPacketLen ∧ ∀ m : Memory UInt8, m.read 0 tsPacketLen = p → Carries m k

theorem Carries.congr {m m' : Memory UInt8} {k : Packet}
    (h : m.read 0 tsPacketLen = m'.read 0 tsPacketLen) (hm : Carries m k) : Carries m' k := by
  have hL : tsPacketLen = 188 := rfl
  have hL' : Merger.tsPacketLen = 188 := rfl
  have hbyte (i : Nat) (hi : i < 188) : m' i = m i :=
    (Memory.eq_of_read_eq m m' 0 _ h i (Nat.zero_le i) (by omega)).symm
  have hread (o n : Nat) (hn : o + n ≤ 188) : m'.read o n = m.read o n :=
    Memory.read_congr _ _ o n fun i _ hu => hbyte i (by omega)
  obtain ⟨hcc, hstart, pos, hpos, hbody⟩ := hm
  refine ⟨by rw [hbyte 3 (by omega), hcc], by rw [hbyte 1 (by omega), hstart], pos, ?_, ?_⟩
  · rwa [PayloadAt, hbyte 3 (by omega), hbyte 4 (by omega)]
  · have hle : pos ≤ 188 := by
      unfold PayloadAt at hpos
      split at hpos <;> omega
    split
    · next hk =>
      rw [if_pos hk] at hbody
      rw [hbyte pos (by omega), hread _ _ (by omega)]
      exact hbody
    · next hk =>
      rw [if_neg hk] at hbody
      rw [hread _ _ (by omega)]
      exact hbody

theorem emits_of_carries {m : Memory UInt8} {k : Packet} (h : Carries m k) :
    Emits (m.read 0 tsPacketLen) k :=
  ⟨Memory.read_length _ _ _, fun _ hm => Carries.congr hm.symm h⟩

/-- The packetizer after `i` packets with payload. -/
structure Steady (x : Sec2tsImpl) (i : Nat) : Prop where
  pid : x.pid.toNat < 0x2000
  cc : x.cc = ccOf i
  polite : ∀ cb, x.onAdaptationField = some cb → Polite cb

/-- A packet is in preparation; its adaptation field, if any, is in place. -/
structure Begun (x : Sec2tsImpl) (i : Nat) : Prop extends Steady x i where
  lo : 4 ≤ x.payloadStart
  hi : x.payloadStart ≤ 186
  field : 4 < x.payloadStart → (x.tsPacket 4).toNat + 5 = x.payloadStart

theorem Steady.next {x : Sec2tsImpl} {i : Nat} (h : Steady x i) : Steady x.next (i+1) where
  pid := h.pid
  cc := by
    show (x.cc + 1) &&& 0xf = ccOf (i+1)
    rw [h.cc]
    exact (ccOf_step i (i+1)).mpr rfl
  polite := h.polite

theorem Steady.sent {x : Sec2tsImpl} {i : Nat} (h : Steady x i) (u : Bool) (afc : UInt8) :
    Steady (x.fixHeader u afc).next (i+1) :=
  Steady.next (x := x.fixHeader u afc) ⟨h.pid, h.cc, h.polite⟩

theorem Begun.store {x : Sec2tsImpl} {i : Nat} (h : Begun x i) (o : Nat) (bs : List UInt8) (e : Nat)
    (u : Bool) (ho : x.payloadStart ≤ o) :
    Begun { x with tsPacket := x.tsPacket.write o bs, payloadEnd := e, pusi := u } i where
  pid := h.pid
  cc := h.cc
  polite := h.polite
  lo := h.lo
  hi := h.hi
  field := fun hlt => by
    show (x.tsPacket.write o bs 4).toNat + 5 = x.payloadStart
    rw [Memory.write_outside _ _ _ _ (Or.inl (show 4 < o by have : 4 < x.payloadStart := hlt; omega))]
    exact h.field hlt

theorem header_start (pid : UInt16) (hpid : pid.toNat < 0x2000) (u : Bool) :
    ((((if u then 1 else 0 : UInt8) <<< 6) ||| (pid >>> 8).toUInt8) >>> 6) &&& 1 =
      if u then 1 else 0 := by
  obtain ⟨n, hn⟩ : ∃ n : Fin 32, (pid >>> 8).toUInt8 = UInt8.ofNat n := by
    refine ⟨⟨pid.toNat / 256, by omega⟩, UInt8.toNat_inj.mp ?_⟩
    simp [Nat.shiftRight_eq_div_pow]
  rw [hn]
  clear hn
  revert n u
  decide

theorem header_control (i : Nat) (afc : UInt8) (hafc : afc = afcPayload ∨ afc = afcAdaptationAndPayload) :
    ((afc <<< 4) ||| ccOf i) &&& 0xf = ccOf i ∧ (((afc <<< 4) ||| ccOf i) >>> 4) &&& 3 = afc := by
  have hi : i % 16 < 16 := Nat.mod_lt _ (by decide)
  unfold ccOf
  generalize i % 16 = n at hi
  rcases hafc with rfl | rfl
  · revert n; decide
  · revert n; decide

theorem fixHeader_byte (x : Sec2tsImpl) (u : Bool) (afc : UInt8) {o : Nat} (ho : 4 ≤ o) :
    (x.fixHeader u afc).tsPacket o = x.tsPacket o :=
  Memory.write_outside x.tsPacket 0 _ o (Or.inr ((Nat.zero_add 4).trans_le ho))

theorem fixHeader_read (x : Sec2tsImpl) (u : Bool) (afc : UInt8) {o : Nat} (ho : 4 ≤ o) (n : Nat) :
    (x.fixHeader u afc).tsPacket.read o n = x.tsPacket.read o n :=
  Memory.read_congr _ _ o n fun _ hi _ => fixHeader_byte x u afc (ho.trans hi)

theorem fixHeader_write (x : Sec2tsImpl) (u : Bool) (afc : UInt8) {o : Nat} (ho : 4 ≤ o) (bs : List UInt8) :
    { x.fixHeader u afc with tsPacket := (x.fixHeader u afc).tsPacket.write o bs } =
      { x with tsPacket := x.tsPacket.write o bs }.fixHeader u afc := by
  simp only [Sec2tsImpl.fixHeader]
  rw [Memory.write_comm _ _ _ _ _ (.inl ho)]

/-- Bytes that are moved on by one behind a pointer field. -/
theorem read_pointed (m : Memory UInt8) (o n : Nat) (ptr : UInt8) :
    ((m.write (o+1) (m.read o n)).write o [ptr]).read o (n+1) = ptr :: m.read o n := by
  have hsame := Memory.read_write_same m (o+1) (m.read o n)
  rw [Memory.read_length] at hsame
  rw [Memory.read_succ, Memory.read_write_disjoint _ o _ (o+1) _ (Or.inr (Nat.le_refl _)), hsame]
  simp [Memory.write_apply]

theorem Begun.carries {x : Sec2tsImpl} {i : Nat} (h : Begun x i) (u : Bool) (k : Packet)
    (hcc : k.cc = ccOf i) (hu : k.pusi = u)
    (hbody : if u then ∃ ptr : UInt8, ptr.toNat = k.pointer ∧ k.pointer ≤ k.body.length ∧
        x.tsPacket.read x.payloadStart (tsPacketLen - x.payloadStart) = ptr :: k.body
      else x.tsPacket.read x.payloadStart (tsPacketLen - x.payloadStart) = k.body) :
    Carries (x.fixHeader u x.payloadAfc).tsPacket k := by
  have hL : tsPacketLen = 188 := rfl
  have hlo := h.lo
  have hhi := h.hi
  have hafc : x.payloadAfc = afcPayload ∨ x.payloadAfc = afcAdaptationAndPayload := by
    unfold Sec2tsImpl.payloadAfc
    split
    · exact Or.inr rfl
    · exact Or.inl rfl
  obtain ⟨hc, ha⟩ := header_control i x.payloadAfc hafc
  have h1 : (x.fixHeader u x.payloadAfc).tsPacket 1 =
      ((if u then 1 else 0 : UInt8) <<< 6) ||| (x.pid >>> 8).toUInt8 := rfl
  have h3 : (x.fixHeader u x.payloadAfc).tsPacket 3 = (x.payloadAfc <<< 4) ||| ccOf i := by
    rw [← h.cc]
    rfl
  refine ⟨by rw [h3, hc, hcc], by rw [h1, header_start _ h.pid, hu], x.payloadStart, ?_, ?_⟩
  · rw [PayloadAt, h3, ha, fixHeader_byte _ _ _ le_rfl]
    by_cases hlt : 4 < x.payloadStart
    · rw [show x.payloadAfc = afcAdaptationAndPayload from if_pos hlt, if_pos (by decide)]
      have := h.field hlt
      exact ⟨by omega, by show x.payloadStart ≤ 188; omega⟩
    · rw [show x.payloadAfc = afcPayload from if_neg hlt, if_neg (by decide)]
      omega
  · rw [hu]
    cases u with
    | true =>
      obtain ⟨ptr, hptr, hle, hp⟩ := hbody
      have hs : tsPacketLen - x.payloadStart = (tsPacketLen - (x.payloadStart+1)) + 1 := by omega
      rw [hs, Memory.read_succ] at hp
      obtain ⟨rfl, hrest⟩ := List.cons.inj hp
      rw [if_pos rfl, fixHeader_byte _ _ _ hlo, fixHeader_read _ _ _ (by omega)]
      exact ⟨by show x.payloadStart < 188; omega, hptr, hle, hrest.symm⟩
    | false =>
      rw [if_neg (by decide), fixHeader_read _ _ _ hlo]
      exact hbody.symm

/-- The packet has a pointer field and holds the rest of the open section, then
whole sections. -/
structure Pointed (x : Sec2tsImpl) (i : Nat) (o : Open) (fulls : List (List UInt8)) : Prop
    extends Begun x i where
  pusi : x.pusi = true
  le : x.payloadStart ≤ x.payloadEnd
  room : x.payloadEnd ≤ 187
  stored : x.tsPacket.read x.payloadStart (x.payloadEnd - x.payloadStart) =
    UInt8.ofNat o.todo.length :: (o.todo ++ fulls.flatten)

/-- The packet has no pointer field and holds the rest of the open section. -/
structure Carrying (x : Sec2tsImpl) (i : Nat) (todo : List UInt8) : Prop extends Begun x i where
  pusi : x.pusi = false
  le : x.payloadStart ≤ x.payloadEnd
  room : x.payloadEnd ≤ 187
  stored : x.tsPacket.read x.payloadStart (x.payloadEnd - x.payloadStart) = todo
  ne : todo ≠ []

theorem read_stored (x : Sec2tsImpl) (bs : List UInt8) (h : x.payloadStart ≤ x.payloadEnd) :
    (x.tsPacket.write x.payloadEnd bs).read x.payloadStart
        (x.payloadEnd + bs.length - x.payloadStart) =
      x.tsPacket.read x.payloadStart (x.payloadEnd - x.payloadStart) ++ bs := by
  have hr := Memory.read_write_extend x.tsPacket x.payloadStart (x.payloadEnd - x.payloadStart) bs
  rwa [Nat.add_sub_cancel' h, ← Nat.sub_add_comm h] at hr

theorem Pointed.todo_lt {x : Sec2tsImpl} {i : Nat} {o : Open} {fulls : List (List UInt8)}
    (h : Pointed x i o fulls) : o.todo.length < 183 := by
  have hl := congrArg List.length h.stored
  have hlo := h.lo
  have hroom := h.room
  simp only [Memory.read_length, List.length_cons, List.length_append] at hl
  omega

theorem Pointed.push {x : Sec2tsImpl} {i : Nat} {o : Open} {fulls : List (List UInt8)}
    (h : Pointed x i o fulls) (sec : List UInt8) (hfit : x.payloadEnd + sec.length ≤ 187) :
    Pointed { x with
      tsPacket := x.tsPacket.write x.payloadEnd sec
      payloadEnd := (x.payloadEnd + sec.length) % 256 } i o (fulls ++ [sec]) := by
  have hmod : (x.payloadEnd + sec.length) % 256 = x.payloadEnd + sec.length := Nat.mod_eq_of_lt (by omega)
  rw [hmod]
  refine ⟨h.toBegun.store x.payloadEnd sec _ _ h.le, h.pusi, ?_, hfit, ?_⟩
  · exact h.le.trans (Nat.le_add_right _ _)
  · exact (read_stored x sec h.le).trans (by simp [h.stored])

theorem Pointed.full {x : Sec2tsImpl} {i : Nat} {o : Open} {fulls : List (List UInt8)}
    (h : Pointed x i o fulls) (bs : List UInt8) (e : Nat) (hbs : bs.length = tsPacketLen - x.payloadEnd) :
    let x1 : Sec2tsImpl := { x with tsPacket := x.tsPacket.write x.payloadEnd bs, payloadEnd := e }
    Carries (x1.fixHeader true x1.payloadAfc).tsPacket
      ⟨ccOf i, true, o.todo.length, o.todo ++ (fulls.flatten ++ bs)⟩ := by
  intro x1
  have hlt := h.todo_lt
  have hL : tsPacketLen = 188 := rfl
  have hroom := h.room
  refine (h.toBegun.store x.payloadEnd bs e x.pusi h.le).carries true _ rfl rfl ?_
  refine ⟨UInt8.ofNat o.todo.length, ?_, by simp, ?_⟩
  · simp only [UInt8.toNat_ofNat']
    omega
  · have hr := read_stored x bs h.le
    rw [hbs, h.stored, show x.payloadEnd + (tsPacketLen - x.payloadEnd) = tsPacketLen by omega] at hr
    simpa using hr

theorem Carrying.full {x : Sec2tsImpl} {i : Nat} {todo : List UInt8} (h : Begun x i)
    (hle : x.payloadStart ≤ x.payloadEnd) (hroom : x.payloadEnd ≤ 187)
    (hstored : x.tsPacket.read x.payloadStart (x.payloadEnd - x.payloadStart) = todo)
    (bs : List UInt8) (hbs : bs.length = tsPacketLen - x.payloadEnd) :
    let x1 : Sec2tsImpl := { x with tsPacket := x.tsPacket.write x.payloadEnd bs }
    Carries (x1.fixHeader false x1.payloadAfc).tsPacket ⟨ccOf i, false, 0, todo ++ bs⟩ := by
  intro x1
  have hL : tsPacketLen = 188 := rfl
  refine (h.store x.payloadEnd bs x.payloadEnd x.pusi hle).carries false _ rfl rfl ?_
  have hr := read_stored x bs hle
  rw [hbs, hstored, show x.payloadEnd + (tsPacketLen - x.payloadEnd) = tsPacketLen by omega] at hr
  exact hr

theorem Carrying.point {x : Sec2tsImpl} {i : Nat} {sent todo : List UInt8} (h : Carrying x i todo)
    (hroom : x.payloadEnd ≤ 186) :
    Pointed { x with
      tsPacket := (x.tsPacket.write (x.payloadStart + 1)
        (x.tsPacket.read x.payloadStart (x.payloadEnd - x.payloadStart))).write
          x.payloadStart [UInt8.ofNat (x.payloadEnd - x.payloadStart)]
      payloadEnd := (x.payloadEnd + 1) % 256
      pusi := true } i (some (sent, todo)) [] := by
  have hmod : (x.payloadEnd + 1) % 256 = x.payloadEnd + 1 := Nat.mod_eq_of_lt (by omega)
  have hle := h.le
  have hlen : todo.length = x.payloadEnd - x.payloadStart := by rw [← h.stored, Memory.read_length]
  have hb := (h.toBegun.store (x.payloadStart + 1) todo x.payloadEnd x.pusi (Nat.le_succ _)).store
    x.payloadStart [UInt8.ofNat todo.length] (x.payloadEnd + 1) true le_rfl
  rw [hmod, h.stored, ← hlen]
  refine ⟨hb, rfl, ?_, ?_, ?_⟩
  · exact hle.trans (Nat.le_succ _)
  · show x.payloadEnd + 1 ≤ 187
    omega
  · have hread := read_pointed x.tsPacket x.payloadStart (x.payloadEnd - x.payloadStart) (UInt8.ofNat todo.length)
    rw [h.stored, ← Nat.sub_add_comm hle] at hread
    exact hread.trans (congrArg _ (List.append_nil todo).symm)

end Mopa.Sec2ts
