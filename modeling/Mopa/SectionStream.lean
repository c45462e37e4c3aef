import Mopa.MergerBounds

/-! What a stream of section packets is, apart from its bytes on the wire: packets
that continue, close and start sections, and a receiver that carves sections out of
the payloads it holds. Nothing here depends on either implementation. -/
namespace Mopa.SectionStream
open Mopa.Merger (dvbSectionLength dvbSectionLength_ge WellFormed)

/-- Payload of one packet. `pointer` counts the bytes in front of the first section
that starts in it and has a meaning only if `pusi` is set. -/
structure Packet where
  cc : UInt8
  pusi : Bool
  pointer : Nat
  body : List UInt8

/-- Continuity counter of the `i`-th packet of a stream. -/
def ccOf (i : Nat) : UInt8 := UInt8.ofNat (i % 16)

theorem ccOf_step (a b : Nat) : (ccOf a + 1) &&& 0xf = ccOf b ↔ (a+1) % 16 = b % 16 := by
  have ha : a % 16 < 16 := Nat.mod_lt _ (by decide)
  have hb : b % 16 < 16 := Nat.mod_lt _ (by decide)
  rw [Nat.add_mod a 1 16]
  unfold ccOf
  generalize a % 16 = a at ha
  generalize b % 16 = b at hb
  revert a b
  decide

/-- Split collected bytes into complete sections and what waits for more bytes.
`none` means that nothing waits: the bytes ended exactly, in stuffing, or in a
section larger than `max`. -/
def carve (max : Nat) : List UInt8 → List (List UInt8) × Option (List UInt8)
  | t :: b1 :: b2 :: tl =>
    if t = 0xff then ([], none)
    else if dvbSectionLength b1 b2 > max then ([], none)
    else if tl.length + 3 ≥ dvbSectionLength b1 b2 then
      if tl.length + 3 - dvbSectionLength b1 b2 > 0 then
        let r := carve max (tl.drop (dvbSectionLength b1 b2 - 3))
        ((t :: b1 :: b2 :: tl).take (dvbSectionLength b1 b2) :: r.1, r.2)
      else ([t :: b1 :: b2 :: tl], none)
    else ([], some (t :: b1 :: b2 :: tl))
  | t :: tl => if t = 0xff then ([], none) else ([], some (t :: tl))
  | [] => ([], some [])
termination_by bs => bs.length
decreasing_by
  simp only [List.length_drop, List.length_cons]
  omega

theorem carve_stuffing (max : Nat) (rest : List UInt8) : carve max (0xff :: rest) = ([], none) := by
  match rest with
  | [] | [_] | _ :: _ :: _ => simp [carve]

theorem carve_section (max : Nat) (s rest : List UInt8) (hs : WellFormed s) (hmax : s.length ≤ max)
    (hrest : rest ≠ []) :
    carve max (s ++ rest) = (s :: (carve max rest).1, (carve max rest).2) := by
  match s, hs with
  | t :: b1 :: b2 :: tl, ⟨ht, hlen⟩ =>
    have hr : 0 < rest.length := List.length_pos_iff.mpr hrest
    have hL : (t :: b1 :: b2 :: tl).length = dvbSectionLength b1 b2 := by simpa using hlen
    have hdrop : (tl ++ rest).drop (dvbSectionLength b1 b2 - 3) = rest := by
      rw [← hlen]; simp
    have htake : (t :: b1 :: b2 :: (tl ++ rest)).take (dvbSectionLength b1 b2) = t :: b1 :: b2 :: tl := by
      rw [← hL]; simp
    simp only [List.length_cons] at hmax
    simp only [List.cons_append]
    rw [carve, if_neg ht, if_neg (by omega), if_pos (by simp; omega), if_pos (by simp; omega), hdrop,
      htake]

theorem carve_last (max : Nat) (s : List UInt8) (hs : WellFormed s) (hmax : s.length ≤ max) :
    carve max s = ([s], none) := by
  match s, hs with
  | t :: b1 :: b2 :: tl, ⟨ht, hlen⟩ =>
    simp only [List.length_cons] at hmax
    rw [carve, if_neg ht, if_neg (by omega), if_pos (by omega), if_neg (by omega)]

theorem carve_append (max : Nat) (a b : List UInt8) (hs : WellFormed (a ++ b))
    (hmax : (a ++ b).length ≤ max) (ha : a ≠ []) (hb : b ≠ []) : carve max a = ([], some a) := by
  have hbl : 0 < b.length := List.length_pos_iff.mpr hb
  match a, ha with
  | [t], _ =>
    have ht : t ≠ 0xff := by
      match b, hs with
      | _ :: _ :: _, h => exact h.1
    simp [carve, ht]
  | [t, b1], _ =>
    have ht : t ≠ 0xff := by
      match b, hs with
      | _ :: _, h => exact h.1
    simp [carve, ht]
  | t :: b1 :: b2 :: tl, _ =>
    have hs' : t ≠ 0xff ∧ (tl ++ b).length + 3 = dvbSectionLength b1 b2 := hs
    obtain ⟨ht, hlen⟩ := hs'
    simp only [List.length_append, List.length_cons] at hlen hmax
    rw [carve, if_neg ht, if_neg (by omega), if_neg (by omega)]

def Fits (max : Nat) (s : List UInt8) : Prop := WellFormed s ∧ s.length ≤ max

theorem carve_flatten (max : Nat) (ss : List (List UInt8)) (tail : List UInt8)
    (hs : ∀ s ∈ ss, Fits max s) (ht : tail ≠ []) :
    carve max (ss.flatten ++ tail) = (ss ++ (carve max tail).1, (carve max tail).2) := by
  induction ss with
  | nil => simp
  | cons s ss ih =>
    have hcons := hs s List.mem_cons_self
    rw [List.flatten_cons, List.append_assoc, carve_section max s _ hcons.1 hcons.2 (by simp [ht]),
      ih fun s' h' => hs s' (List.mem_cons_of_mem s h')]
    rfl

theorem carve_sections (max : Nat) (ss : List (List UInt8)) (hs : ∀ s ∈ ss, Fits max s)
    (hne : ss ≠ []) : carve max ss.flatten = (ss, none) := by
  obtain ⟨init, s, rfl⟩ : ∃ init s, ss = init ++ [s] :=
    ⟨ss.dropLast, ss.getLast hne, (List.dropLast_append_getLast hne).symm⟩
  have hlast := hs s (by simp)
  have hs0 : s ≠ [] := by
    rintro rfl
    exact hlast.1
  rw [List.flatten_append, List.flatten_singleton,
    carve_flatten max init s (fun s' h' => hs s' (by simp [h'])) hs0,
    carve_last max s hlast.1 hlast.2]

theorem carve_stuffed (max : Nat) (ss : List (List UInt8)) (n : Nat) (hs : ∀ s ∈ ss, Fits max s)
    (hne : ss ≠ []) : carve max (ss.flatten ++ List.replicate n 0xff) = (ss, none) := by
  cases n with
  | zero => simpa using carve_sections max ss hs hne
  | succ n =>
    rw [carve_flatten max ss _ hs (by simp), List.replicate_succ, carve_stuffing]
    simp

/-- Waiting for a section start, or holding the beginning of a section together
with the counter of the packet that brought its last bytes. -/
abbrev Held := Option (UInt8 × List UInt8)

def hold (cc : UInt8) (r : List (List UInt8) × Option (List UInt8)) : Held × List (List UInt8) :=
  (r.2.map fun rest => (cc, rest), r.1)

def absorb (max : Nat) (h : Held) (k : Packet) : Held × List (List UInt8) :=
  match h with
  | none =>
    if k.pusi then hold k.cc (carve max (k.body.drop k.pointer)) else (none, [])
  | some (cc, buf) =>
    if (cc + 1) &&& 0xf = k.cc then hold k.cc (carve max (buf ++ k.body)) else (none, [])

/-- The section a stream is in the middle of: what was sent and what is to come. -/
abbrev Open := Option (List UInt8 × List UInt8)

def Open.todo : Open → List UInt8
  | none => []
  | some (_, todo) => todo

def Open.section : Open → List (List UInt8)
  | none => []
  | some (sent, todo) => [sent ++ todo]

/-- One packet takes the stream from one open section to the next and starts `ss`. -/
inductive Flow : Open → Packet → List (List UInt8) → Open → Prop
  | middle {cc : UInt8} {sent chunk todo : List UInt8} (hchunk : chunk ≠ []) (htodo : todo ≠ []) :
      Flow (some (sent, chunk ++ todo)) ⟨cc, false, 0, chunk⟩ [] (some (sent ++ chunk, todo))
  | close {cc : UInt8} {sent todo : List UInt8} (n : Nat) :
      Flow (some (sent, todo)) ⟨cc, false, 0, todo ++ List.replicate n 0xff⟩ [] none
  | whole {cc : UInt8} {o : Open} {ss : List (List UInt8)} (n : Nat) (hss : ss ≠ []) :
      Flow o ⟨cc, true, o.todo.length, o.todo ++ (ss.flatten ++ List.replicate n 0xff)⟩ ss none
  | head {cc : UInt8} {o : Open} {ss : List (List UInt8)} {sent todo : List UInt8}
      (hsent : sent ≠ []) (htodo : todo ≠ []) :
      Flow o ⟨cc, true, o.todo.length, o.todo ++ (ss.flatten ++ sent)⟩ (ss ++ [sent ++ todo])
        (some (sent, todo))

/-- Packet `i` is the first one with bytes of section `s`. -/
def Starts (holds : Nat → Nat → Prop) (s i : Nat) : Prop := holds s i ∧ ∀ m, holds s m → i ≤ m

/-- A stretch of a stream from packet number `i` and section number `j` on.
`holds s k` has to hold whenever packet `k` carries bytes of section `s`. -/
inductive Chain (holds : Nat → Nat → Prop) :
    Nat → Nat → Open → List Packet → List (List UInt8) → Open → Prop
  | nil {i j : Nat} {o : Open} : Chain holds i j o [] [] o
  | cons {i j : Nat} {o o1 o2 : Open} {k : Packet} {ks : List Packet} {ss ss' : List (List UInt8)}
      (hcc : k.cc = ccOf i) (hflow : Flow o k ss o1) (hcarry : o ≠ none → holds (j-1) i)
      (hnew : ∀ s, j ≤ s → s < j + ss.length → Starts holds s i)
      (rest : Chain holds (i+1) (j + ss.length) o1 ks ss' o2) :
      Chain holds i j o (k :: ks) (ss ++ ss') o2

namespace Chain
variable {holds : Nat → Nat → Prop}

theorem append {i j : Nat} {o o1 o2 : Open} {ks ks' : List Packet} {ss ss' : List (List UInt8)}
    (h : Chain holds i j o ks ss o1)
    (h' : Chain holds (i + ks.length) (j + ss.length) o1 ks' ss' o2) :
    Chain holds i j o (ks ++ ks') (ss ++ ss') o2 := by
  induction h with
  | nil => simpa using h'
  | @cons i j o o1 o2 k ks ss ss1 hcc hflow hcarry hnew rest ih =>
    rw [List.append_assoc]
    refine .cons hcc hflow hcarry hnew (ih ?_)
    simpa only [List.length_cons, List.length_append, Nat.add_assoc, Nat.add_comm 1] using h'

theorem single {i j : Nat} {o o1 : Open} {k : Packet} {ss : List (List UInt8)}
    (hcc : k.cc = ccOf i) (hflow : Flow o k ss o1) (hcarry : o ≠ none → holds (j-1) i)
    (hnew : ∀ s, j ≤ s → s < j + ss.length → Starts holds s i) : Chain holds i j o [k] ss o1 := by
  simpa using Chain.cons hcc hflow hcarry hnew .nil

end Chain

/-- The receiver holds exactly what was sent of the open section. -/
def Synced (i : Nat) (h : Held) : Open → Prop
  | none => h = none
  | some (sent, _) => 0 < i ∧ h = some (ccOf (i-1), sent)

def Open.Good (max : Nat) : Open → Prop
  | none => True
  | some (sent, todo) => sent ≠ [] ∧ Fits max (sent ++ todo)

theorem Flow.good {max : Nat} {o o1 : Open} {k : Packet} {ss : List (List UInt8)}
    (h : Flow o k ss o1) (ho : o.Good max) (hs : ∀ s ∈ ss, Fits max s) : o1.Good max := by
  cases h with
  | middle hchunk htodo => exact ⟨by simp [ho.1], by simpa using ho.2⟩
  | close n => trivial
  | whole n hss => trivial
  | head hsent htodo => exact ⟨hsent, hs _ (by simp)⟩

theorem hold_head (max i : Nat) (ss : List (List UInt8)) (sent todo : List UInt8)
    (hs : ∀ s ∈ ss ++ [sent ++ todo], Fits max s) (hsent : sent ≠ []) (htodo : todo ≠ []) :
    Synced (i+1) (hold (ccOf i) (carve max (ss.flatten ++ sent))).1 (some (sent, todo)) ∧
    (hold (ccOf i) (carve max (ss.flatten ++ sent))).2 = ss := by
  have hlast := hs (sent ++ todo) (by simp)
  rw [carve_flatten max ss sent (fun s h => hs s (by simp [h])) hsent,
    carve_append max sent todo hlast.1 hlast.2 hsent htodo]
  exact ⟨⟨Nat.succ_pos i, rfl⟩, by simp [hold]⟩

theorem absorb_none {max i : Nat} {o o1 : Open} {k : Packet} {ss : List (List UInt8)}
    (hcc : k.cc = ccOf i) (hflow : Flow o k ss o1) (hs : ∀ s ∈ ss, Fits max s) (hp : k.pusi = true) :
    Synced (i+1) (absorb max none k).1 o1 ∧ (absorb max none k).2 ++ o1.section = ss := by
  cases hflow with
  | middle => cases hp
  | close => cases hp
  | @whole cc _ _ n hss =>
    obtain rfl : cc = ccOf i := hcc
    simp only [absorb, if_true, List.drop_left, carve_stuffed max ss n hs hss]
    exact ⟨rfl, by simp [hold, Open.section]⟩
  | @head cc _ ss sent todo hsent htodo =>
    obtain rfl : cc = ccOf i := hcc
    simp only [absorb, if_true, List.drop_left]
    obtain ⟨hsync, hout⟩ := hold_head max i ss sent todo hs hsent htodo
    exact ⟨hsync, by rw [hout]; rfl⟩

theorem absorb_synced {max i : Nat} {sent todo : List UInt8} {o1 : Open} {k : Packet}
    {ss : List (List UInt8)} {h : Held} (hcc : k.cc = ccOf i)
    (hflow : Flow (some (sent, todo)) k ss o1) (hs : ∀ s ∈ ss, Fits max s)
    (hgood : Open.Good max (some (sent, todo))) (hh : Synced i h (some (sent, todo))) :
    Synced (i+1) (absorb max h k).1 o1 ∧ (absorb max h k).2 ++ o1.section = (sent ++ todo) :: ss := by
  obtain ⟨hi, rfl⟩ := hh
  obtain ⟨hsent, ho⟩ := hgood
  have hstep : (ccOf (i-1) + 1) &&& 0xf = ccOf i :=
    (ccOf_step (i-1) i).mpr (by rw [Nat.sub_add_cancel hi])
  simp only [absorb, hcc, hstep, if_true]
  have hcons : ∀ s ∈ (sent ++ todo) :: ss, Fits max s := by
    intro s h'
    rcases List.mem_cons.mp h' with rfl | h'
    · exact ho
    · exact hs s h'
  cases hflow with
  | @middle _ _ chunk todo hchunk htodo =>
    rw [carve_append max (sent ++ chunk) todo (by simpa using ho.1) (by simpa using ho.2)
      (by simp [hsent]) htodo]
    exact ⟨⟨Nat.succ_pos i, rfl⟩, by simp [hold, Open.section]⟩
  | close n =>
    have hc := carve_stuffed max [sent ++ todo] n hcons (by simp)
    rw [List.flatten_singleton, List.append_assoc] at hc
    rw [hc]
    exact ⟨rfl, by simp [hold, Open.section]⟩
  | whole n hss =>
    have hc := carve_stuffed max ((sent ++ todo) :: ss) n hcons (by simp)
    rw [List.flatten_cons, List.append_assoc, List.append_assoc] at hc
    simp only [Open.todo]
    rw [hc]
    exact ⟨rfl, by simp [hold, Open.section]⟩
  | @head _ _ ss sent' todo' hsent' htodo' =>
    obtain ⟨hsync, hout⟩ := hold_head max i ((sent ++ todo) :: ss) sent' todo' hcons hsent' htodo'
    rw [List.flatten_cons, List.append_assoc, List.append_assoc] at hsync hout
    exact ⟨hsync, by simp only [Open.todo]; rw [hout]; rfl⟩

end Mopa.SectionStream
