import Mopa.StreamChunks
import Mopa.TsRoundTrip

/-! Sections that are too large for the receiver. It gives such a section up as soon as it
sees the length, and with it the rest of the packet. -/
namespace Mopa.SectionStream
open Mopa.Merger (dvbSectionLength dvbSectionLength_ge WellFormed)

/-- The number of the packet that carries byte `n` of a stream. -/
def packetOf : List (List StreamByte) → Nat → Nat
  | [], _ => 0
  | chunk :: chunks, n => if n < chunk.length then 0 else packetOf chunks (n - chunk.length) + 1

/-- The sections that get through, with `n` bytes of the stream in front of them. A section
of more than `max` bytes is given up in the packet of its third byte; `reset` is the packet in
which that happened last, and a section that starts there is not seen. -/
def admitted (max : Nat) (packet : Nat → Nat) : Nat → Option Nat → List (List UInt8) → List (List UInt8)
  | _, _, [] => []
  | n, reset, s :: ss =>
    if reset = some (packet n) then admitted max packet (n + s.length) reset ss
    else if s.length ≤ max then s :: admitted max packet (n + s.length) reset ss
    else admitted max packet (n + s.length) (some (packet (n+2))) ss

/-- The chunks from number `i` on, with `n` bytes in front of them, are where `packet` says. -/
def Layout (packet : Nat → Nat) : Nat → Nat → List (List StreamByte) → Prop
  | _, _, [] => True
  | i, n, chunk :: chunks =>
    (∀ m, n ≤ m → m < n + chunk.length → packet m = i) ∧ Layout packet (i+1) (n + chunk.length) chunks

theorem layout_of_eq {packet : Nat → Nat} {i n : Nat} {chunks : List (List StreamByte)}
    (h : ∀ m, n ≤ m → packet m = i + packetOf chunks (m - n)) : Layout packet i n chunks := by
  induction chunks generalizing i n with
  | nil => trivial
  | cons chunk chunks ih =>
    refine ⟨fun m hl hu => ?_, ih fun m hl => ?_⟩
    · rw [h m hl, packetOf, if_pos (by omega)]
      rfl
    · rw [h m (by omega), packetOf, if_neg (by omega), Nat.sub_sub, Nat.add_assoc, Nat.add_comm 1]

theorem layout_packetOf (chunks : List (List StreamByte)) : Layout (packetOf chunks) 0 0 chunks :=
  layout_of_eq fun _ _ => (Nat.zero_add _).symm

theorem wellFormed_length {s : List UInt8} (h : WellFormed s) : 3 ≤ s.length := by
  match s, h with
  | _ :: _ :: _ :: _, _ => simp

theorem wellFormed_head {s : List UInt8} (h : WellFormed s) : s.head? ≠ some 0xff := by
  match s, h with
  | _ :: _ :: _ :: _, h => exact fun heq => h.1 (Option.some.inj heq)

theorem carve_oversized {max : Nat} {a b : List UInt8} (hs : WellFormed (a ++ b)) (hmax : max < (a ++ b).length)
    (ha : 3 ≤ a.length) (rest : List UInt8) : carve max (a ++ rest) = ([], none) := by
  match a, ha with
  | t :: b1 :: b2 :: tl, _ =>
    obtain ⟨ht, hlen⟩ : t ≠ 0xff ∧ (tl ++ b).length + 3 = dvbSectionLength b1 b2 := hs
    simp only [List.length_append, List.length_cons] at hlen hmax
    show carve max (t :: b1 :: b2 :: (tl ++ rest)) = _
    rw [carve, if_neg ht, if_pos (by omega)]

theorem carve_beginning {max : Nat} {a b : List UInt8} (hs : WellFormed (a ++ b)) (ha : a ≠ []) (hlen : a.length < 3) :
    carve max a = ([], some a) := by
  refine Merger.carve_short max a hlen fun hff => wellFormed_head hs ?_
  rw [List.head?_append_of_ne_nil a ha, hff.2]

/-- The receiver in front of packet `i`, which byte `n` of the stream begins: it waits, or it
holds the beginning of a section that it sees and that it cannot have given up yet. The
sections that are still to come through are `ts`, from byte `m` on, and those that start later. -/
inductive Tracks (max : Nat) (packet : Nat → Nat) (i n : Nat) (reset : Option Nat) :
    Held → Open → Nat → List (List UInt8) → Prop
  | waiting {o : Open} {m : Nat} (hreset : ∀ p ∈ reset, p < i) (hm : m = n + o.todo.length) :
      Tracks max packet i n reset none o m []
  | holding {sent todo : List UInt8} {m : Nat} (hreset : ∀ p ∈ reset, p < i) (hm : n = m + sent.length) (hi : 0 < i)
      (hsent : sent ≠ []) (hseen : reset ≠ some (packet m)) (hfit : (sent ++ todo).length ≤ max ∨ sent.length < 3) :
      Tracks max packet i n reset (some (ccOf (i-1), sent)) (some (sent, todo)) m [sent ++ todo]

/-- The sections `ts`, from byte `m` on, start in packet `i`. -/
def Starting (packet : Nat → Nat) (i : Nat) : Nat → List (List UInt8) → Prop
  | _, [] => True
  | m, s :: ts => packet m = i ∧ Starting packet i (m + s.length) ts

/-- What the receiver delivers and holds at the end of packet `i` is what gets through of `ts`,
from byte `m` on. Byte `n` of the stream begins the next packet. -/
def Yields (max : Nat) (packet : Nat → Nat) (i n : Nat) (reset : Option Nat) (m : Nat)
    (r : Held × List (List UInt8)) (ts : List (List UInt8)) (o : Open) : Prop :=
  ∃ reset' m' ts', Tracks max packet (i+1) n reset' r.1 o m' ts' ∧
    ∀ rest, admitted max packet m reset (ts ++ rest) = r.2 ++ admitted max packet m' reset' (ts' ++ rest)

theorem admitted_unseen {max : Nat} {packet : Nat → Nat} {i m : Nat} {ts : List (List UInt8)} (h : Starting packet i m ts)
    (rest : List (List UInt8)) :
    admitted max packet m (some i) (ts ++ rest) = admitted max packet (m + ts.flatten.length) (some i) rest := by
  induction ts generalizing m with
  | nil => rfl
  | cons s ts ih =>
    rw [List.cons_append, admitted, if_pos (by rw [h.1]), ih h.2, List.flatten_cons, List.length_append, Nat.add_assoc]

namespace Yields
variable {max : Nat} {packet : Nat → Nat} {i n m : Nat} {reset : Option Nat} {ts : List (List UInt8)} {o : Open}

theorem unseen (hts : Starting packet i m ts) (hn : n + o.todo.length = m + ts.flatten.length) :
    Yields max packet i n (some i) m (none, []) ts o := by
  refine ⟨some i, m + ts.flatten.length, [], .waiting (fun p hp => ?_) hn.symm, fun rest => admitted_unseen hts rest⟩
  obtain rfl := Option.some.inj hp
  exact Nat.lt_succ_self _

theorem stuffing (hreset : ∀ p ∈ reset, p < i) (k : Nat) :
    Yields max packet i n reset n (hold (ccOf i) (carve max (List.replicate (k+1) 0xff))) [] none := by
  rw [List.replicate_succ, carve_stuffing]
  exact ⟨reset, n, [], .waiting (fun p hp => Nat.lt_succ_of_lt (hreset p hp)) rfl, fun rest => rfl⟩

theorem section_cons {s rest : List UInt8} (hs : WellFormed s) (hseen : reset ≠ some (packet m)) (hrest : rest ≠ [])
    (hthird : max < s.length → packet (m+2) = i) (hts : Starting packet i (m + s.length) ts)
    (hn : n + o.todo.length = m + s.length + ts.flatten.length)
    (h : s.length ≤ max → Yields max packet i n reset (m + s.length) (hold (ccOf i) (carve max rest)) ts o) :
    Yields max packet i n reset m (hold (ccOf i) (carve max (s ++ rest))) (s :: ts) o := by
  by_cases hmax : s.length ≤ max
  · obtain ⟨reset', m', ts', htracks, hout⟩ := h hmax
    rw [carve_section max s rest hs hmax hrest]
    refine ⟨reset', m', ts', htracks, fun rest => ?_⟩
    rw [List.cons_append, admitted, if_neg hseen, if_pos hmax, hout]
    rfl
  · have hlarge := Nat.lt_of_not_le hmax
    have hcarve := carve_oversized (b := []) (by rwa [List.append_nil]) (by rwa [List.append_nil]) (wellFormed_length hs) rest
    obtain ⟨reset', m', ts', htracks, hout⟩ : Yields max packet i n (some i) (m + s.length) (none, []) ts o := unseen hts hn
    rw [hcarve]
    refine ⟨reset', m', ts', htracks, fun rest => ?_⟩
    rw [List.cons_append, admitted, if_neg hseen, if_neg hmax, hthird hlarge, hout]
    rfl

theorem section_last {s : List UInt8} (hs : WellFormed s) (hseen : reset ≠ some (packet m)) (hreset : ∀ p ∈ reset, p < i)
    (hthird : max < s.length → packet (m+2) = i) (hn : n = m + s.length) :
    Yields max packet i n reset m (hold (ccOf i) (carve max s)) [s] none := by
  by_cases hmax : s.length ≤ max
  · rw [carve_last max s hs hmax]
    refine ⟨reset, n, [], .waiting (fun p hp => Nat.lt_succ_of_lt (hreset p hp)) rfl, fun rest => ?_⟩
    rw [List.singleton_append, admitted, if_neg hseen, if_pos hmax, hn]
    rfl
  · have hlarge := Nat.lt_of_not_le hmax
    have hcarve := carve_oversized (b := []) (by rwa [List.append_nil]) (by rwa [List.append_nil]) (wellFormed_length hs) []
    rw [List.append_nil] at hcarve
    rw [hcarve]
    refine ⟨some i, n, [], .waiting (fun p hp => ?_) rfl, fun rest => ?_⟩
    · obtain rfl := Option.some.inj hp
      exact Nat.lt_succ_self _
    · rw [List.singleton_append, admitted, if_neg hseen, if_neg hmax, hthird hlarge, hn]
      rfl

theorem section_open {sent todo : List UInt8} (hs : WellFormed (sent ++ todo)) (hsent : sent ≠ []) (htodo : todo ≠ [])
    (hseen : reset ≠ some (packet m)) (hreset : ∀ p ∈ reset, p < i)
    (hthird : 3 ≤ sent.length → max < (sent ++ todo).length → packet (m+2) = i) (hn : n = m + sent.length) :
    Yields max packet i n reset m (hold (ccOf i) (carve max sent)) [sent ++ todo] (some (sent, todo)) := by
  have hholds (hfit : (sent ++ todo).length ≤ max ∨ sent.length < 3) (hcarve : carve max sent = ([], some sent)) :
      Yields max packet i n reset m (hold (ccOf i) (carve max sent)) [sent ++ todo] (some (sent, todo)) := by
    rw [hcarve]
    exact ⟨reset, m, [sent ++ todo], .holding (fun p hp => Nat.lt_succ_of_lt (hreset p hp)) hn (Nat.succ_pos i) hsent hseen
      hfit, fun rest => rfl⟩
  by_cases hmax : (sent ++ todo).length ≤ max
  · exact hholds (.inl hmax) (carve_append max sent todo hs hmax hsent htodo)
  · by_cases hlen : sent.length < 3
    · exact hholds (.inr hlen) (carve_beginning hs hsent hlen)
    · have hlarge := Nat.lt_of_not_le hmax
      have hcarve := carve_oversized hs hlarge (Nat.le_of_not_lt hlen) []
      rw [List.append_nil] at hcarve
      rw [hcarve]
      refine ⟨some i, m + (sent ++ todo).length, [], .waiting (fun p hp => ?_) ?_, fun rest => ?_⟩
      · obtain rfl := Option.some.inj hp
        exact Nat.lt_succ_self _
      · show m + (sent ++ todo).length = n + todo.length
        rw [hn, List.length_append, Nat.add_assoc]
      · rw [List.singleton_append, admitted, if_neg hseen, if_neg hmax, hthird (Nat.le_of_not_lt hlen) hlarge]
        rfl

theorem starting_append {ss : List (List UInt8)} (hss : ∀ s ∈ ss, WellFormed s)
    (hpacket : ∀ b, m ≤ b → b < m + ss.flatten.length → packet b = i) (hts : Starting packet i (m + ss.flatten.length) ts) :
    Starting packet i m (ss ++ ts) := by
  induction ss generalizing m with
  | nil => exact hts
  | cons s ss ih =>
    have hlen := wellFormed_length (hss s List.mem_cons_self)
    rw [List.flatten_cons, List.length_append] at hpacket hts
    refine ⟨hpacket m le_rfl (by omega), ih (fun s' hs' => hss s' (List.mem_cons_of_mem s hs')) (fun b hl hu => ?_) ?_⟩
    · exact hpacket b (by omega) (by omega)
    · rwa [Nat.add_assoc]

theorem sections_append {ss : List (List UInt8)} {tail : List UInt8} (hss : ∀ s ∈ ss, WellFormed s)
    (hreset : ∀ p ∈ reset, p < i) (htail : tail ≠ []) (hpacket : ∀ b, m ≤ b → b < m + ss.flatten.length → packet b = i)
    (hts : Starting packet i (m + ss.flatten.length) ts) (hn : n + o.todo.length = m + ss.flatten.length + ts.flatten.length)
    (h : Yields max packet i n reset (m + ss.flatten.length) (hold (ccOf i) (carve max tail)) ts o) :
    Yields max packet i n reset m (hold (ccOf i) (carve max (ss.flatten ++ tail))) (ss ++ ts) o := by
  induction ss generalizing m with
  | nil => exact h
  | cons s ss ih =>
    have hs := hss s List.mem_cons_self
    have hss' : ∀ s' ∈ ss, WellFormed s' := fun s' hs' => hss s' (List.mem_cons_of_mem s hs')
    have hlen := wellFormed_length hs
    rw [List.flatten_cons, List.length_append] at hpacket hts hn h
    rw [← Nat.add_assoc] at hts hn h
    have hpacket' (b : Nat) (hl : m + s.length ≤ b) (hu : b < m + s.length + ss.flatten.length) : packet b = i :=
      hpacket b (by omega) (by omega)
    rw [List.flatten_cons, List.append_assoc]
    refine section_cons hs ?_ (by simp [htail]) (fun _ => hpacket (m+2) (by omega) (by omega))
      (starting_append hss' hpacket' hts) ?_ fun _ => ih hss' hpacket' hts hn h
    · rw [hpacket m le_rfl (by omega)]
      exact fun heq => Nat.lt_irrefl i (hreset i heq)
    · show _ = m + s.length + (ss ++ ts).flatten.length
      rw [hn, List.flatten_append, List.length_append, Nat.add_assoc]

theorem whole {ss : List (List UInt8)} (hss : ∀ s ∈ ss, WellFormed s) (hne : ss ≠ []) (hreset : ∀ p ∈ reset, p < i) (k : Nat)
    (hpacket : ∀ b, m ≤ b → b < m + ss.flatten.length → packet b = i) (hn : n = m + ss.flatten.length) :
    Yields max packet i n reset m (hold (ccOf i) (carve max (ss.flatten ++ List.replicate k 0xff))) ss none := by
  cases k with
  | succ k =>
    have hrest : Yields max packet i n reset n (hold (ccOf i) (carve max (List.replicate (k+1) 0xff))) [] none :=
      stuffing hreset k
    rw [hn] at hrest ⊢
    have h : Yields max packet i _ reset m _ (ss ++ []) none :=
      sections_append hss hreset (List.replicate_succ ▸ List.cons_ne_nil _ _) hpacket trivial rfl hrest
    rwa [List.append_nil] at h
  | zero =>
    obtain ⟨init, s, rfl⟩ : ∃ init s, ss = init ++ [s] :=
      ⟨ss.dropLast, ss.getLast hne, (List.dropLast_append_getLast hne).symm⟩
    have hs := hss s (by simp)
    have hlen := wellFormed_length hs
    rw [List.flatten_append, List.flatten_singleton, List.length_append] at hpacket hn
    rw [List.flatten_append, List.flatten_singleton, List.replicate_zero, List.append_nil]
    have hstart : packet (m + init.flatten.length) = i := hpacket _ (by omega) (by omega)
    refine sections_append (fun s' hs' => hss s' (by simp [hs'])) hreset (List.ne_nil_of_length_pos (by omega))
      (fun b hl hu => hpacket b hl (by omega)) ⟨hstart, trivial⟩ ?_ (section_last hs ?_ hreset (fun _ => ?_) ?_)
    · rw [hn, List.flatten_singleton, ← Nat.add_assoc]
      rfl
    · rw [hstart]
      exact fun heq => Nat.lt_irrefl i (hreset i heq)
    · exact hpacket _ (by omega) (by omega)
    · rw [hn, Nat.add_assoc]

theorem head {ss : List (List UInt8)} {sent todo : List UInt8} (hss : ∀ s ∈ ss ++ [sent ++ todo], WellFormed s)
    (hsent : sent ≠ []) (htodo : todo ≠ []) (hreset : ∀ p ∈ reset, p < i)
    (hpacket : ∀ b, m ≤ b → b < m + (ss.flatten.length + sent.length) → packet b = i)
    (hn : n = m + (ss.flatten.length + sent.length)) :
    Yields max packet i n reset m (hold (ccOf i) (carve max (ss.flatten ++ sent))) (ss ++ [sent ++ todo]) (some (sent, todo)) := by
  have hpos := List.length_pos_iff.mpr hsent
  have hstart : packet (m + ss.flatten.length) = i := hpacket _ (by omega) (by omega)
  refine sections_append (fun s' hs' => hss s' (by simp [hs'])) hreset hsent (fun b hl hu => hpacket b hl (by omega))
    ⟨hstart, trivial⟩ ?_ (section_open (hss _ (by simp)) hsent htodo ?_ hreset (fun h3 _ => ?_) ?_)
  · show n + todo.length = _
    rw [hn, List.flatten_singleton, List.length_append]
    omega
  · rw [hstart]
    exact fun heq => Nat.lt_irrefl i (hreset i heq)
  · exact hpacket _ (by omega) (by omega)
  · rw [hn, Nat.add_assoc]

end Yields

theorem Flow.yields {max : Nat} {packet : Nat → Nat} {i n len m : Nat} {reset : Option Nat} {h : Held} {o o1 : Open}
    {k : Packet} {ss ts : List (List UInt8)} (hflow : Flow o k ss o1) (hcc : k.cc = ccOf i)
    (hss : ∀ s ∈ o.section ++ ss, WellFormed s) (hlen : len + o1.todo.length = o.todo.length + ss.flatten.length)
    (hpacket : ∀ b, n ≤ b → b < n + len → packet b = i) (ht : Tracks max packet i n reset h o m ts) :
    Yields max packet i (n + len) reset m (absorb max h k) (ts ++ ss) o1 := by
  cases ht with
  | waiting hreset hm =>
    have hss' : ∀ s ∈ ss, WellFormed s := fun s hs => hss s (List.mem_append_right _ hs)
    have hwaits (hno : ss = []) : Yields max packet i (n + len) reset m (none, []) ss o1 := by
      subst hno
      rw [List.flatten_nil, List.length_nil] at hlen
      exact ⟨reset, m, [], .waiting (fun p hp => Nat.lt_succ_of_lt (hreset p hp)) (by omega), fun rest => rfl⟩
    cases hflow with
    | middle hchunk htodo => exact hwaits rfl
    | close k => exact hwaits rfl
    | @whole cc o ss k hne =>
      obtain rfl : cc = ccOf i := hcc
      have hlen : len = o.todo.length + ss.flatten.length := hlen
      simp only [absorb, if_true, List.drop_left]
      exact .whole hss' hne hreset k (fun b hl hu => hpacket b (by omega) (by omega)) (by omega)
    | @head cc o ss sent todo hsent htodo =>
      obtain rfl : cc = ccOf i := hcc
      have hlen : len + todo.length = o.todo.length + (ss ++ [sent ++ todo]).flatten.length := hlen
      rw [List.flatten_append, List.length_append, List.flatten_singleton, List.length_append] at hlen
      simp only [absorb, if_true, List.drop_left]
      exact .head hss' hsent htodo hreset (fun b hl hu => hpacket b (by omega) (by omega)) (by omega)
  | @holding sent todo m hreset hm hi hsent hseen hfit =>
    have hs : WellFormed (sent ++ todo) := hss _ (by simp [Open.section])
    have hss' : ∀ s ∈ ss, WellFormed s := fun s hs => hss s (List.mem_append_right _ hs)
    have hthree := wellFormed_length hs
    have hstep : (ccOf (i-1) + 1) &&& 0xf = ccOf i := (ccOf_step (i-1) i).mpr (by rw [Nat.sub_add_cancel hi])
    rw [List.length_append] at hthree
    -- a section that is too large has not shown its length before
    have hthird (hin : m + 2 < n + len) (hlarge : max < (sent ++ todo).length) : packet (m+2) = i := by
      rcases hfit with hfit | hshort
      · omega
      · exact hpacket _ (by omega) hin
    have hlen : len + o1.todo.length = todo.length + ss.flatten.length := hlen
    simp only [absorb, hcc, hstep, if_true]
    cases hflow with
    | @middle cc _ chunk todo hchunk htodo =>
      have hlen : len + todo.length = (chunk ++ todo).length + 0 := hlen
      rw [List.length_append] at hlen
      dsimp only
      rw [← List.append_assoc] at hs hthird ⊢
      refine .section_open hs (by simp [hsent]) htodo hseen hreset (fun h3 hlarge => hthird ?_ hlarge) ?_
      · rw [List.length_append] at h3
        omega
      · rw [List.length_append]
        omega
    | close k =>
      have hlen : len + 0 = todo.length + 0 := hlen
      have hn : n + len = m + (sent ++ todo).length := by
        rw [List.length_append]
        omega
      rw [← List.append_assoc]
      cases k with
      | zero =>
        rw [List.replicate_zero, List.append_nil]
        exact .section_last hs hseen hreset (fun hlarge => hthird (by omega) hlarge) hn
      | succ k =>
        refine .section_cons hs hseen (List.replicate_succ ▸ List.cons_ne_nil _ _) (fun hlarge => hthird (by omega) hlarge)
          trivial hn fun _ => ?_
        rw [← hn]
        exact .stuffing hreset k
    | @whole cc _ ss k hne =>
      have hlen : len + 0 = todo.length + ss.flatten.length := hlen
      have hpacket' (b : Nat) (hl : m + (sent ++ todo).length ≤ b)
          (hu : b < m + (sent ++ todo).length + ss.flatten.length) : packet b = i := by
        rw [List.length_append] at hl hu
        exact hpacket b (by omega) (by omega)
      have hn : n + len = m + (sent ++ todo).length + ss.flatten.length := by
        rw [List.length_append]
        omega
      have hstart : Starting packet i (m + (sent ++ todo).length) ss := by
        have h : Starting packet i (m + (sent ++ todo).length) (ss ++ []) := Yields.starting_append hss' hpacket' trivial
        rwa [List.append_nil] at h
      rw [show Open.todo (some (sent, todo)) = todo from rfl, ← List.append_assoc]
      refine .section_cons hs hseen ?_ (fun hlarge => hthird (by omega) hlarge) hstart hn fun _ =>
        .whole hss' hne hreset k hpacket' hn
      obtain ⟨s, ss, rfl⟩ := List.exists_cons_of_ne_nil hne
      have := wellFormed_length (hss' s List.mem_cons_self)
      exact List.ne_nil_of_length_pos (by simp; omega)
    | @head cc _ ss sent' todo' hsent' htodo' =>
      have hlen : len + todo'.length = todo.length + (ss ++ [sent' ++ todo']).flatten.length := hlen
      have hpos := List.length_pos_iff.mpr hsent'
      rw [List.flatten_append, List.length_append, List.flatten_singleton, List.length_append] at hlen
      have hpacket' (b : Nat) (hl : m + (sent ++ todo).length ≤ b)
          (hu : b < m + (sent ++ todo).length + (ss.flatten.length + sent'.length)) : packet b = i := by
        rw [List.length_append] at hl hu
        exact hpacket b (by omega) (by omega)
      have hn : n + len = m + (sent ++ todo).length + (ss.flatten.length + sent'.length) := by
        rw [List.length_append]
        omega
      have hstart : Starting packet i (m + (sent ++ todo).length) (ss ++ [sent' ++ todo']) :=
        Yields.starting_append (fun s hs => hss' s (List.mem_append_left _ hs)) (fun b hl hu => hpacket' b hl (by omega))
          ⟨hpacket' _ (by omega) (by omega), trivial⟩
      rw [show Open.todo (some (sent, todo)) = todo from rfl, ← List.append_assoc]
      refine .section_cons hs hseen (List.append_ne_nil_of_right_ne_nil _ hsent') (fun hlarge => hthird (by omega) hlarge) hstart ?_ fun _ =>
        .head hss' hsent' htodo' hreset hpacket' hn
      show n + len + todo'.length = m + (sent ++ todo).length + (ss ++ [sent' ++ todo']).flatten.length
      rw [hn]
      simp only [List.flatten_append, List.flatten_singleton, List.length_append]
      omega

theorem Open.rest_length (o : Open) : o.rest.length = o.todo.length := by
  rw [← Open.rest_value, List.length_map]

theorem Chain.admits {holds : Nat → Nat → Prop} {i j : Nat} {o o1 : Open} {ks : List Packet} {ss : List (List UInt8)}
    (hc : Chain holds i j o ks ss o1) (hend : o1 = none) (hss : ∀ s ∈ o.section ++ ss, WellFormed s) (ho : o.Begun) :
    ∃ chunks, List.Forall₂ Holds ks chunks ∧ chunks.flatten = o.rest ++ ss.flatMap marked ∧
      ∀ {max : Nat} {packet : Nat → Nat} {n m : Nat} {reset : Option Nat} {h : Held} {ts : List (List UInt8)},
        Layout packet i n chunks → Tracks max packet i n reset h o m ts →
          (Machine.run (absorb max) h ks).2 = admitted max packet m reset (ts ++ ss) := by
  induction hc with
  | nil =>
    subst hend
    refine ⟨[], .nil, rfl, fun _ ht => ?_⟩
    cases ht with
    | waiting => rfl
  | @cons i j o o1 o2 k ks ss ss' hcc hflow hcarry hnew rest ih =>
    rw [← List.append_assoc] at hss
    have hne : ∀ s ∈ ss, s ≠ [] := fun s hs =>
      List.ne_nil_of_length_pos (by have := wellFormed_length (hss s (by simp [hs])); omega)
    obtain ⟨chunk, hk, hchunk, ho1⟩ := hflow.chunk ho hne
    obtain ⟨ended, hended⟩ := hflow.ended
    have hss1 : ∀ s ∈ o1.section ++ ss', WellFormed s := by
      intro s hs
      rcases List.mem_append.mp hs with hs | hs
      · exact hss s (List.mem_append_left _ (hended ▸ List.mem_append_right _ hs))
      · exact hss s (List.mem_append_right _ hs)
    obtain ⟨chunks, hks, hchunks, hrun⟩ := ih hend hss1 ho1
    refine ⟨chunk :: chunks, .cons hk hks, ?_, fun {max packet n m reset h ts} hlay ht => ?_⟩
    · rw [List.flatten_cons, hchunks, ← List.append_assoc, hchunk, List.append_assoc, List.flatMap_append]
    · have hlen : chunk.length + o1.todo.length = o.todo.length + ss.flatten.length := by
        have hlen := congrArg List.length hchunk
        rw [List.length_append, List.length_append, Open.rest_length, Open.rest_length] at hlen
        rw [hlen, ← flatMap_marked_value, List.length_map]
      obtain ⟨reset', m', ts', htracks, hout⟩ :=
        hflow.yields hcc (fun s hs => hss s (List.mem_append_left _ hs)) hlen hlay.1 ht
      rw [Machine.run_cons, hrun hlay.2 htracks, ← hout, List.append_assoc]

end Mopa.SectionStream

namespace Mopa.TsRoundTrip
open Mopa.SectionStream
open Mopa.Sec2ts (Call AdaptationField Polite given runCalls packets Emits)
open Mopa.Merger (dvbSectionLength WellFormed)

def Carried (bytes : List (List UInt8)) (chunks : List (List StreamByte)) : Prop :=
  ∃ ks, List.Forall₂ Emits bytes ks ∧ List.Forall₂ Holds ks chunks

theorem wellFormed_length_le {s : List UInt8} (h : WellFormed s) : s.length ≤ 4098 := by
  match s, h with
  | t :: b1 :: b2 :: tl, h =>
    obtain ⟨-, hlen⟩ : t ≠ 0xff ∧ tl.length + 3 = dvbSectionLength b1 b2 := h
    have hand : (b1.toNat <<< 8 ||| b2.toNat) &&& (1 <<< 12 - 1) ≤ 4095 := Nat.and_le_right
    unfold dvbSectionLength at hlen
    simp only [List.length_cons]
    omega

theorem stream_admitted (cb : Option AdaptationField) (hcb : ∀ f, cb = some f → Polite f) (cs : List Call)
    (hcs : ∀ s ∈ given cs, WellFormed s) (fuel : Nat) (hfuel : 4098 ≤ fuel) :
    ∃ x traces chunks, runCalls fuel (Sec2ts.create cb) (cs ++ [.flush]) = some (x, traces) ∧
      Carried (packets traces.flatten) chunks ∧ chunks.flatten = (given cs).flatMap marked ∧
      ∀ maxSectionSize data ps, List.Forall₂ At ps (packets traces.flatten) →
        delivered maxSectionSize data ps = admitted (min maxSectionSize 4096) (packetOf chunks) 0 none (given cs) := by
  have hgiven : given (cs ++ [.flush]) = given cs := by simp [Sec2ts.given_append]
  obtain ⟨x, traces, hrun, ks, ss, o, fulls, hks, hx, hsame, hchain⟩ :=
    Sec2ts.run_chain cb hcb fuel (cs ++ [.flush]) fun s hs => by
      rw [hgiven] at hs
      have hge := wellFormed_length (hcs s hs)
      exact ⟨List.ne_nil_of_length_pos (by omega), (wellFormed_length_le (hcs s hs)).trans hfuel⟩
  obtain ⟨rfl, rfl⟩ := hx.of_start (Sec2ts.runCalls_flush hrun)
  obtain rfl : ss = given cs := by simpa [hgiven] using hsame
  obtain ⟨chunks, hchunks, hflat, hdeliver⟩ := hchain.admits rfl hcs trivial
  refine ⟨x, traces, chunks, hrun, ⟨ks, hks, hchunks⟩, hflat, fun maxSectionSize data ps hps => ?_⟩
  rw [delivered_eq maxSectionSize data hps hks]
  exact hdeliver (layout_packetOf chunks) (.waiting (fun p hp => by cases hp) rfl)

/-- Sections go through the packetizer without adaptation fields. Those that fit the extractor
come out in order, except for the ones that start in a packet in which a larger one was given
up; that is the packet with its third byte, if it was itself seen. -/
theorem oversized_sections_skipped (maxSectionSize : Nat) (hmax : 2 ≤ maxSectionSize) (ss : List (List UInt8)) (hss : ∀ s ∈ ss, WellFormed s)
    (fuel : Nat) (hfuel : 4098 ≤ fuel) (data : Memory UInt8) :
    ∃ x traces chunks, runCalls fuel (Sec2ts.create none) (ss.map .sectionX ++ [.flush]) = some (x, traces) ∧
      Carried (packets traces.flatten) chunks ∧ chunks.flatten = ss.flatMap marked ∧
      ∀ ps, List.Forall₂ At ps (packets traces.flatten) →
        deliveredInside maxSectionSize data ps =
          some (admitted (min maxSectionSize 4096) (packetOf chunks) 0 none ss) := by
  have hgiven : given (ss.map .sectionX) = ss := by
    induction ss with
    | nil => rfl
    | cons s ss ih => exact congrArg (s :: ·) (ih fun s' hs' => hss s' (List.mem_cons_of_mem s hs'))
  obtain ⟨x, traces, chunks, hrun, hcarried, hflat, hdeliver⟩ :=
    stream_admitted none (by simp) (ss.map .sectionX) (by rwa [hgiven]) fuel hfuel
  rw [hgiven] at hflat hdeliver
  refine ⟨x, traces, chunks, hrun, hcarried, hflat, fun ps hps => ?_⟩
  rw [deliveredInside_eq hmax, hdeliver maxSectionSize data ps hps]

theorem oversized_sections_skipped_one_packet :
    ∃ x traces chunks, runCalls 4098 (Sec2ts.create none) [.sectionX [0, 0, 1, 7], .sectionX [2, 0, 0], .flush] = some (x, traces) ∧
      Carried (packets traces.flatten) chunks ∧ chunks.flatten = [[0, 0, 1, 7], [2, 0, 0]].flatMap marked ∧
      ∀ ps, List.Forall₂ At ps (packets traces.flatten) →
        deliveredInside 3 (fun _ => 0) ps = some (admitted 3 (packetOf chunks) 0 none [[0, 0, 1, 7], [2, 0, 0]]) :=
  oversized_sections_skipped 3 (by decide) [[0, 0, 1, 7], [2, 0, 0]] (by decide) 4098 le_rfl fun _ => 0

/-- A section of three bytes is lost behind one of four bytes that does not fit. -/
theorem oversized_sections_skipped_neighbour :
    ¬ ∀ (maxSectionSize : Nat) (ss : List (List UInt8)), (∀ s ∈ ss, WellFormed s) → ∀ (fuel : Nat), 4098 ≤ fuel →
      ∀ data : Memory UInt8, ∃ x traces,
        runCalls fuel (Sec2ts.create none) (ss.map .sectionX ++ [.flush]) = some (x, traces) ∧
        ∀ ps, List.Forall₂ At ps (packets traces.flatten) →
          deliveredInside maxSectionSize data ps = some (ss.filter fun s => s.length ≤ min maxSectionSize 4096) := by
  intro h
  obtain ⟨x, traces, hrun, hall⟩ := h 3 [[0, 0, 1, 7], [2, 0, 0]] (by decide) 4098 le_rfl fun _ => 0
  obtain ⟨x', traces', chunks, hrun', ⟨ks, hks, hchunks⟩, hflat, hdeliver⟩ :=
    stream_admitted none (by simp) [.sectionX [0, 0, 1, 7], .sectionX [2, 0, 0]] (by decide) 4098 le_rfl
  obtain ⟨rfl, rfl⟩ := Prod.mk.inj (Option.some.inj (hrun'.symm.trans hrun))
  have hpackets : packets traces'.flatten =
      [[0x47, 0x40, 0, 0x10, 0, 0, 0, 1, 7, 2, 0, 0] ++ List.replicate 176 0xff] := by
    have hmap := congrArg (Option.map fun r => packets r.2.flatten) hrun
    exact Option.some.inj (hmap.symm.trans (by decide +kernel))
  have hps : List.Forall₂ At [ofBytes ((packets traces'.flatten).head?.getD [])] (packets traces'.flatten) := by
    rw [hpackets]
    exact .cons (at_ofBytes (by decide +kernel)) .nil
  -- both sections are in the only packet
  obtain ⟨chunk, rfl⟩ : ∃ chunk, chunks = [chunk] := by
    rw [← List.length_eq_one_iff, ← hchunks.length_eq, ← hks.length_eq, hpackets]
    rfl
  have hlen : chunk.length = 7 := by
    rw [List.flatten_singleton] at hflat
    rw [hflat]
    rfl
  have hall := hall _ hps
  rw [deliveredInside_eq (by decide)] at hall
  have hnone := (Option.some.inj hall).symm.trans (hdeliver 3 (fun _ => 0) _ hps)
  simp [admitted, packetOf, hlen, given] at hnone

end Mopa.TsRoundTrip
