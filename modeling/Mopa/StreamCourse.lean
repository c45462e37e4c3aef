import Mopa.StreamReception
import Mathlib.Data.List.Chain
import Mathlib.Data.List.GetD

/-! The course of a stream, packet by packet: which section is open in front of a packet and how
many have begun. On it rests what a receiver delivers of packets that arrive in another order, and
of a stream that it joins. A packet is taken for the next one just if its counter says so. -/
namespace Mopa.SectionStream
variable {holds : Nat → Nat → Prop}

/-- In front of packet `n` the section `opens n` is open and `begun n` sections have begun. Packets
are numbered from `i` on, sections from `j` on. -/
structure Course (holds : Nat → Nat → Prop) (i j : Nat) (ks : List Packet) (ss : List (List UInt8)) where
  opens : Nat → Open
  begun : Nat → Nat
  counter : ∀ n (hn : n < ks.length), (ks[n]).cc = ccOf (i+n)
  mono : ∀ n, n < ks.length → begun n ≤ begun (n+1)
  bound : ∀ n, n ≤ ks.length → begun n ≤ ss.length
  flow : ∀ n (hn : n < ks.length),
    Flow (opens n) ks[n] ((ss.drop (begun n)).take (begun (n+1) - begun n)) (opens (n+1))
  current : ∀ n, n ≤ ks.length → opens n ≠ none → 1 ≤ begun n ∧ (opens n).section = [ss.getD (begun n - 1) []]
  sent : ∀ n, n ≤ ks.length → ∀ sent todo, opens n = some (sent, todo) → sent ≠ []
  carry : ∀ n, n < ks.length → opens n ≠ none → holds (j + (begun n - 1)) (i+n)
  starts : ∀ n, n < ks.length → ∀ s, begun n ≤ s → s < begun (n+1) → Starts holds (j+s) (i+n)

theorem Open.section_eq_nil {o : Open} (h : o.section.length = 0) : o = none := by
  cases o with
  | none => rfl
  | some p => cases h

theorem Flow.sent {o o1 : Open} {k : Packet} {ss : List (List UInt8)} (h : Flow o k ss o1)
    (ho : ∀ sent todo, o = some (sent, todo) → sent ≠ []) {sent todo : List UInt8} (h1 : o1 = some (sent, todo)) : sent ≠ [] := by
  cases h with
  | @middle _ sent0 chunk todo0 hchunk htodo =>
    cases h1
    exact fun hnil => hchunk (List.append_eq_nil_iff.mp hnil).2
  | close n => cases h1
  | whole n hss => cases h1
  | head hsent htodo =>
    cases h1
    exact hsent

theorem Flow.new_nil {o o1 : Open} {k : Packet} {ss : List (List UInt8)} (h : Flow o k ss o1) (hp : k.pusi = false) : ss = [] := by
  cases h with
  | middle => rfl
  | close => rfl
  | whole => cases hp
  | head => cases hp

theorem Flow.pusi_of_none {o1 : Open} {k : Packet} {ss : List (List UInt8)} (h : Flow none k ss o1) : k.pusi = true := by
  cases h with
  | whole => rfl
  | head => rfl

/-- A chain of packets runs a course. -/
theorem Chain.course {i j : Nat} {o o' : Open} {ks : List Packet} {ss : List (List UInt8)} (h : Chain holds i j o ks ss o')
    (hj : o.section.length ≤ j) (ho : ∀ sent todo, o = some (sent, todo) → sent ≠ []) :
    ∃ c : Course holds i (j - o.section.length) ks (o.section ++ ss),
      c.opens 0 = o ∧ c.begun 0 = o.section.length ∧ c.opens ks.length = o' ∧ c.begun ks.length = (o.section ++ ss).length := by
  induction h with
  | @nil i j o =>
    refine ⟨⟨fun _ => o, fun _ => o.section.length, nofun, nofun, fun n _ => by simp, nofun, fun n _ hne => ?_,
      fun n _ => ho, nofun, nofun⟩, rfl, rfl, rfl, by simp⟩
    cases o with
    | none => exact absurd rfl hne
    | some p => exact ⟨le_rfl, rfl⟩
  | @cons i j o o1 o2 k ks ss ss' hcc hflow hcarry hnew rest ih =>
    obtain ⟨ended, hended⟩ := hflow.ended
    have hlen := congrArg List.length hended
    simp only [List.length_append] at hlen
    obtain ⟨c, hopen, hbegun, hlast, htotal⟩ := ih (by omega) fun sent todo h1 => hflow.sent ho h1
    have hall : o.section ++ (ss ++ ss') = ended ++ (o1.section ++ ss') := by
      rw [← List.append_assoc, ← hended, List.append_assoc]
    refine ⟨⟨fun n => Nat.casesOn n o c.opens, fun n => Nat.casesOn n o.section.length fun n => ended.length + c.begun n,
      fun n hn => ?_, fun n hn => ?_, fun n hn => ?_, fun n hn => ?_, fun n hn hne => ?_, fun n hn => ?_, fun n hn hne => ?_,
      fun n hn s hl hu => ?_⟩, rfl, rfl, hlast, ?_⟩
    · cases n with
      | zero => exact hcc
      | succ n =>
        have hn : n < ks.length := by simpa using hn
        simpa only [List.getElem_cons_succ, Nat.add_assoc, Nat.add_comm 1] using c.counter n hn
    · cases n with
      | zero =>
        show o.section.length ≤ ended.length + c.begun 0
        omega
      | succ n => exact Nat.add_le_add_left (c.mono n (by simpa using hn)) _
    · cases n with
      | zero =>
        show o.section.length ≤ (o.section ++ (ss ++ ss')).length
        simp
      | succ n =>
        show ended.length + c.begun n ≤ (o.section ++ (ss ++ ss')).length
        have hb := c.bound n (by simpa using hn)
        rw [hall, List.length_append]
        omega
    · cases n with
      | zero =>
        show Flow o k (((o.section ++ (ss ++ ss')).drop o.section.length).take (ended.length + c.begun 0 - o.section.length)) (c.opens 0)
        have hcount : ended.length + c.begun 0 - o.section.length = ss.length := by omega
        rw [List.drop_left, hcount, List.take_left, hopen]
        exact hflow
      | succ n =>
        have hn : n < ks.length := by simpa using hn
        show Flow (c.opens n) ks[n] (((o.section ++ (ss ++ ss')).drop (ended.length + c.begun n)).take
          (ended.length + c.begun (n+1) - (ended.length + c.begun n))) (c.opens (n+1))
        rw [hall, Nat.add_sub_add_left, ← List.drop_drop, List.drop_left]
        exact c.flow n hn
    · cases n with
      | zero =>
        show 1 ≤ o.section.length ∧ o.section = [(o.section ++ (ss ++ ss')).getD (o.section.length - 1) []]
        have hne : o ≠ none := hne
        cases o with
        | none => exact absurd rfl hne
        | some p => exact ⟨le_rfl, rfl⟩
      | succ n =>
        obtain ⟨hone, hsection⟩ := c.current n (by simpa using hn) hne
        refine ⟨show 1 ≤ ended.length + c.begun n by omega, ?_⟩
        show (c.opens n).section = [(o.section ++ (ss ++ ss')).getD (ended.length + c.begun n - 1) []]
        rw [hall, Nat.add_sub_assoc hone, hsection, List.getD_append_right _ _ _ _ (Nat.le_add_right _ _), Nat.add_sub_cancel_left]
    · cases n with
      | zero => exact ho
      | succ n => exact c.sent n (by simpa using hn)
    · cases n with
      | zero =>
        show holds (j - o.section.length + (o.section.length - 1)) i
        have hne : o ≠ none := hne
        have hpos : 0 < o.section.length := Nat.pos_of_ne_zero fun h0 => hne (Open.section_eq_nil h0)
        rw [show j - o.section.length + (o.section.length - 1) = j - 1 by omega]
        exact hcarry hne
      | succ n =>
        have hn : n < ks.length := by simpa using hn
        have hone := (c.current n hn.le hne).1
        have hc := c.carry n hn hne
        show holds (j - o.section.length + (ended.length + c.begun n - 1)) (i + (n + 1))
        rwa [show j - o.section.length + (ended.length + c.begun n - 1) = j + ss.length - o1.section.length + (c.begun n - 1) by omega,
          show i + (n + 1) = i + 1 + n by omega]
    · cases n with
      | zero =>
        have hl : o.section.length ≤ s := hl
        have hu : s < ended.length + c.begun 0 := hu
        exact hnew (j - o.section.length + s) (by omega) (by omega)
      | succ n =>
        have hl : ended.length + c.begun n ≤ s := hl
        have hu : s < ended.length + c.begun (n+1) := hu
        have hst := c.starts n (by simpa using hn) (s - ended.length) (by omega) (by omega)
        rwa [show j + ss.length - o1.section.length + (s - ended.length) = j - o.section.length + s by omega,
          show i + 1 + n = i + (n + 1) by omega] at hst
    · show ended.length + c.begun ks.length = (o.section ++ (ss ++ ss')).length
      rw [hall, htotal, List.length_append, List.length_append]
      simp only [List.length_append]

theorem map_getD_range' (ss : List (List UInt8)) (lo m : Nat) (h : lo + m ≤ ss.length) :
    (List.range' lo m).map (ss.getD · []) = (ss.drop lo).take m := by
  refine List.ext_getElem (by simp; omega) fun n hn _ => ?_
  have hn : n < m := by simpa using hn
  rw [List.getElem_map, List.getElem_range', List.getElem_take, List.getElem_drop, Nat.one_mul,
    List.getD_eq_getElem _ _ (by omega)]

namespace Course
variable {i j max : Nat} {ks : List Packet} {ss : List (List UInt8)}

theorem good (c : Course holds i j ks ss) (hs : ∀ s ∈ ss, Fits max s) {n : Nat} (hn : n ≤ ks.length) : (c.opens n).Good max := by
  cases ho : c.opens n with
  | none => trivial
  | some p =>
    obtain ⟨hone, hsection⟩ := c.current n hn (by rw [ho]; exact Option.some_ne_none p)
    have hb := c.bound n hn
    have hlt : c.begun n - 1 < ss.length := by omega
    rw [ho, List.getD_eq_getElem _ _ hlt] at hsection
    refine ⟨c.sent n hn p.1 p.2 ho, ?_⟩
    rw [(List.cons.inj hsection).1]
    exact hs _ (List.getElem_mem hlt)

/-- The sections that begin in packet `n`. -/
def new (c : Course holds i j ks ss) (n : Nat) : List (List UInt8) := (ss.drop (c.begun n)).take (c.begun (n+1) - c.begun n)

theorem new_length (c : Course holds i j ks ss) {n : Nat} (hn : n < ks.length) : (c.new n).length = c.begun (n+1) - c.begun n := by
  have hm := c.mono n hn
  have hb := c.bound (n+1) hn
  rw [new, List.length_take, List.length_drop, Nat.min_eq_left (by omega)]

theorem section_new (c : Course holds i j ks ss) {n : Nat} (hn : n < ks.length) (ho : c.opens n ≠ none) :
    (c.opens n).section ++ c.new n = (ss.drop (c.begun n - 1)).take (c.begun (n+1) - (c.begun n - 1)) := by
  obtain ⟨hone, hsection⟩ := c.current n hn.le ho
  have hb := c.bound n hn.le
  have hm := c.mono n hn
  have hlt : c.begun n - 1 < ss.length := by omega
  rw [hsection, List.getD_eq_getElem _ _ hlt, List.drop_eq_getElem_cons hlt, Nat.sub_add_cancel hone,
    show c.begun (n+1) - (c.begun n - 1) = c.begun (n+1) - c.begun n + 1 by omega, List.take_succ_cons]
  rfl

/-- The receiver waits for a start or is in step for packet `n`. -/
def Awaits (c : Course holds i j ks ss) (n : Nat) (h : Held) : Prop :=
  h = none ∨ c.opens n ≠ none ∧ Synced (i+n) h (c.opens n)

theorem Awaits.of_synced {c : Course holds i j ks ss} {n : Nat} {h : Held} (hs : Synced (i+n) h (c.opens n)) : c.Awaits n h := by
  cases ho : c.opens n with
  | none =>
    rw [ho] at hs
    exact .inl hs
  | some p => exact .inr ⟨by rw [ho]; exact Option.some_ne_none p, hs⟩

/-- The receiver is in the middle of section `s` and waits for packet `n`. -/
def Midway (c : Course holds i j ks ss) (n : Nat) (h : Held) (s : Nat) : Prop := h ≠ none ∧ c.begun n = s + 1

instance (c : Course holds i j ks ss) (n : Nat) (h : Held) (s : Nat) : Decidable (c.Midway n h s) :=
  inferInstanceAs (Decidable (_ ∧ _))

/-- Section `s` begins in packet `n`. -/
def Begins (c : Course holds i j ks ss) (s n : Nat) : Prop := c.begun n ≤ s ∧ s < c.begun (n+1)

instance (c : Course holds i j ks ss) (s n : Nat) : Decidable (c.Begins s n) := inferInstanceAs (Decidable (_ ∧ _))

/-- Packets arrived in the given order. The sections numbered `js` were delivered, and the receiver waits for packet `n'`. -/
structure Accounts (c : Course holds i j ks ss) (n : Nat) (h : Held) (order : List Nat) (r : Held × List (List UInt8)) (n' : Nat)
    (js : List Nat) : Prop where
  delivers : r.2 = js.map (ss.getD · [])
  bound : ∀ s ∈ js, s < ss.length
  awaits : c.Awaits n' r.1
  count : ∀ s, js.count s + (if c.Midway n' r.1 s then 1 else 0) ≤
    (if c.Midway n h s then 1 else 0) + order.countP (fun b => decide (c.Begins s b))

theorem Accounts.refl {c : Course holds i j ks ss} {n : Nat} {h : Held} (ha : c.Awaits n h) : c.Accounts n h [] (h, []) n [] :=
  ⟨rfl, nofun, ha, fun _ => (Nat.zero_add _).le⟩

theorem Accounts.trans {c : Course holds i j ks ss} {n n1 n2 : Nat} {h : Held} {bs bs' js js' : List Nat}
    {r : Held × List (List UInt8)} {r' : Held × List (List UInt8)} (h1 : c.Accounts n h bs r n1 js)
    (h2 : c.Accounts n1 r.1 bs' r' n2 js') : c.Accounts n h (bs ++ bs') (r'.1, r.2 ++ r'.2) n2 (js ++ js') where
  delivers := by rw [h1.delivers, h2.delivers, List.map_append]
  bound := fun s hs => (List.mem_append.mp hs).elim (h1.bound s) (h2.bound s)
  awaits := h2.awaits
  count := fun s => by
    have hc1 := h1.count s
    have hc2 := h2.count s
    rw [List.count_append, List.countP_append]
    show _ + (if c.Midway n2 r'.1 s then 1 else 0) ≤ _
    omega

theorem count_range' (lo m s : Nat) : (List.range' lo m).count s = if lo ≤ s ∧ s < lo + m then 1 else 0 := by
  rw [List.Nodup.count List.nodup_range', if_congr List.mem_range'_1 rfl rfl]

theorem delivery (c : Course holds i j ks ss) {b lo : Nat} (hb : b < ks.length) (hlo : lo ≤ c.begun (b+1)) {r : Held × List (List UInt8)}
    (hout : r.2 ++ (c.opens (b+1)).section = (ss.drop lo).take (c.begun (b+1) - lo))
    (hsync : Synced (i+(b+1)) r.1 (c.opens (b+1))) :
    r.2 = (List.range' lo r.2.length).map (ss.getD · []) ∧ (∀ s ∈ List.range' lo r.2.length, s < ss.length) ∧
      ∀ s, (List.range' lo r.2.length).count s + (if c.Midway (b+1) r.1 s then 1 else 0) =
        if lo ≤ s ∧ s < c.begun (b+1) then 1 else 0 := by
  have hbound := c.bound (b+1) hb
  have hlen := congrArg List.length hout
  rw [List.length_append, List.length_take, List.length_drop, Nat.min_eq_left (by omega)] at hlen
  refine ⟨?_, fun s h => ?_, fun s => ?_⟩
  · rw [map_getD_range' _ _ _ (by omega)]
    have hprefix := congrArg (List.take r.2.length) hout
    rw [List.take_left, List.take_take, Nat.min_eq_left (by omega)] at hprefix
    exact hprefix
  · have hmem := List.mem_range'_1.mp h
    omega
  · rw [count_range']
    cases ho : c.opens (b+1) with
    | none =>
      rw [ho] at hlen hsync
      have hlen : r.2.length + 0 = c.begun (b+1) - lo := hlen
      rw [if_neg (fun hm : c.Midway (b+1) r.1 s => hm.1 hsync), Nat.add_zero]
      exact if_congr (by omega) rfl rfl
    | some p =>
      have hne : r.1 ≠ none := hsync.ne_none (by rw [ho]; exact Option.some_ne_none p)
      rw [ho] at hlen
      have hlen : r.2.length + 1 = c.begun (b+1) - lo := hlen
      by_cases hm : c.begun (b+1) = s + 1
      · rw [if_pos (show c.Midway (b+1) r.1 s from ⟨hne, hm⟩), if_neg (by omega), if_pos (by omega)]
      · rw [if_neg (fun h : c.Midway (b+1) r.1 s => hm h.2), Nat.add_zero]
        exact if_congr (by omega) rfl rfl

theorem Accounts.ignored (c : Course holds i j ks ss) (n b : Nat) (h : Held) : c.Accounts n h [b] (none, []) (b+1) [] :=
  ⟨rfl, nofun, .inl rfl, fun s => by
    rw [if_neg (fun hm : c.Midway (b+1) none s => hm.1 rfl)]
    exact Nat.zero_le _⟩

theorem countP_begins (c : Course holds i j ks ss) (s b : Nat) :
    [b].countP (fun b => decide (c.Begins s b)) = if c.Begins s b then 1 else 0 := by
  rw [List.countP_singleton]
  exact if_congr decide_eq_true_iff rfl rfl

theorem Accounts.taken {c : Course holds i j ks ss} {n b lo : Nat} {h : Held} (hb : b < ks.length) (hlo : lo ≤ c.begun (b+1))
    {r : Held × List (List UInt8)} (hout : r.2 ++ (c.opens (b+1)).section = (ss.drop lo).take (c.begun (b+1) - lo))
    (hsync : Synced (i+(b+1)) r.1 (c.opens (b+1)))
    (hfirst : ∀ s, lo ≤ s ∧ s < c.begun (b+1) → c.Midway n h s ∨ c.Begins s b) :
    c.Accounts n h [b] r (b+1) (List.range' lo r.2.length) ∧
      ∀ s, lo ≤ s ∧ s < c.begun (b+1) → s ∈ List.range' lo r.2.length ∨ c.Midway (b+1) r.1 s := by
  obtain ⟨hmap, hbound, hcount⟩ := c.delivery hb hlo hout hsync
  refine ⟨⟨hmap, hbound, .of_synced hsync, fun s => ?_⟩, fun s hin => ?_⟩
  · rw [hcount, countP_begins]
    split
    · next hin =>
      rcases hfirst s hin with hm | hbeg
      · rw [if_pos hm]
        omega
      · rw [if_pos hbeg]
        omega
    · exact Nat.zero_le _
  · have heq := hcount s
    rw [if_pos hin] at heq
    by_cases hm : c.Midway (b+1) r.1 s
    · exact .inr hm
    · rw [if_neg hm] at heq
      exact .inl (List.count_pos_iff.mp (by omega))

def packet (_ : Course holds i j ks ss) (b : Nat) : Packet := ks.getD b ⟨0, false, 0, []⟩

def step (c : Course holds i j ks ss) (max : Nat) (h : Held) (b : Nat) : Held × List Nat :=
  ((absorb max h (c.packet b)).1,
    List.range' (c.begun b - if h.isSome then 1 else 0) (absorb max h (c.packet b)).2.length)

theorem arrival (c : Course holds i j ks ss) (hs : ∀ s ∈ ss, Fits max s) {n b : Nat} {h : Held} (ha : c.Awaits n h)
    (hb : b < ks.length) (hcounter : h ≠ none → (i + n) % 16 = (i + b) % 16 → b = n) :
    c.Accounts n h [b] (absorb max h (c.packet b)) (b+1) (c.step max h b).2 ∧
      (b = n → ∀ s, c.Midway b h s ∨ c.Begins s b → s ∈ (c.step max h b).2 ∨ c.Midway (b+1) (c.step max h b).1 s) := by
  have hcc := c.counter b hb
  have hmono := c.mono b hb
  have hflow : Flow (c.opens b) ks[b] (c.new b) (c.opens (b+1)) := c.flow b hb
  have hnew : ∀ s ∈ c.new b, Fits max s := fun s h => hs s (List.mem_of_mem_drop (List.mem_of_mem_take h))
  have hpacket : c.packet b = ks[b] := List.getD_eq_getElem _ _ hb
  rw [step, hpacket]
  rcases ha with rfl | ⟨hne, hsync⟩
  · by_cases hp : ks[b].pusi = true
    · obtain ⟨hsync, hout⟩ := absorb_none hcc hflow hnew hp
      obtain ⟨hjs, hmem⟩ := Accounts.taken (n := n) (h := none) hb hmono hout hsync fun s hin => .inr hin
      exact ⟨hjs, fun _ s hor => hmem s (hor.resolve_left fun hm => hm.1 rfl)⟩
    · have hr : absorb max none ks[b] = (none, []) := by simp [absorb, hp]
      rw [hr]
      refine ⟨.ignored c n b none, fun _ s hor => ?_⟩
      have hbeg := c.new_length hb
      rw [hflow.new_nil (Bool.eq_false_of_not_eq_true hp), List.length_nil] at hbeg
      exact absurd (hor.resolve_left fun hm => hm.1 rfl) fun hin => by unfold Begins at hin; omega
  · have hh : h ≠ none := hsync.ne_none hne
    by_cases hstep : (i + n) % 16 = (i + b) % 16
    · obtain rfl := hcounter hh hstep
      obtain ⟨p, hp⟩ := Option.ne_none_iff_exists'.mp hne
      have hgood := c.good hs hb.le
      have hone := (c.current b hb.le hne).1
      rw [hp] at hflow hsync hgood
      obtain ⟨hsync', hout⟩ := absorb_synced hcc hflow hnew hgood hsync
      have hsection : (c.opens b).section = [p.1 ++ p.2] := by rw [hp]; rfl
      have hall := c.section_new hb hne
      rw [hsection, List.singleton_append, ← hout] at hall
      have hwithin (s : Nat) (hin : c.begun b - 1 ≤ s ∧ s < c.begun (b+1)) : c.Midway b h s ∨ c.Begins s b := by
        by_cases hm : c.begun b = s + 1
        · exact .inl ⟨hh, hm⟩
        · exact .inr ⟨by omega, hin.2⟩
      obtain ⟨hjs, hmem⟩ := Accounts.taken hb (show c.begun b - 1 ≤ c.begun (b+1) by omega) hall hsync' hwithin
      rw [if_pos (Option.isSome_iff_ne_none.mpr hh)]
      refine ⟨hjs, fun _ s hor => hmem s ?_⟩
      rcases hor with hm | hbeg
      · have h2 := hm.2
        omega
      · exact ⟨by have h1 := hbeg.1; omega, hbeg.2⟩
    · have hr : absorb max h ks[b] = (none, []) := by
        obtain ⟨p, hp⟩ := Option.ne_none_iff_exists'.mp hne
        rw [hp] at hsync
        obtain ⟨hpos, rfl⟩ := hsync
        have hcc' : ¬ ((ccOf (i+n-1) + 1) &&& 0xf = ks[b].cc) := by
          rw [hcc, ccOf_step, Nat.sub_add_cancel hpos]
          exact hstep
        simp [absorb, hcc']
      rw [hr]
      exact ⟨.ignored c n b h, fun hbn => absurd (hbn ▸ rfl) hstep⟩

/-- Packets in any order in which only neighbours have neighbouring counters. -/
theorem arrivals (c : Course holds i j ks ss) (hs : ∀ s ∈ ss, Fits max s) {order : List Nat} (hin : ∀ b ∈ order, b < ks.length)
    (hapart : order.IsChain fun a b => (i + (a+1)) % 16 = (i + b) % 16 → b = a + 1) {n : Nat} {h : Held} (ha : c.Awaits n h)
    (hfirst : h ≠ none → ∀ b ∈ order.head?, (i + n) % 16 = (i + b) % 16 → b = n) :
    c.Accounts n h order (Machine.run (absorb max) h (order.map c.packet)) (order.foldl (fun _ b => b + 1) n)
      (Machine.run (c.step max) h order).2 := by
  induction order generalizing n h with
  | nil => exact .refl ha
  | cons b bs ih =>
    obtain ⟨hnext, hrest⟩ := List.isChain_cons.mp hapart
    obtain ⟨hb, -⟩ := c.arrival hs ha (hin b List.mem_cons_self) fun hh => hfirst hh b rfl
    exact hb.trans (ih (fun b' hb' => hin b' (List.mem_cons_of_mem b hb')) hrest hb.awaits fun _ => hnext)

theorem window (c : Course holds i j ks ss) (hs : ∀ s ∈ ss, Fits max s) {f m s : Nat} (hm : f + m ≤ ks.length) {h : Held}
    (ha : c.Awaits f h) (hopen : c.Midway f h s ∨ 0 < m ∧ c.Begins s f) :
    s ∈ (Machine.run (c.step max) h (List.range' f m)).2 ∨ c.Midway (f+m) (Machine.run (c.step max) h (List.range' f m)).1 s := by
  induction m generalizing f h with
  | zero => exact .inr (hopen.resolve_right fun h0 => absurd h0.1 (Nat.lt_irrefl 0))
  | succ m ih =>
    obtain ⟨hacc, hnext⟩ := c.arrival hs ha (show f < ks.length by omega) fun _ _ => rfl
    rw [List.range'_succ, Machine.run_cons, List.mem_append, or_assoc]
    rcases hnext rfl s (hopen.imp_right And.right) with hmem | hmid
    · exact .inl hmem
    · have hrest := ih (show f + 1 + m ≤ ks.length by omega) hacc.awaits (.inl hmid)
      rw [show f + 1 + m = f + (m + 1) by omega] at hrest
      exact .inr hrest

theorem run_step (c : Course holds i j ks ss) (max : Nat) (h : Held) (order : List Nat) :
    (Machine.run (c.step max) h order).1 = (Machine.run (absorb max) h (order.map c.packet)).1 := by
  induction order generalizing h with
  | nil => rfl
  | cons b bs ih => exact ih (absorb max h (c.packet b)).1

theorem row (c : Course holds i j ks ss) (hs : ∀ s ∈ ss, Fits max s) (hend : c.opens ks.length = none) {f m s : Nat}
    (hm : f + m ≤ ks.length) (hpos : 0 < m) (hbegins : c.Begins s f) (hall : ∀ k, holds (j+s) (i+k) → k < f + m) {h : Held}
    (ha : c.Awaits f h) : s ∈ (Machine.run (c.step max) h (List.range' f m)).2 := by
  refine (c.window hs hm ha (.inr ⟨hpos, hbegins⟩)).resolve_right fun hmid => ?_
  have hchain : (List.range' f m).IsChain fun a b => (i + (a+1)) % 16 = (i + b) % 16 → b = a + 1 :=
    (List.isChain_range' f m 1).imp fun _ _ h _ => h
  have hlast : (List.range' f m).foldl (fun _ b => b + 1) f = f + m := by
    rw [← Nat.sub_add_cancel hpos, List.range'_concat]
    simp
    omega
  have hacc := (c.arrivals hs (fun b hb => by have := List.mem_range'_1.mp hb; omega) hchain ha fun _ b hb _ => by
    rw [← Nat.sub_add_cancel hpos, List.range'_succ] at hb
    exact (Option.some.inj hb).symm).awaits
  rw [hlast, ← c.run_step] at hacc
  obtain ⟨hne, -⟩ := hacc.resolve_left hmid.1
  have hlt : f + m < ks.length := lt_of_le_of_ne hm fun heq => hne (heq ▸ hend)
  have hcarry := c.carry (f+m) hlt hne
  rw [hmid.2, Nat.add_sub_cancel] at hcarry
  exact absurd (hall _ hcarry) (Nat.lt_irrefl _)

theorem foldl_next (b : Nat) (bs : List Nat) : ∀ l ∈ (b :: bs).getLast?, bs.foldl (fun _ b => b + 1) (b+1) = l + 1 := by
  induction bs generalizing b with
  | nil => exact fun l hl => congrArg (· + 1) (Option.some.inj hl)
  | cons b' bs ih =>
    rw [List.getLast?_cons_cons]
    exact ih b'

theorem joined (c : Course holds i j ks ss) (hs : ∀ s ∈ ss, Fits max s) {b : Nat} {bs : List Nat}
    (hin : ∀ b' ∈ b :: bs, b' < ks.length)
    (hapart : (b :: bs).IsChain fun a b => (i + (a+1)) % 16 = (i + b) % 16 → b = a + 1) {h : Held}
    (hforeign : ∀ p, h = some p → (p.1 + 1) &&& 0xf ≠ ccOf (i+b)) :
    c.Accounts 0 h (b :: bs) (Machine.run (absorb max) h ((b :: bs).map c.packet)) (bs.foldl (fun _ b => b + 1) (b+1))
      (Machine.run (c.step max) h (b :: bs)).2 := by
  obtain ⟨hnext, hrest⟩ := List.isChain_cons.mp hapart
  have hb := hin b List.mem_cons_self
  have hfirst : c.Accounts 0 h [b] (absorb max h (c.packet b)) (b+1) (c.step max h b).2 := by
    cases h with
    | none => exact (c.arrival hs (.inl rfl) hb fun hh => absurd rfl hh).1
    | some p =>
      have hpacket : c.packet b = ks[b] := List.getD_eq_getElem _ _ hb
      have hcc : ¬ ((p.1 + 1) &&& 0xf = (c.packet b).cc) := by
        rw [hpacket, c.counter b hb]
        exact hforeign p rfl
      have hr : absorb max (some p) (c.packet b) = (none, []) := by simp [absorb, hcc]
      rw [step, hr]
      exact .ignored c 0 b (some p)
  exact hfirst.trans (c.arrivals hs (fun b' hb' => hin b' (List.mem_cons_of_mem b hb')) hrest hfirst.awaits fun _ => hnext)

theorem exists_begins (c : Course holds i j ks ss) (hbegun : c.begun 0 = 0) (n s : Nat) (hs : s < c.begun n) :
    ∃ m < n, c.Begins s m := by
  induction n with
  | zero => omega
  | succ n ih =>
    by_cases hlt : s < c.begun n
    · obtain ⟨m, hm, hbegins⟩ := ih hlt
      exact ⟨m, Nat.lt_succ_of_lt hm, hbegins⟩
    · exact ⟨n, Nat.lt_succ_self n, Nat.le_of_not_lt hlt, hs⟩

theorem begins_unique (c : Course holds i j ks ss) {s f n : Nat} (hf : Starts holds (j+s) (i+f)) (hn : n < ks.length)
    (h : c.Begins s n) : n = f := by
  obtain ⟨hmem, hmin⟩ := c.starts n hn s h.1 h.2
  have h1 := hmin _ hf.1
  have h2 := hf.2 _ hmem
  omega

theorem begins_first (c : Course holds i j ks ss) (hbegun : c.begun 0 = 0) (htotal : c.begun ks.length = ss.length) {s f : Nat}
    (hs : s < ss.length) (hf : Starts holds (j+s) (i+f)) : f < ks.length ∧ c.Begins s f := by
  obtain ⟨m, hm, hbegins⟩ := c.exists_begins hbegun ks.length s (htotal ▸ hs)
  obtain rfl := c.begins_unique hf hm hbegins
  exact ⟨hm, hbegins⟩

theorem begun_le (c : Course holds i j ks ss) {a b : Nat} (hab : a ≤ b) (hb : b ≤ ks.length) : c.begun a ≤ c.begun b := by
  induction hab with
  | refl => exact le_rfl
  | @step b _ ih => exact (ih (by omega)).trans (c.mono b (by omega))

/-- Reception of packets in any order, some of them never and some of them again. -/
theorem reordered (c : Course holds i j ks ss) (hs : ∀ s ∈ ss, Fits max s) (hend : c.opens ks.length = none)
    {order : List Nat} (hin : ∀ b ∈ order, b < ks.length)
    (hapart : order.IsChain fun a b => (i + (a+1)) % 16 = (i + b) % 16 → b = a + 1) {h : Held}
    (hforeign : ∀ p, h = some p → ∀ b ∈ order.head?, (p.1 + 1) &&& 0xf ≠ ccOf (i+b)) (hbegun : c.begun 0 = 0) :
    ∃ js : List Nat, (Machine.run (absorb max) h (order.map c.packet)).2 = js.map (ss.getD · []) ∧ (∀ s ∈ js, s < ss.length) ∧
      (∀ s, js.count s ≤ order.countP fun b => decide (c.Begins s b)) ∧
      ∀ pre f m post s, order = pre ++ (List.range' f m ++ post) → 0 < m → c.Begins s f → (∀ k, holds (j+s) (i+k) → k < f + m) →
        (0 < f ∧ f - 1 ∈ pre.getLast?) ∨ (h = none ∧ pre = []) → s ∈ js := by
  cases order with
  | nil => exact ⟨[], rfl, nofun, fun _ => le_rfl, fun pre f m post s heq hpos => by
      have hlen := congrArg List.length heq
      simp at hlen
      omega⟩
  | cons b bs =>
    have hacc := c.joined hs hin hapart fun p hp => hforeign p hp b rfl
    refine ⟨_, hacc.delivers, hacc.bound, fun s => ?_, fun pre f m post s heq hpos hbegins hall hbefore => ?_⟩
    · have hcount := hacc.count s
      rw [if_neg (fun hm : c.Midway 0 h s => absurd hm.2 (by omega))] at hcount
      omega
    · have hin' (b' : Nat) (hb' : b' ∈ pre ++ (List.range' f m ++ post)) : b' < ks.length := hin b' (heq ▸ hb')
      have hchain : pre.IsChain fun a b => (i + (a+1)) % 16 = (i + b) % 16 → b = a + 1 := by
        rw [heq] at hapart
        exact hapart.left_of_append
      have hlast := hin' (f + m - 1) (by simp; omega)
      rw [heq, Machine.run_append, Machine.run_append, List.mem_append, List.mem_append]
      refine .inr (.inl (c.row hs hend (by omega) hpos hbegins hall ?_))
      rcases hbefore with ⟨hf, hpre⟩ | ⟨rfl, rfl⟩
      · cases pre with
        | nil => cases hpre
        | cons b' bs' =>
          obtain rfl : b = b' := (List.cons.inj heq).1
          have hjoined := c.joined hs (fun b' hb' => hin' b' (List.mem_append_left _ hb')) hchain fun p hp => hforeign p hp b rfl
          have hnext := foldl_next b bs' (f-1) hpre
          rw [Nat.sub_add_cancel hf] at hnext
          have hawaits := hjoined.awaits
          rw [hnext, ← c.run_step] at hawaits
          exact hawaits
      · exact .inl rfl

theorem new_drop (c : Course holds i j ks ss) {n : Nat} (hn : n < ks.length) : c.new n ++ ss.drop (c.begun (n+1)) = ss.drop (c.begun n) := by
  rw [new, ← Nat.add_sub_cancel' (c.mono n hn), ← List.drop_drop, Nat.add_sub_cancel_left, List.take_append_drop]

theorem continued (c : Course holds i j ks ss) (hs : ∀ s ∈ ss, Fits max s) (hend : c.opens ks.length = none)
    (htotal : c.begun ks.length = ss.length) (d : Nat) : ∀ {n : Nat} {h : Held}, n + d = ks.length → Synced (i+n) h (c.opens n) →
      (Machine.run (absorb max) h (ks.drop n)).2 = (c.opens n).section ++ ss.drop (c.begun n) := by
  induction d with
  | zero =>
    intro n h hn _
    obtain rfl : n = ks.length := hn
    rw [hend, htotal, List.drop_length, List.drop_length]
    rfl
  | succ d ih =>
    intro n h hn hsync
    have hlt : n < ks.length := by omega
    have hflow : Flow (c.opens n) ks[n] (c.new n) (c.opens (n+1)) := c.flow n hlt
    have hnew : ∀ s ∈ c.new n, Fits max s := fun s h => hs s (List.mem_of_mem_drop (List.mem_of_mem_take h))
    have hgood := c.good hs hlt.le
    have hstep : Synced (i+(n+1)) (absorb max h ks[n]).1 (c.opens (n+1)) ∧
        (absorb max h ks[n]).2 ++ (c.opens (n+1)).section = (c.opens n).section ++ c.new n := by
      generalize c.opens n = o at hflow hgood hsync
      cases o with
      | none =>
        obtain rfl : h = none := hsync
        exact absorb_none (c.counter n hlt) hflow hnew hflow.pusi_of_none
      | some p => exact absorb_synced (c.counter n hlt) hflow hnew hgood hsync
    rw [List.drop_eq_getElem_cons hlt, Machine.run_cons, ih (by omega) hstep.1, ← List.append_assoc, hstep.2, List.append_assoc,
      c.new_drop hlt]

theorem resumed (c : Course holds i j ks ss) (hs : ∀ s ∈ ss, Fits max s) (hend : c.opens ks.length = none)
    (htotal : c.begun ks.length = ss.length) (d : Nat) : ∀ {n : Nat}, n + d = ks.length →
      (Machine.run (absorb max) none (ks.drop n)).2 = ss.drop (c.begun n) := by
  induction d with
  | zero =>
    intro n hn
    obtain rfl : n = ks.length := hn
    rw [htotal, List.drop_length, List.drop_length]
    rfl
  | succ d ih =>
    intro n hn
    have hlt : n < ks.length := by omega
    have hflow : Flow (c.opens n) ks[n] (c.new n) (c.opens (n+1)) := c.flow n hlt
    have hnew : ∀ s ∈ c.new n, Fits max s := fun s h => hs s (List.mem_of_mem_drop (List.mem_of_mem_take h))
    rw [List.drop_eq_getElem_cons hlt, Machine.run_cons, ← c.new_drop hlt]
    by_cases hp : ks[n].pusi = true
    · obtain ⟨hsync, hout⟩ := absorb_none (c.counter n hlt) hflow hnew hp
      rw [c.continued hs hend htotal d (by omega) hsync, ← List.append_assoc, hout]
    · have hr : absorb max none ks[n] = (none, []) := by simp [absorb, hp]
      rw [hr, ih (by omega), hflow.new_nil (Bool.eq_false_of_not_eq_true hp)]

/-- A stream is joined at packet `n` by a receiver with a past. -/
theorem joined_at (c : Course holds i j ks ss) (hs : ∀ s ∈ ss, Fits max s) (hend : c.opens ks.length = none)
    (htotal : c.begun ks.length = ss.length) {n : Nat} (hn : n < ks.length) {h : Held}
    (hforeign : ∀ p, h = some p → (p.1 + 1) &&& 0xf ≠ ccOf (i+n)) :
    (Machine.run (absorb max) h (ks.drop n)).2 = ss.drop (if h.isSome then c.begun (n+1) else c.begun n) := by
  obtain ⟨d, hd⟩ : ∃ d, n + (d + 1) = ks.length := ⟨ks.length - (n + 1), by omega⟩
  cases h with
  | none => exact c.resumed hs hend htotal (d+1) hd
  | some p =>
    have hcc : ¬ ((p.1 + 1) &&& 0xf = ks[n].cc) := by
      rw [c.counter n hn]
      exact hforeign p rfl
    have hr : absorb max (some p) ks[n] = (none, []) := by simp [absorb, hcc]
    rw [List.drop_eq_getElem_cons hn, Machine.run_cons, hr]
    exact c.resumed hs hend htotal d (by omega)

end Course
end Mopa.SectionStream
