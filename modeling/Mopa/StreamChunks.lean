import Mopa.SectionStream

/-! The bytes of a stream, each with its place in its section, and the stretch of them
that a packet carries. -/
namespace Mopa.SectionStream

structure StreamByte where
  value : UInt8
  first : Bool    -- of its section
  last : Bool

def marked (s : List UInt8) : List StreamByte :=
  s.mapIdx fun i b => ⟨b, decide (i = 0), decide (i + 1 = s.length)⟩

def Open.rest : Open → List StreamByte
  | none => []
  | some (sent, todo) => (marked (sent ++ todo)).drop sent.length

/-- The packet carries a stretch of the stream and `n` bytes of stuffing, which starts behind
the last byte of a section only. The pointer counts the bytes in front of the first section
that starts in the packet. -/
structure Holds (k : Packet) (chunk : List StreamByte) : Prop where
  body : ∃ n, k.body = chunk.map StreamByte.value ++ List.replicate n 0xff ∧
    (0 < n → ∃ b ∈ chunk.getLast?, b.last = true)
  start : k.pusi = true ↔ ∃ b ∈ chunk, b.first = true
  pointer : k.pusi = true → k.pointer = chunk.findIdx StreamByte.first

def Open.Begun : Open → Prop
  | none => True
  | some (sent, todo) => sent ≠ [] ∧ todo ≠ []

theorem marked_length (s : List UInt8) : (marked s).length = s.length := List.length_mapIdx

theorem marked_getElem? (s : List UInt8) (i : Nat) :
    (marked s)[i]? = s[i]?.map fun b => ⟨b, decide (i = 0), decide (i + 1 = s.length)⟩ := List.getElem?_mapIdx

theorem marked_value (s : List UInt8) : (marked s).map StreamByte.value = s := by
  refine List.ext_getElem? fun i => ?_
  rw [List.getElem?_map, marked_getElem?, Option.map_map]
  cases s[i]? with
  | none => rfl
  | some b => rfl

theorem flatMap_marked_value (ss : List (List UInt8)) :
    (ss.flatMap marked).map StreamByte.value = ss.flatten := by
  rw [List.map_flatMap, ← List.flatMap_id]
  exact List.flatMap_congr fun s _ => marked_value s

theorem marked_head {s : List UInt8} (hs : s ≠ []) : ∃ b tl, marked s = b :: tl ∧ b.first = true := by
  cases s with
  | nil => exact absurd rfl hs
  | cons b s => exact ⟨_, _, List.mapIdx_cons, rfl⟩

theorem marked_getLast? {s : List UInt8} (hs : s ≠ []) : ∃ b ∈ (marked s).getLast?, b.last = true := by
  have hpos := List.length_pos_iff.mpr hs
  have hlast : (marked s).getLast? = some ⟨s[s.length-1], decide (s.length - 1 = 0), decide (s.length - 1 + 1 = s.length)⟩ := by
    rw [List.getLast?_eq_getElem?, marked_length, marked_getElem?, List.getElem?_eq_getElem (by omega)]
    rfl
  exact ⟨_, hlast, decide_eq_true (Nat.sub_add_cancel hpos)⟩

theorem Open.rest_value (o : Open) : o.rest.map StreamByte.value = o.todo := by
  cases o with
  | none => rfl
  | some p =>
    show ((marked (p.1 ++ p.2)).drop p.1.length).map StreamByte.value = p.2
    rw [List.map_drop, marked_value, List.drop_left]

theorem Open.rest_first {o : Open} (ho : o.Begun) : ∀ b ∈ o.rest, b.first = false := by
  cases o with
  | none => exact fun b hb => absurd hb List.not_mem_nil
  | some p =>
    intro b hb
    obtain ⟨i, hi⟩ := List.mem_iff_getElem?.mp hb
    rw [Open.rest, List.getElem?_drop, marked_getElem?] at hi
    obtain ⟨v, -, rfl⟩ := Option.map_eq_some_iff.mp hi
    have hsent := List.length_pos_iff.mpr ho.1
    exact decide_eq_false (by omega)

theorem Open.rest_last {sent todo : List UInt8} (htodo : todo ≠ []) :
    ∃ b ∈ (Open.rest (some (sent, todo))).getLast?, b.last = true := by
  have hpos := List.length_pos_iff.mpr htodo
  rw [Open.rest, List.getLast?_drop, marked_length, if_neg (by rw [List.length_append]; omega)]
  exact marked_getLast? (by simp [htodo])

theorem findIdx_starts {o : Open} (ho : o.Begun) {b : StreamByte} (hb : b.first = true) (tl : List StreamByte) :
    (∃ c ∈ o.rest ++ b :: tl, c.first = true) ∧ o.todo.length = (o.rest ++ b :: tl).findIdx StreamByte.first := by
  refine ⟨⟨b, by simp, hb⟩, ?_⟩
  have hrest := List.findIdx_eq_length_of_false (p := StreamByte.first) (Open.rest_first ho)
  rw [List.findIdx_append, hrest, if_neg (Nat.lt_irrefl _), List.findIdx_cons, hb, ← Open.rest_value, List.length_map]
  exact (Nat.zero_add _).symm

theorem flatMap_marked_getLast? {ss : List (List UInt8)} (hne : ss ≠ []) (hss : ∀ s ∈ ss, s ≠ []) :
    ∃ b ∈ (ss.flatMap marked).getLast?, b.last = true := by
  obtain ⟨init, s, rfl⟩ : ∃ init s, ss = init ++ [s] :=
    ⟨ss.dropLast, ss.getLast hne, (List.dropLast_append_getLast hne).symm⟩
  obtain ⟨b, hb, hlast⟩ := marked_getLast? (hss s (by simp))
  refine ⟨b, ?_, hlast⟩
  rw [List.flatMap_append, List.flatMap_singleton, List.getLast?_append, Option.mem_def.mp hb]
  rfl

theorem Flow.chunk {o o1 : Open} {k : Packet} {ss : List (List UInt8)} (h : Flow o k ss o1) (ho : o.Begun)
    (hss : ∀ s ∈ ss, s ≠ []) :
    ∃ chunk, Holds k chunk ∧ chunk ++ o1.rest = o.rest ++ ss.flatMap marked ∧ o1.Begun := by
  cases h with
  | @middle cc sent chunk todo hchunk htodo =>
    have hvalue := Open.rest_value (some (sent, chunk ++ todo))
    have hfirst := Open.rest_first ho
    have hnext : Open.rest (some (sent ++ chunk, todo)) = (Open.rest (some (sent, chunk ++ todo))).drop chunk.length := by
      rw [Open.rest, Open.rest, List.drop_drop, List.append_assoc, List.length_append]
    generalize Open.rest (some (sent, chunk ++ todo)) = r at hvalue hfirst hnext
    refine ⟨r.take chunk.length, ⟨⟨0, ?_, fun h => absurd h (Nat.lt_irrefl 0)⟩, ?_, fun h => absurd h Bool.false_ne_true⟩, ?_,
      by simp [hchunk], htodo⟩
    · rw [List.map_take, hvalue]
      simp [Open.todo]
    · refine ⟨fun h => absurd h Bool.false_ne_true, ?_⟩
      rintro ⟨b, hb, hb'⟩
      exact absurd hb' (by rw [hfirst b (List.mem_of_mem_take hb)]; decide)
    · rw [hnext, List.take_append_drop]
      exact (List.append_nil _).symm
  | @close cc sent todo n =>
    have hfirst := Open.rest_first ho
    refine ⟨Open.rest (some (sent, todo)), ⟨⟨n, ?_, fun _ => Open.rest_last ho.2⟩, ?_, fun h => absurd h Bool.false_ne_true⟩,
      rfl, trivial⟩
    · rw [Open.rest_value]
      rfl
    · refine ⟨fun h => absurd h Bool.false_ne_true, ?_⟩
      rintro ⟨b, hb, hb'⟩
      exact absurd hb' (by rw [hfirst b hb]; decide)
  | @whole cc o ss n hne =>
    obtain ⟨s, ss, rfl⟩ := List.exists_cons_of_ne_nil hne
    obtain ⟨b, tl, hb, hfirst⟩ := marked_head (hss s List.mem_cons_self)
    have hfind := findIdx_starts ho hfirst (tl ++ ss.flatMap marked)
    rw [← List.cons_append, ← hb, ← List.flatMap_cons] at hfind
    refine ⟨o.rest ++ (s :: ss).flatMap marked, ⟨⟨n, ?_, fun _ => ?_⟩, iff_of_true rfl hfind.1, fun _ => hfind.2⟩,
      List.append_nil _, trivial⟩
    · rw [List.map_append, Open.rest_value, flatMap_marked_value, List.append_assoc]
    · obtain ⟨b, hb, hlast⟩ := flatMap_marked_getLast? hne hss
      exact ⟨b, by rw [List.getLast?_append, Option.mem_def.mp hb]; rfl, hlast⟩
  | @head cc o ss sent todo hsent htodo =>
    obtain ⟨b, tl, hb, hfirst⟩ : ∃ b tl, ss.flatMap marked ++ (marked (sent ++ todo)).take sent.length = b :: tl ∧
        b.first = true := by
      cases ss with
      | nil =>
        obtain ⟨b, tl, hb, hfirst⟩ := marked_head (hss (sent ++ todo) (by simp))
        obtain ⟨n, hn⟩ := Nat.exists_eq_succ_of_ne_zero (mt List.length_eq_zero_iff.mp hsent)
        exact ⟨b, tl.take n, by rw [hb, hn]; rfl, hfirst⟩
      | cons s ss =>
        obtain ⟨b, tl, hb, hfirst⟩ := marked_head (hss s (by simp))
        exact ⟨b, _, by rw [List.flatMap_cons, hb]; rfl, hfirst⟩
    have hfind := findIdx_starts ho hfirst tl
    rw [← hb] at hfind
    refine ⟨_, ⟨⟨0, ?_, fun h => absurd h (Nat.lt_irrefl 0)⟩, iff_of_true rfl hfind.1, fun _ => hfind.2⟩, ?_, hsent, htodo⟩
    · rw [List.map_append, Open.rest_value, List.map_append, flatMap_marked_value, List.map_take, marked_value,
        List.take_left]
      exact (List.append_nil _).symm
    · rw [Open.rest, List.append_assoc, List.append_assoc, List.take_append_drop, List.flatMap_append,
        List.flatMap_singleton]

theorem Chain.chunks {holds : Nat → Nat → Prop} {i j : Nat} {o o1 : Open} {ks : List Packet} {ss : List (List UInt8)}
    (h : Chain holds i j o ks ss o1) (ho : o.Begun) (hss : ∀ s ∈ ss, s ≠ []) :
    ∃ chunks, List.Forall₂ Holds ks chunks ∧ chunks.flatten ++ o1.rest = o.rest ++ ss.flatMap marked := by
  induction h with
  | nil => exact ⟨[], .nil, (List.append_nil _).symm⟩
  | @cons i j o o1 o2 k ks ss ss' hcc hflow hcarry hnew rest ih =>
    obtain ⟨chunk, hk, hchunk, ho1⟩ := hflow.chunk ho fun s hs => hss s (List.mem_append_left _ hs)
    obtain ⟨chunks, hks, hchunks⟩ := ih ho1 fun s hs => hss s (List.mem_append_right _ hs)
    refine ⟨chunk :: chunks, .cons hk hks, ?_⟩
    rw [List.flatten_cons, List.append_assoc, hchunks, ← List.append_assoc, hchunk, List.append_assoc,
      List.flatMap_append]

end Mopa.SectionStream
