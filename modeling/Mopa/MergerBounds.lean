import Mopa.Lib.Machine
import Mopa.MergerStep

/-! Memory bounds and coherence of the extractor on arbitrary packets. -/
namespace Mopa.Merger

def WellFormed : List UInt8 → Prop
  | t :: b1 :: b2 :: rest => t ≠ 0xff ∧ rest.length + 3 = dvbSectionLength b1 b2
  | _ => False

instance : DecidablePred WellFormed := fun
  | _ :: _ :: _ :: _ => inferInstanceAs (Decidable (_ ∧ _))
  | [] | [_] | [_, _] => isFalse id

theorem wellFormed_read (m : Memory UInt8) (o : Nat) (ht : m o ≠ 0xff) :
    WellFormed (m.read o (dvbSectionLength (m (o+1)) (m (o+2)))) := by
  obtain ⟨d, hd⟩ := Nat.exists_eq_add_of_le (dvbSectionLength_ge (m (o+1)) (m (o+2)))
  rw [hd, Nat.add_comm 3 d]
  exact ⟨ht, by rw [Memory.read_length, hd, Nat.add_comm]⟩

/-- What the loop may leave behind for the next packet: fewer than three bytes, or
the beginning of a section that will fit. -/
def Unfinished (max : Nat) (data : Memory UInt8) (dataLen : Nat) : Prop :=
  dataLen < 3 ∨ (dataLen < dvbSectionLength (data 1) (data 2) ∧
    dvbSectionLength (data 1) (data 2) ≤ max)

/-- Events of the loop over the buffer range `[secP, filled)`. -/
def Collects (max : Nat) (data : Memory UInt8) (secP filled : Nat) : Event → Prop
  | .fetch _ => False
  | .append .. => False
  | .compact src n => src + n ≤ filled
  | .sectionReady pos bytes => secP ≤ pos ∧ pos + bytes.length ≤ filled ∧
      bytes = data.read pos bytes.length ∧ WellFormed bytes ∧ bytes.length ≤ max

theorem Collects.later {max : Nat} {data : Memory UInt8} {secP secP' filled : Nat} {e : Event}
    (h : Collects max data secP' filled e) (hle : secP ≤ secP') : Collects max data secP filled e := by
  cases e with
  | sectionReady pos bytes => exact ⟨hle.trans h.1, h.2⟩
  | _ => exact h

namespace PsiExtractorImpl

theorem moreSections_frame (x : PsiExtractorImpl) (secP : Nat) :
    (x.moreSections secP).1.maxSectionSize = x.maxSectionSize ∧
    (x.moreSections secP).1.callback = x.callback ∧ (x.moreSections secP).1.cc = x.cc := by
  fun_induction moreSections x secP <;> simp_all

theorem moreSections_events (x : PsiExtractorImpl) (secP : Nat) :
    ∀ e ∈ (x.moreSections secP).2,
      Collects x.maxSectionSize x.data secP (secP + x.dataLen) e := by
  fun_induction moreSections x secP with
  | case1 => simp
  | case2 => simp [Collects]
  | case3 => simp
  | case4 => simp
  | case5 x secP hff hlen size hmax hge hcb ready hleft x' evs heq ih =>
    have hrest : secP + size + (x.dataLen - size) = secP + x.dataLen := by omega
    rw [heq] at ih
    intro e he
    rcases List.mem_cons.mp he with rfl | he
    · refine ⟨le_rfl, ?_, ?_, wellFormed_read _ _ fun h => hff ⟨by omega, h⟩, ?_⟩ <;>
        simp only [Memory.read_length] <;> omega
    · have h := ih e he
      simp only [hrest] at h
      exact h.later (Nat.le_add_right secP size)
  | case6 x secP hff hlen size hmax hge hcb ready hleft =>
    intro e he
    rw [List.mem_singleton] at he
    subst he
    refine ⟨le_rfl, ?_, ?_, wellFormed_read _ _ fun h => hff ⟨by omega, h⟩, ?_⟩ <;>
      simp only [Memory.read_length] <;> omega
  | case7 => simp [Collects]

theorem handled_frame (x : PsiExtractorImpl) (p : Memory UInt8) :
    (x.handled p).1.maxSectionSize = x.maxSectionSize ∧ (x.handled p).1.callback = x.callback := by
  unfold handled
  cases x.content p with
  | none =>
    dsimp only [dropped]
    split
    · exact ⟨rfl, rfl⟩
    · exact ⟨rfl, rfl⟩
  | some bytes =>
    obtain ⟨hmax, hcb, -⟩ := moreSections_frame { x.opened p with
      data := (x.opened p).data.write (x.opened p).dataLen (p.read (x.contentAt p) (tsPacketLen - x.contentAt p))
      dataLen := (x.opened p).dataLen + (tsPacketLen - x.contentAt p) } 0
    exact ⟨hmax, hcb⟩

theorem tsPacket_frame (x : PsiExtractorImpl) (p : Memory UInt8) :
    (x.tsPacket p).1.maxSectionSize = x.maxSectionSize ∧ (x.tsPacket p).1.callback = x.callback := by
  rw [tsPacket_eq]
  exact x.handled_frame p

theorem compact_cell (m : Memory UInt8) (secP n i : Nat) (hi : i < n) :
    m.write 0 (m.read secP n) i = m (secP+i) := by
  simp [Memory.write, hi]

theorem moreSections_rest (x : PsiExtractorImpl) (secP : Nat)
    (h : (x.moreSections secP).1.state = .waitMore) :
    (x.moreSections secP).1.dataLen ≤ x.dataLen ∧
    (x.moreSections secP).1.data.read 0 (x.moreSections secP).1.dataLen =
      x.data.read (secP + x.dataLen - (x.moreSections secP).1.dataLen)
        (x.moreSections secP).1.dataLen ∧
    Unfinished x.maxSectionSize (x.moreSections secP).1.data (x.moreSections secP).1.dataLen := by
  fun_induction moreSections x secP with
  | case1 | case3 | case4 | case6 => cases h
  | case2 x secP hff hlen =>
    refine ⟨le_rfl, ?_, Or.inl hlen⟩
    simpa using Memory.read_write_same x.data 0 (x.data.read secP x.dataLen)
  | case5 x secP hff hlen size hmax hge hcb ready hleft x' evs heq ih =>
    rw [heq] at ih
    obtain ⟨hle, hread, hun⟩ := ih h
    have hrest : secP + size + (x.dataLen - size) = secP + x.dataLen := by omega
    refine ⟨hle.trans (Nat.sub_le _ _), ?_, hun⟩
    simpa only [hrest] using hread
  | case7 x secP hff hlen size hmax hge =>
    refine ⟨le_rfl, ?_, Or.inr ?_⟩
    · simpa using Memory.read_write_same x.data 0 (x.data.read secP x.dataLen)
    · dsimp only
      rw [compact_cell _ _ _ 1 (by omega), compact_cell _ _ _ 2 (by omega)]
      exact ⟨Nat.lt_of_not_le hge, Nat.le_of_not_lt hmax⟩

end PsiExtractorImpl

def received (evs : List Event) : List UInt8 :=
  evs.flatMap fun
    | .append _ _ bytes => bytes
    | _ => []

/-- End of the buffer bytes valid after a trace: behind the last append. -/
def filled (evs : List Event) : Nat :=
  evs.foldl (fun n e => match e with
    | .append dst _ bytes => dst + bytes.length
    | _ => n) 0

/-- One effect is in bounds and coherent after the effects `pre`. -/
def Safe (max : Nat) (pre : List Event) : Event → Prop
  | .fetch _ => True
  | .append dst src bytes => dst + bytes.length ≤ max + 184 ∧ src + bytes.length ≤ tsPacketLen
  | .compact src n => src + n ≤ max + 184
  | .sectionReady pos bytes =>
      pos + bytes.length ≤ filled pre ∧ bytes <:+: received pre ∧
      WellFormed bytes ∧ bytes.length ≤ max

def SafeTrace (max : Nat) (evs : List Event) : Prop :=
  ∀ pre e post, evs = pre ++ e :: post → Safe max pre e

theorem SafeTrace.nil (max : Nat) : SafeTrace max [] := by
  intro pre e post h
  simp at h

theorem SafeTrace.snoc {max : Nat} {evs : List Event} {e : Event} (h : SafeTrace max evs)
    (he : Safe max evs e) : SafeTrace max (evs ++ [e]) := by
  intro pre e' post heq
  rcases List.append_eq_append_iff.mp heq with ⟨l, hl, hr⟩ | ⟨l, hl, hr⟩
  · cases l with
    | nil =>
      simp only [List.append_nil, List.nil_append, List.cons.injEq] at hl hr
      rw [hl, ← hr.1]
      exact he
    | cons a l => simp at hr
  · cases l with
    | nil =>
      simp only [List.append_nil, List.nil_append, List.cons.injEq] at hl hr
      rw [← hl, hr.1]
      exact he
    | cons a l =>
      rw [List.cons_append, List.cons.injEq] at hr
      exact h pre e' l (by rw [hl, hr.1])

theorem SafeTrace.quiet {max : Nat} {evs new : List Event} (h : SafeTrace max evs)
    (hq : ∀ e ∈ new, ∀ dst src bytes, e ≠ .append dst src bytes)
    (hs : ∀ e ∈ new, ∀ pre, filled pre = filled evs → received pre = received evs → Safe max pre e) :
    SafeTrace max (evs ++ new) ∧ filled (evs ++ new) = filled evs ∧
      received (evs ++ new) = received evs := by
  induction new generalizing evs with
  | nil => simpa using h
  | cons e new ih =>
    have hfill : filled (evs ++ [e]) = filled evs := by
      cases e with
      | append dst src bytes => exact absurd rfl (hq _ List.mem_cons_self dst src bytes)
      | _ => simp [filled]
    have hrec : received (evs ++ [e]) = received evs := by
      cases e with
      | append dst src bytes => exact absurd rfl (hq _ List.mem_cons_self dst src bytes)
      | _ => simp [received]
    have h' := h.snoc (hs e List.mem_cons_self evs rfl rfl)
    obtain ⟨ht, hf, hr⟩ := ih h' (fun e' he' => hq e' (List.mem_cons_of_mem e he'))
      fun e' he' pre hpf hpr => hs e' (List.mem_cons_of_mem e he') pre (hpf.trans hfill) (hpr.trans hrec)
    rw [List.append_cons]
    exact ⟨ht, hf.trans hfill, hr.trans hrec⟩

/-- The invariant between packets, over everything that happened so far. -/
structure Coherent (max : Nat) (x : PsiExtractorImpl) (evs : List Event) : Prop where
  bound : x.maxSectionSize = max
  trace : SafeTrace max evs
  rest : x.state = .waitMore →
    Unfinished max x.data x.dataLen ∧ x.data.read 0 x.dataLen <:+ received evs

theorem SafeTrace.fetches {max : Nat} {evs fs : List Event} (h : SafeTrace max evs)
    (hf : ∀ e ∈ fs, ∃ pos, e = .fetch pos) :
    SafeTrace max (evs ++ fs) ∧ received (evs ++ fs) = received evs := by
  have hq := h.quiet (fun e he dst src bytes heq => by
    obtain ⟨pos, rfl⟩ := hf e he
    cases heq) fun e he pre _ _ => by
    obtain ⟨pos, rfl⟩ := hf e he
    trivial
  exact ⟨hq.1, hq.2.2⟩

theorem filled_append (evs : List Event) (dst src : Nat) (bytes : List UInt8) :
    filled (evs ++ [.append dst src bytes]) = dst + bytes.length := by
  simp [filled]

theorem received_append (evs : List Event) (dst src : Nat) (bytes : List UInt8) :
    received (evs ++ [.append dst src bytes]) = received evs ++ bytes := by
  simp [received]

theorem Coherent.kept_le {max : Nat} {x : PsiExtractorImpl} {evs : List Event} (hmax : 2 ≤ max)
    (h : Coherent max x evs) : x.kept ≤ max := by
  unfold PsiExtractorImpl.kept
  cases hs : x.state with
  | waitStart => exact Nat.zero_le _
  | waitMore =>
    rcases (h.rest hs).1 with hlt | ⟨hlt, hle⟩
    · dsimp only; omega
    · dsimp only; omega

theorem Coherent.kept_suffix {max : Nat} {x : PsiExtractorImpl} {evs : List Event}
    (h : Coherent max x evs) : x.data.read 0 x.kept <:+ received evs := by
  unfold PsiExtractorImpl.kept
  cases hs : x.state with
  | waitStart => exact List.nil_suffix
  | waitMore => exact (h.rest hs).2

theorem appendPayload_coherent {max : Nat} (y : PsiExtractorImpl) (p : Memory UInt8) (pos : Nat)
    {evs : List Event} (ht : SafeTrace max evs) (hb : y.maxSectionSize = max)
    (hlen : y.dataLen ≤ max) (hsuf : y.data.read 0 y.dataLen <:+ received evs)
    (hlow : 4 ≤ pos) (hpos : pos ≤ tsPacketLen) :
    Coherent max (y.appendPayload p pos).1 (evs ++ (y.appendPayload p pos).2) := by
  have hL : tsPacketLen = 188 := rfl
  let bytes := p.read pos (tsPacketLen - pos)
  let z : PsiExtractorImpl := { y with
    data := y.data.write y.dataLen bytes, dataLen := y.dataLen + (tsPacketLen - pos) }
  have hblen : bytes.length = tsPacketLen - pos := Memory.read_length _ _ _
  have heq : y.appendPayload p pos =
      ((z.moreSections 0).1, .append y.dataLen pos bytes :: (z.moreSections 0).2) := rfl
  have hz : z.data.read 0 z.dataLen = y.data.read 0 y.dataLen ++ bytes := by
    have he := Memory.read_write_extend y.data 0 y.dataLen bytes
    simpa only [Nat.zero_add, hblen] using he
  have happ : SafeTrace max (evs ++ [.append y.dataLen pos bytes]) :=
    ht.snoc ⟨by omega, by omega⟩
  have hsuf' : z.data.read 0 z.dataLen <:+ received (evs ++ [.append y.dataLen pos bytes]) := by
    rw [hz, received_append]
    obtain ⟨l, hl⟩ := hsuf
    exact ⟨l, by rw [← hl, List.append_assoc]⟩
  have hcol := z.moreSections_events 0
  obtain ⟨hquiet, hfill, hrec⟩ := happ.quiet
    (fun e he dst src bs heq => by
      subst heq
      exact hcol _ he)
    fun e he pre hpf hpr => by
      have hc := hcol e he
      have hzl : z.dataLen = y.dataLen + (tsPacketLen - pos) := rfl
      cases e with
      | fetch pos => trivial
      | append dst src bs => exact hc.elim
      | compact src n =>
        have : src + n ≤ 0 + z.dataLen := hc
        show src + n ≤ max + 184
        omega
      | sectionReady pos' bs =>
        obtain ⟨-, hle, hbs, hwf, hbm⟩ := hc
        refine ⟨?_, ?_, hwf, hb ▸ hbm⟩
        · rw [hpf, filled_append]
          omega
        · rw [hpr]
          refine List.IsInfix.trans ?_ hsuf'.isInfix
          rw [hbs, show z.dataLen = pos' + (bs.length + (z.dataLen - (pos' + bs.length))) by omega,
            Memory.read_add, Memory.read_add, Nat.zero_add]
          exact ⟨_, _, List.append_assoc _ _ _⟩
  rw [heq, List.append_cons]
  refine ⟨(z.moreSections_frame 0).1.trans hb, hquiet, fun hs => ?_⟩
  obtain ⟨hle, hread, hun⟩ := z.moreSections_rest 0 hs
  refine ⟨by rwa [← hb], ?_⟩
  rw [hread, hrec]
  refine List.IsSuffix.trans ?_ hsuf'
  rw [show z.dataLen = (0 + z.dataLen - (z.moreSections 0).1.dataLen) +
    (z.moreSections 0).1.dataLen by omega, Memory.read_add]
  exact ⟨_, by simp only [Nat.zero_add]; congr 2; omega⟩

theorem tsPacket_coherent {max : Nat} (hmax : 2 ≤ max) (x : PsiExtractorImpl) (evs : List Event)
    (p : Memory UInt8) (h : Coherent max x evs) :
    Coherent max (x.tsPacket p).1 (evs ++ (x.tsPacket p).2) := by
  obtain ⟨ht, hr⟩ := @SafeTrace.fetches _ _ ((x.lengthBytes p).map .fetch) h.trace (by simp)
  rw [PsiExtractorImpl.tsPacket_eq, ← List.append_assoc]
  unfold PsiExtractorImpl.handled
  cases hcontent : x.content p with
  | none =>
    refine ⟨?_, by rwa [List.append_nil], fun hw => by cases hw⟩
    dsimp only [PsiExtractorImpl.dropped]
    split
    · exact h.bound
    · exact h.bound
  | some bytes =>
    obtain ⟨⟨-, hpos⟩, -⟩ := PsiExtractorImpl.content_eq_some.mp hcontent
    exact appendPayload_coherent (x.opened p) p (x.contentAt p) ht h.bound (h.kept_le hmax) (hr ▸ h.kept_suffix)
      (x.contentAt_ge_four p) hpos

/-- The packet does not run over the buffer, behind what is kept there. -/
def PsiExtractorImpl.HasRoom (x : PsiExtractorImpl) (p : Memory UInt8) : Prop :=
  ∀ bytes, x.content p = some bytes → x.kept + bytes.length ≤ x.dataSize

theorem tsPacket_inside (x : PsiExtractorImpl) (p : Memory UInt8) :
    (∀ e ∈ (x.tsPacket p).2, ¬ e.Overruns x.dataSize) ↔ x.HasRoom p := by
  rw [PsiExtractorImpl.tsPacket_eq, PsiExtractorImpl.HasRoom, PsiExtractorImpl.handled]
  cases hcontent : x.content p with
  | none =>
    refine iff_of_true (fun e he => ?_) fun bytes h => by cases h
    dsimp only at he
    rw [List.append_nil] at he
    obtain ⟨pos, -, rfl⟩ := List.mem_map.mp he
    exact id
  | some bytes =>
    obtain ⟨-, rfl⟩ := PsiExtractorImpl.content_eq_some.mp hcontent
    constructor
    · intro h bytes hbytes
      cases hbytes
      exact not_lt.mp (h _ (List.mem_append_right _ List.mem_cons_self))
    · intro h e he
      have hroom := h _ rfl
      rcases List.mem_append.mp he with he | he
      · obtain ⟨pos, -, rfl⟩ := List.mem_map.mp he
        exact id
      · rcases List.mem_cons.mp he with rfl | he
        · exact not_lt.mpr hroom
        · have hcollects := PsiExtractorImpl.moreSections_events _ 0 e he
          rw [Memory.read_length] at hroom
          cases e with
          | fetch => exact id
          | append => exact hcollects.elim
          | compact src n =>
            have hle : src + n ≤ 0 + (x.kept + (tsPacketLen - x.contentAt p)) := hcollects
            exact not_lt.mpr (by omega)
          | sectionReady pos bytes =>
            have hle : pos + bytes.length ≤ 0 + (x.kept + (tsPacketLen - x.contentAt p)) := hcollects.2.1
            exact not_lt.mpr (by omega)

theorem tsPacket_dataSize (x : PsiExtractorImpl) (p : Memory UInt8) : (x.tsPacket p).1.dataSize = x.dataSize :=
  congrArg (· + 184) (x.tsPacket_frame p).1

def PsiExtractorImpl.HoldsAll (x : PsiExtractorImpl) (ps : List (Memory UInt8)) : Prop :=
  ∀ pre p post, ps = pre ++ p :: post → (Machine.run PsiExtractorImpl.tsPacket x pre).1.HasRoom p

theorem run_inside (ps : List (Memory UInt8)) (x : PsiExtractorImpl) :
    (∀ e ∈ (Machine.run PsiExtractorImpl.tsPacket x ps).2, ¬ e.Overruns x.dataSize) ↔ x.HoldsAll ps := by
  unfold PsiExtractorImpl.HoldsAll
  induction ps generalizing x with
  | nil => simp
  | cons p ps ih =>
    have hrest := ih (x.tsPacket p).1
    rw [tsPacket_dataSize] at hrest
    rw [Machine.run_cons, List.forall_mem_append, tsPacket_inside, hrest]
    constructor
    · rintro ⟨hfirst, hrest⟩ pre q post heq
      cases pre with
      | nil => exact (List.cons.inj heq).1 ▸ hfirst
      | cons p' pre =>
        obtain ⟨rfl, htail⟩ := List.cons.inj heq
        exact hrest pre q post htail
    · intro h
      exact ⟨h [] p ps rfl, fun pre q post heq => h (p :: pre) q post (congrArg (p :: ·) heq)⟩

theorem run_hasRoom {maxSectionSize : Nat} (hmax : 2 ≤ maxSectionSize) (data : Memory UInt8) (cb : Bool)
    (pre : List (Memory UInt8)) (p : Memory UInt8) :
    (Machine.run PsiExtractorImpl.tsPacket ((create maxSectionSize data).onSectionReady cb) pre).1.HasRoom p := by
  have h := Machine.run_invariant PsiExtractorImpl.tsPacket (Coherent (min maxSectionSize 4096)) (fun _ => True)
    (fun x evs p _ h => tsPacket_coherent (by omega) x evs p h) pre (fun _ _ => trivial)
    ((create maxSectionSize data).onSectionReady cb) [] ⟨rfl, SafeTrace.nil _, fun hs => by cases hs⟩
  intro bytes hcontent
  obtain ⟨-, rfl⟩ := PsiExtractorImpl.content_eq_some.mp hcontent
  have hkept := h.kept_le (by omega)
  have hat := PsiExtractorImpl.contentAt_ge_four (Machine.run PsiExtractorImpl.tsPacket
    ((create maxSectionSize data).onSectionReady cb) pre).1 p
  have hL : tsPacketLen = 188 := rfl
  rw [Memory.read_length, PsiExtractorImpl.dataSize, h.bound]
  omega

/-- For every run over arbitrary packets from a fresh extractor: all copies stay
inside the buffer and the packet, every delivered slice is a well-formed section
made of received bytes, and what is kept between packets is bounded. -/
theorem extractor_safe (maxSectionSize : Nat) (hmax : 3 ≤ maxSectionSize) (data : Memory UInt8)
    (cb : Bool) (packets : List (Memory UInt8)) :
    let r := Machine.run PsiExtractorImpl.tsPacket
      ((create maxSectionSize data).onSectionReady cb) packets
    SafeTrace (min maxSectionSize 4096) r.2 ∧
    (r.1.state = .waitMore →
      Unfinished (min maxSectionSize 4096) r.1.data r.1.dataLen) := by
  have h := Machine.run_invariant PsiExtractorImpl.tsPacket (Coherent (min maxSectionSize 4096))
    (fun _ => True)
    (fun x evs p _ h => tsPacket_coherent (by omega) x evs p h) packets (fun _ _ => trivial)
    ((create maxSectionSize data).onSectionReady cb) []
    ⟨rfl, SafeTrace.nil _, fun hs => by cases hs⟩
  exact ⟨by simpa using h.trace, fun hs => (h.rest hs).1⟩

theorem extractor_safe_witness :
    let r := Machine.run PsiExtractorImpl.tsPacket
      ((create 3 fun _ => 0).onSectionReady true) [fun i => if i = 1 then 0x40 else 0]
    SafeTrace (min 3 4096) r.2 ∧
    (r.1.state = .waitMore → Unfinished (min 3 4096) r.1.data r.1.dataLen) :=
  extractor_safe 3 (by decide) (fun _ => 0) true [fun i => if i = 1 then 0x40 else 0]

end Mopa.Merger
