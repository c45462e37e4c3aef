import Mopa.Descriptors
import Mopa.Lib.Ownership

/-! `descriptor_vector` as it is: pointers to descriptors on the heap, with the copies and
deletions of its member functions. Elsewhere a vector is the list of its descriptors, and its
`io` is `descriptorVectorIo`. -/
namespace Mopa.Dvb
open Io Outcome Ownership

/-- How a member function ends, if it does not return. -/
inductive Fault where
  | halt (h : Halt)
  | dangling         -- an access to a descriptor that is not alive
  deriving DecidableEq, Repr

/-- What `descriptor_vector::io` works on: the heap, the pointers of the vector and `x`. -/
structure Member (m : Mode) where
  heap : Heap Descriptor
  items : List Nat
  ctx : Ctx m

abbrev Vio (m : Mode) := EStateM Fault (Member m)

namespace Vio
variable {m : Mode} {α : Type}

/-- An operation on `x` alone. -/
def lift (x : Iox m α) : Vio m α := fun s =>
  match x s.ctx with
  | .ok a c => .ok a { s with ctx := c }
  | .error e c => .error (.halt e) { s with ctx := c }

def load (p : Nat) : Vio m Descriptor := fun s =>
  match s.heap.load p with
  | some d => .ok d s
  | none => .error .dangling s

def store (p : Nat) (d : Descriptor) : Vio m Unit := fun s =>
  match s.heap.store p d with
  | some h => .ok () { s with heap := h }
  | none => .error .dangling s

def new (d : Descriptor) : Vio m Nat := fun s => .ok (s.heap.new d).1 { s with heap := (s.heap.new d).2 }

def pushBack (p : Nat) : Vio m Unit := modify fun s => { s with items := s.items ++ [p] }

def back : Vio m Nat := fun s =>
  match s.items.getLast? with
  | some p => .ok p s
  | none => .error .dangling s

/-- `descriptor_vector::purge` -/
def purge : Vio m Unit := fun s =>
  match s.heap.deleteAll s.items with
  | some h => .ok () { s with heap := h, items := [] }
  | none => .error .dangling s

/-- The virtual `io` of a descriptor. If it throws in parsing, the descriptor is left with some of
its fields filled in; `torn` says with which. Construction only sets the length, behind all that throws. -/
def ioAt (torn : Descriptor → Descriptor) (fuel : Nat) (service : Service) (p : Nat) : Vio m Unit := do
  let d ← load p
  fun s => match Descriptor.io fuel service d s.ctx with
    | .ok d' c => store p d' { s with ctx := c }
    | .error e c =>
      (store p (if m.isParsing then torn d else d) >>= fun _ => throw (Fault.halt e) : Vio m Unit) { s with ctx := c }

/-- The descriptor that the factory has for the tag. It is owned by the vector before it is read. -/
def pushNew (tag : UInt8) : Vio m Nat := do
  let dsc ← new ⟨0, 0, descriptorFactory tag⟩
  pushBack dsc
  store dsc { (← load dsc) with tag := tag }
  back

/-- The loop of parsing. -/
def parseItems (torn : Descriptor → Descriptor) (fuel : Nat) (service : Service) : Nat → Vio m Unit
  | 0 => throw (.halt .fuel)
  | turns+1 => do
    if (← lift Iox.blockSizeLeft) > 0 then
      let tag ← lift (Iox.uint8 8 0 (dvbInfo "tag"))
      ioAt torn fuel service (← pushNew tag)
      parseItems torn fuel service turns
    else
      return ()

def constructItems (torn : Descriptor → Descriptor) (fuel : Nat) (service : Service) : List Nat → Vio m Unit
  | [] => return ()
  | p :: ps => do
    ioAt torn fuel service p
    constructItems torn fuel service ps

/-- `descriptor_vector::io` -/
def io (torn : Descriptor → Descriptor) (fuel : Nat) (service : Service) : Vio m Unit := do
  if m.isParsing then
    purge
    parseItems torn fuel service fuel
  else
    constructItems torn fuel service (← get).items

/-- The list that parsing leaves. -/
def parsedItems (torn : Descriptor → Descriptor) (fuel : Nat) (service : Service) :
    Nat → List Descriptor → Ctx m → List Descriptor
  | 0, list, _ => list
  | turns+1, list, c =>
    match Iox.blockSizeLeft c with
    | .error _ _ => list
    | .ok left c =>
      if left > 0 then
        match Iox.uint8 8 0 (dvbInfo "tag") c with
        | .error _ _ => list
        | .ok tag c =>
          -- the descriptor is in the vector before it is read
          match Descriptor.io fuel service ⟨tag, 0, descriptorFactory tag⟩ c with
          | .error _ _ => list ++ [torn ⟨tag, 0, descriptorFactory tag⟩]
          | .ok d c => parsedItems torn fuel service turns (list ++ [d]) c
      else
        list

/-- The list that construction leaves. -/
def constructedItems (fuel : Nat) (service : Service) : List Descriptor → Ctx m → List Descriptor
  | [], _ => []
  | d :: ds, c =>
    match Descriptor.io fuel service d c with
    | .error _ _ => d :: ds
    | .ok d' c => d' :: constructedItems fuel service ds c

/-- The list that `io` leaves, whether it returns or throws. -/
def itemsLeft (torn : Descriptor → Descriptor) (fuel : Nat) (service : Service) (list : List Descriptor) (c : Ctx m) :
    List Descriptor :=
  if m.isParsing then
    parsedItems torn fuel service fuel [] c
  else
    constructedItems fuel service list c

section Spec
variable {torn : Descriptor → Descriptor} {fuel : Nat} {service : Service} {s : Member m} {frame : Set Nat}

/-- The run of a member function beside the value that the list of descriptors takes. Whether it
returns or throws, the vector owns its pointers to the list that is left, and the frame is as it was. -/
def Agrees (frame : Set Nat) (h : Heap Descriptor) (r : EStateM.Result Halt (Ctx m) (List Descriptor))
    (left : List Descriptor) : EStateM.Result Fault (Member m) Unit → Prop
  | .ok _ s => s.heap.Owns s.items frame ∧ h.Keeps s.heap frame ∧ r = .ok left s.ctx ∧ s.heap.Holds s.items left
  | .error (.halt e) s => s.heap.Owns s.items frame ∧ h.Keeps s.heap frame ∧ r = .error e s.ctx ∧ s.heap.Holds s.items left
  | .error .dangling _ => False

theorem ioAt_ok (torn : Descriptor → Descriptor) {p : Nat} {d d' : Descriptor} {c : Ctx m} (ho : s.heap.Owns s.items frame) (hp : p ∈ s.items)
    (hd : s.heap.cells p = some d) (hio : Descriptor.io fuel service d s.ctx = .ok d' c) :
    ∃ h, ioAt torn fuel service p s = .ok () ⟨h, s.items, c⟩ ∧ h.Owns s.items frame ∧ h.cells p = some d' ∧
      s.heap.Keeps h {q | q ≠ p} := by
  obtain ⟨h, hstore, howns, hcell, hkeeps⟩ := ho.store hp d'
  have hload : load (m := m) p s = .ok d s := by
    unfold load Heap.load
    rw [hd]
  refine ⟨h, (bind_ok hload).trans ?_, howns, hcell, hkeeps⟩
  rw [hio]
  show store p d' _ = _
  unfold store
  dsimp only
  rw [hstore]

theorem ioAt_error (torn : Descriptor → Descriptor) {p : Nat} {d : Descriptor} {e : Halt} {c : Ctx m} (ho : s.heap.Owns s.items frame) (hp : p ∈ s.items)
    (hd : s.heap.cells p = some d) (hio : Descriptor.io fuel service d s.ctx = .error e c) :
    ∃ h, ioAt torn fuel service p s = .error (.halt e) ⟨h, s.items, c⟩ ∧ h.Owns s.items frame ∧
      h.cells p = some (if m.isParsing then torn d else d) ∧ s.heap.Keeps h {q | q ≠ p} := by
  obtain ⟨h, hstore, howns, hcell, hkeeps⟩ := ho.store hp (if m.isParsing then torn d else d)
  have hload : load (m := m) p s = .ok d s := by
    unfold load Heap.load
    rw [hd]
  refine ⟨h, (bind_ok hload).trans ?_, howns, hcell, hkeeps⟩
  rw [hio]
  have hstored : store p (if m.isParsing then torn d else d) { s with ctx := c } = .ok () ⟨h, s.items, c⟩ := by
    unfold store
    dsimp only
    rw [hstore]
  exact bind_ok hstored

theorem lift_ok {α : Type} {x : Iox m α} {a : α} {c : Ctx m} (h : x s.ctx = .ok a c) : lift x s = .ok a { s with ctx := c } := by
  unfold lift
  rw [h]

theorem lift_error {α : Type} {x : Iox m α} {e : Halt} {c : Ctx m} (h : x s.ctx = .error e c) :
    lift x s = .error (.halt e) { s with ctx := c } := by
  unfold lift
  rw [h]

theorem constructItems_agrees (torn : Descriptor → Descriptor) (fuel : Nat) (service : Service) {ps done : List Nat}
    {list ds : List Descriptor} (h0 : Heap Descriptor) (hm : m.isParsing = false) (hk : h0.Keeps s.heap frame) (hitems : s.items = done ++ ps) (ho : s.heap.Owns s.items frame)
    (hdone : s.heap.Holds done ds) (hps : s.heap.Holds ps list) :
    Agrees frame h0 (((ds ++ ·) <$> Iox.constructItems (Descriptor.io fuel service) list) s.ctx)
      (ds ++ constructedItems fuel service list s.ctx) (constructItems torn fuel service ps s) := by
  induction ps generalizing s done ds list with
  | nil =>
    cases hps
    rw [List.append_nil] at hitems
    refine ⟨ho, hk, map_ok (ds ++ ·) rfl, ?_⟩
    rw [constructedItems, List.append_nil, hitems]
    exact hdone
  | cons p ps ih =>
    cases hps with
    | @cons _ d _ list hd hps =>
      have hps : s.heap.Holds ps list := hps
      have hmem : p ∈ s.items := hitems ▸ List.mem_append_right _ List.mem_cons_self
      have hapart (q : Nat) (hq : q ∈ frame) : q ≠ p := fun heq => ho.apart p hmem (heq ▸ hq)
      have hnodup := ho.nodup
      rw [hitems, List.nodup_append, List.nodup_cons] at hnodup
      obtain ⟨-, ⟨hnotin, -⟩, hdisjoint⟩ := hnodup
      cases hio : Descriptor.io fuel service d s.ctx with
      | error e c =>
        obtain ⟨h, hrun, howns, hcell, hkeeps⟩ := ioAt_error torn ho hmem hd hio
        rw [hm, if_neg Bool.false_ne_true] at hcell
        have hdone' : h.Holds done ds := hdone.keeps hkeeps fun q hq => hdisjoint q hq p List.mem_cons_self
        have hps' : h.Holds ps list := hps.keeps hkeeps fun q hq heq => hnotin (heq ▸ hq)
        have hlist : ((ds ++ ·) <$> Iox.constructItems (Descriptor.io fuel service) (d :: list)) s.ctx = .error e c := by
          rw [Iox.constructItems, map_bind, bind_error hio]
        rw [hlist, constructItems, bind_error hrun, constructedItems, hio]
        refine ⟨howns, hk.trans (hkeeps.mono hapart), rfl, ?_⟩
        show h.Holds s.items (ds ++ d :: list)
        rw [hitems]
        exact hdone'.append (.cons hcell hps')
      | ok d' c =>
        obtain ⟨h, hrun, howns, hcell, hkeeps⟩ := ioAt_ok torn ho hmem hd hio
        have hlist : ((ds ++ ·) <$> Iox.constructItems (Descriptor.io fuel service) (d :: list)) s.ctx =
            (((ds ++ [d']) ++ ·) <$> Iox.constructItems (Descriptor.io fuel service) list) c := by
          rw [Iox.constructItems, map_bind, bind_ok hio]
          simp only [map_eq_pure_bind, bind_assoc, pure_bind, List.append_assoc, List.singleton_append]
        have hdone' : h.Holds done ds := hdone.keeps hkeeps fun q hq => hdisjoint q hq p List.mem_cons_self
        rw [hlist, constructItems, bind_ok hrun, constructedItems, hio]
        have hitems' : s.items = (done ++ [p]) ++ ps := by
          rw [List.append_assoc]
          exact hitems
        have hrest := ih (s := ⟨h, s.items, c⟩) (hk.trans (hkeeps.mono hapart)) hitems' howns
          (hdone'.append (.cons hcell .nil)) (hps.keeps hkeeps fun q hq heq => hnotin (heq ▸ hq))
        rwa [List.append_assoc, List.singleton_append] at hrest

theorem pushNew_ok (ho : s.heap.Owns s.items frame) (tag : UInt8) :
    ∃ q h, pushNew tag s = .ok q ⟨h, s.items ++ [q], s.ctx⟩ ∧ h.Owns (s.items ++ [q]) frame ∧
      h.cells q = some ⟨tag, 0, descriptorFactory tag⟩ ∧ s.heap.Keeps h {p | (s.heap.cells p).isSome} := by
  obtain ⟨howns, hcell, hkeeps⟩ := ho.new ⟨0, 0, descriptorFactory tag⟩
  obtain ⟨h, hstore, howns', hcell', hkeeps'⟩ :=
    howns.store (List.mem_append_right _ (List.mem_singleton_self _)) ⟨tag, 0, descriptorFactory tag⟩
  have hlive (p : Nat) (hp : (s.heap.cells p).isSome) : p ≠ s.heap.next := fun heq => Nat.lt_irrefl _ (heq ▸ ho.below p hp)
  refine ⟨s.heap.next, h, ?_, howns', hcell', hkeeps.trans (hkeeps'.mono hlive)⟩
  have hload : load (m := m) s.heap.next ⟨(s.heap.new ⟨0, 0, descriptorFactory tag⟩).2, s.items ++ [s.heap.next], s.ctx⟩ =
      .ok ⟨0, 0, descriptorFactory tag⟩ ⟨(s.heap.new ⟨0, 0, descriptorFactory tag⟩).2, s.items ++ [s.heap.next], s.ctx⟩ := by
    unfold load Heap.load
    rw [show (s.heap.new ⟨0, 0, descriptorFactory tag⟩).2.cells s.heap.next = _ from hcell]
  have hstored : store (m := m) s.heap.next ⟨tag, 0, descriptorFactory tag⟩
      ⟨(s.heap.new ⟨0, 0, descriptorFactory tag⟩).2, s.items ++ [s.heap.next], s.ctx⟩ =
        .ok () ⟨h, s.items ++ [s.heap.next], s.ctx⟩ := by
    unfold store
    dsimp only
    rw [show (s.heap.new ⟨0, 0, descriptorFactory tag⟩).2.store s.heap.next _ = _ from hstore]
  have hback : back (m := m) ⟨h, s.items ++ [s.heap.next], s.ctx⟩ = .ok s.heap.next ⟨h, s.items ++ [s.heap.next], s.ctx⟩ := by
    unfold back
    dsimp only
    rw [List.getLast?_append_of_ne_nil _ (List.cons_ne_nil _ _)]
    rfl
  refine (bind_ok rfl).trans ((bind_ok rfl).trans ((bind_ok hload).trans ((bind_ok hstored).trans hback)))

theorem parseItems_agrees {turns : Nat} {list : List Descriptor} (h0 : Heap Descriptor) (hm : m.isParsing = true) (hk : h0.Keeps s.heap frame)
    (ho : s.heap.Owns s.items frame) (hlist : s.heap.Holds s.items list) :
    Agrees frame h0 (Iox.parseItems ⟨0, 0, descriptorFactory 0⟩ (fun _ => Descriptor.readAhead fuel service) turns list s.ctx)
      (parsedItems torn fuel service turns list s.ctx) (parseItems torn fuel service turns s) := by
  induction turns generalizing s list with
  | zero => exact ⟨ho, hk, rfl, hlist⟩
  | succ turns ih =>
    cases hleft : Iox.blockSizeLeft (m := m) s.ctx with
    | error e c =>
      rw [Iox.parseItems, bind_error hleft, parseItems, bind_error (lift_error hleft), parsedItems, hleft]
      exact ⟨ho, hk, rfl, hlist⟩
    | ok n c =>
      rw [Iox.parseItems, bind_ok hleft, parseItems, bind_ok (lift_ok hleft), parsedItems, hleft]
      dsimp only
      split
      · cases htag : Iox.uint8 (m := m) 8 0 (dvbInfo "tag") c with
        | error e c1 =>
          have hahead : Descriptor.readAhead fuel service c = .error e c1 := bind_error htag
          rw [bind_error hahead, bind_error (lift_error htag)]
          exact ⟨ho, hk, rfl, hlist⟩
        | ok tag c1 =>
          obtain ⟨q, h, hnew, howns, hcell, hkeeps⟩ := pushNew_ok (s := ⟨s.heap, s.items, c1⟩) ho tag
          have hmem : q ∈ s.items ++ [q] := List.mem_append_right _ (List.mem_singleton_self q)
          have hlive (p : Nat) (hp : p ∈ frame) : (s.heap.cells p).isSome := (ho.live p).mpr (.inr hp)
          have hapart (p : Nat) (hp : p ∈ frame) : p ≠ q := fun heq => howns.apart q hmem (heq ▸ hp)
          have hframe : h0.Keeps h frame := hk.trans (hkeeps.mono hlive)
          have hold (p : Nat) (hp : p ∈ s.items) : p ≠ q := by
            have hnodup := howns.nodup
            rw [List.nodup_append] at hnodup
            exact hnodup.2.2 p hp q (List.mem_singleton_self q)
          rw [bind_ok (lift_ok htag), bind_ok hnew]
          cases hio : Descriptor.io fuel service ⟨tag, 0, descriptorFactory tag⟩ c1 with
          | error e c2 =>
            obtain ⟨h', hrun, howns', hcell', hkeeps'⟩ :=
              ioAt_error torn (s := ⟨h, s.items ++ [q], c1⟩) howns hmem hcell hio
            rw [hm, if_pos rfl] at hcell'
            have hahead : Descriptor.readAhead fuel service c = .error e c2 := (bind_ok htag).trans hio
            have hlist' : h'.Holds s.items list := (hlist.keeps hkeeps hlist.live).keeps hkeeps' hold
            rw [bind_error hahead, bind_error hrun]
            dsimp only
            rw [hio]
            exact ⟨howns', hframe.trans (hkeeps'.mono hapart), rfl, hlist'.append (.cons hcell' .nil)⟩
          | ok d c2 =>
            obtain ⟨h', hrun, howns', hcell', hkeeps'⟩ :=
              ioAt_ok torn (s := ⟨h, s.items ++ [q], c1⟩) howns hmem hcell hio
            have hahead : Descriptor.readAhead fuel service c = .ok d c2 := (bind_ok htag).trans hio
            have hlist' : h'.Holds s.items list := (hlist.keeps hkeeps hlist.live).keeps hkeeps' hold
            rw [bind_ok hahead, bind_ok hrun]
            dsimp only
            rw [hio]
            exact ih (s := ⟨h', s.items ++ [q], c2⟩) (hframe.trans (hkeeps'.mono hapart)) howns'
              (hlist'.append (.cons hcell' .nil))
      · exact ⟨ho, hk, rfl, hlist⟩

/-- `io` is the loop over the list of descriptors. -/
theorem io_agrees (torn : Descriptor → Descriptor) (fuel : Nat) (service : Service) {list : List Descriptor} (ho : s.heap.Owns s.items frame) (hlist : s.heap.Holds s.items list) :
    Agrees frame s.heap (descriptorVectorIo fuel service list s.ctx) (itemsLeft torn fuel service list s.ctx)
      (io torn fuel service s) := by
  unfold io descriptorVectorIo itemsLeft
  by_cases hm : m.isParsing = true
  · rw [if_pos hm, if_pos hm, if_pos hm]
    rw [← List.append_nil s.items] at ho
    obtain ⟨h, hdelete, howns, hkeeps⟩ := ho.deleteAll
    have hpurge : purge s = .ok () ⟨h, [], s.ctx⟩ := by
      unfold purge
      rw [hdelete]
    rw [bind_ok hpurge]
    exact parseItems_agrees (s := ⟨h, [], s.ctx⟩) s.heap hm (hkeeps.mono fun p hp hmem => ho.apart p (by simpa using hmem) hp)
      howns .nil
  · rw [if_neg hm, if_neg hm, if_neg hm]
    have hloop := constructItems_agrees torn fuel service s.heap (Bool.eq_false_iff.mpr hm) (.refl _ frame)
      (List.nil_append s.items).symm ho .nil hlist
    simp only [List.nil_append, id_map'] at hloop
    exact hloop

end Spec

end Vio

/-- What a program does with its vectors. The contexts are those of the `iox` that it passes. -/
inductive Statement where
  | declare (v : Nat)                       -- descriptor_vector v;
  | copy (v w : Nat)                        -- descriptor_vector v(w);
  | assign (v w : Nat)                      -- v=w;
  | pushBack (v : Nat) (d : Descriptor)     -- v.push_back(new ...);
  | purge (v : Nat)
  | io (v : Nat) {m : Mode} (c : Ctx m) (fuel : Nat) (service : Service) (torn : Descriptor → Descriptor)
  | destroy (v : Nat)                       -- the end of its lifetime

/-- An access that has no result is one to a descriptor that is not alive. -/
def orDangling {α : Type} (x : Option α) : Except Fault α :=
  match x with
  | some a => .ok a
  | none => .error .dangling

theorem orDangling_bind {α β : Type} {x : Option α} {a : α} (h : x = some a) (f : α → Except Fault β) :
    (orDangling x >>= f) = f a := by
  rw [h]
  rfl

namespace Statement

/-- Exceptions are caught by the caller of `io`. -/
def exec (st : Store Descriptor) : Statement → Except Fault (Store Descriptor)
  | declare v => return st.put v (some []) st.heap
  | copy v w => do
    let (qs, h) ← orDangling (st.heap.copyAll (← orDangling (st.vectors w)))
    return st.put v (some qs) h
  | assign v w =>
    if v = w then
      return st
    else do
      let h ← orDangling (st.heap.deleteAll (← orDangling (st.vectors v)))
      let (qs, h) ← orDangling (h.copyAll (← orDangling (st.vectors w)))
      return st.put v (some qs) h
  | pushBack v d => do
    let ps ← orDangling (st.vectors v)
    return st.put v (some (ps ++ [(st.heap.new d).1])) (st.heap.new d).2
  | purge v => do
    let h ← orDangling (st.heap.deleteAll (← orDangling (st.vectors v)))
    return st.put v (some []) h
  | io v c fuel service torn => do
    let ps ← orDangling (st.vectors v)
    match Vio.io torn fuel service ⟨st.heap, ps, c⟩ with
    | .ok _ s => return st.put v (some s.items) s.heap
    | .error (.halt (.exception _ _)) s => return st.put v (some s.items) s.heap
    | .error e _ => throw e
  | destroy v => do
    let h ← orDangling (st.heap.deleteAll (← orDangling (st.vectors v)))
    return st.put v none h

/-- Vectors are declared before they are used, and not again. -/
def Scoped (alive : Nat → Prop) : Statement → Prop
  | declare v => ¬ alive v
  | copy v w => ¬ alive v ∧ alive w
  | assign v w => alive v ∧ alive w
  | pushBack v _ | purge v | io v _ _ _ _ | destroy v => alive v

/-- The vectors that are alive behind the statement. -/
def alive (before : Nat → Prop) : Statement → Nat → Prop
  | declare v | copy v _ => fun u => u = v ∨ before u
  | destroy v => fun u => u ≠ v ∧ before u
  | assign _ _ | pushBack _ _ | purge _ | io _ _ _ _ _ => before

/-- The statement as one on lists of descriptors. Behind an exception a vector holds what `io` leaves. -/
def Means (as as' : Nat → Option (List Descriptor)) : Statement → Prop
  | declare v | purge v => as' = Function.update as v (some [])
  | copy v w | assign v w => as' = Function.update as v (as w)
  | pushBack v d => ∃ list, as v = some list ∧ as' = Function.update as v (some (list ++ [d]))
  | io v c fuel service torn => ∃ list, as v = some list ∧ as' = Function.update as v (some
      (match descriptorVectorIo fuel service list c with
      | .ok list' _ => list'
      | .error _ _ => Vio.itemsLeft torn fuel service list c))
  | destroy v => as' = Function.update as v none

/-- The statement has a store to end in, or it is one that ends the program without an access
to what is not alive. -/
def Good (as : Nat → Option (List Descriptor)) (t : Statement) : Except Fault (Store Descriptor) → Prop
  | .ok st => st.Sound ∧ ∃ as', t.Means as as' ∧ st.Shows as'
  | .error e => e ≠ .dangling

section Step
variable {st : Store Descriptor} {as : Nat → Option (List Descriptor)} {v w : Nat}

theorem declare_good (hs : st.Sound) (ha : st.Shows as) (hv : ¬ (as v).isSome) : (declare v).Good as ((declare v).exec st) :=
  ⟨hs.put (hs.owns_nothing ha hv), _, rfl, ha.put (.refl _ _) (.some .nil)⟩

theorem copy_good (hs : st.Sound) (ha : st.Shows as) (hv : ¬ (as v).isSome) (hw : (as w).isSome) :
    (copy v w).Good as ((copy v w).exec st) := by
  obtain ⟨ps, list, hps, hlist, hholds⟩ := ha.exists_vector hw
  obtain ⟨qs, h, hcopy, hsound, hshows⟩ := hs.copied ha (hs.owns_nothing ha hv) (.refl _ _) hholds
  have hexec : (copy v w).exec st = .ok (st.put v (some qs) h) := (orDangling_bind hps _).trans (orDangling_bind hcopy _)
  rw [hexec]
  exact ⟨hsound, _, rfl, hlist ▸ hshows⟩

theorem assign_good (hs : st.Sound) (ha : st.Shows as) (hv : (as v).isSome) (hw : (as w).isSome) :
    (assign v w).Good as ((assign v w).exec st) := by
  by_cases heq : v = w
  · subst heq
    have hexec : (assign v v).exec st = .ok st := if_pos rfl
    rw [hexec]
    exact ⟨hs, as, (Function.update_eq_self v as).symm, ha⟩
  · obtain ⟨ps, -, hps, -, -⟩ := ha.exists_vector hv
    obtain ⟨qs, list, hqs, hlist, hholds⟩ := ha.exists_vector hw
    obtain ⟨h, hdelete, howns, hkeeps⟩ := hs.purged hps
    have hmem : ∀ q ∈ qs, q ∈ st.others v := Store.pointers_of_vectors hqs ▸ Store.mem_others (Ne.symm heq)
    obtain ⟨qs', h', hcopy, hsound, hshows⟩ := hs.copied ha howns hkeeps (hholds.keeps hkeeps hmem)
    have hexec : (assign v w).exec st = .ok (st.put v (some qs') h') :=
      (if_neg heq).trans ((orDangling_bind hps _).trans ((orDangling_bind hdelete _).trans
        ((orDangling_bind hqs _).trans (orDangling_bind hcopy _))))
    rw [hexec]
    exact ⟨hsound, _, rfl, hlist ▸ hshows⟩

theorem pushBack_good (d : Descriptor) (hs : st.Sound) (ha : st.Shows as) (hv : (as v).isSome) :
    (pushBack v d).Good as ((pushBack v d).exec st) := by
  obtain ⟨ps, list, hps, hlist, hholds⟩ := ha.exists_vector hv
  have hold := hs.owns_vector hps
  obtain ⟨howns, hcell, hkeeps⟩ := hold.new d
  have hexec : (pushBack v d).exec st = .ok (st.put v (some (ps ++ [(st.heap.new d).1])) (st.heap.new d).2) :=
    orDangling_bind hps _
  rw [hexec]
  refine ⟨hs.put howns, _, ⟨list, hlist, rfl⟩, ha.put (hkeeps.mono fun p hp => (hold.live p).mpr (.inr hp)) (.some ?_)⟩
  exact (hholds.keeps hkeeps hholds.live).append (.cons hcell .nil)

theorem purge_good (hs : st.Sound) (ha : st.Shows as) (hv : (as v).isSome) : (purge v).Good as ((purge v).exec st) := by
  obtain ⟨ps, -, hps, -, -⟩ := ha.exists_vector hv
  obtain ⟨h, hdelete, howns, hkeeps⟩ := hs.purged hps
  have hexec : (purge v).exec st = .ok (st.put v (some []) h) := (orDangling_bind hps _).trans (orDangling_bind hdelete _)
  rw [hexec]
  exact ⟨hs.put howns, _, rfl, ha.put hkeeps (.some .nil)⟩

theorem destroy_good (hs : st.Sound) (ha : st.Shows as) (hv : (as v).isSome) : (destroy v).Good as ((destroy v).exec st) := by
  obtain ⟨ps, -, hps, -, -⟩ := ha.exists_vector hv
  obtain ⟨h, hdelete, howns, hkeeps⟩ := hs.purged hps
  have hexec : (destroy v).exec st = .ok (st.put v none h) := (orDangling_bind hps _).trans (orDangling_bind hdelete _)
  rw [hexec]
  exact ⟨hs.put howns, _, rfl, ha.put hkeeps .none⟩

theorem io_good {m : Mode} (c : Ctx m) (fuel : Nat) (service : Service) (torn : Descriptor → Descriptor) (hs : st.Sound)
    (ha : st.Shows as) (hv : (as v).isSome) : (io v c fuel service torn).Good as ((io v c fuel service torn).exec st) := by
  obtain ⟨ps, list, hps, hlist, hholds⟩ := ha.exists_vector hv
  have hagrees := Vio.io_agrees torn fuel service (s := ⟨st.heap, ps, c⟩)
    (hs.owns_vector hps) hholds
  rw [show (io v c fuel service torn).exec st = _ from orDangling_bind hps _]
  show Good as _ (match Vio.io torn fuel service ⟨st.heap, ps, c⟩ with
    | .ok _ s => Except.ok (st.put v (some s.items) s.heap)
    | .error (.halt (.exception _ _)) s => Except.ok (st.put v (some s.items) s.heap)
    | .error e _ => throw e)
  cases hio : Vio.io torn fuel service ⟨st.heap, ps, c⟩ with
  | ok _ s =>
    rw [hio] at hagrees
    obtain ⟨howns, hkeeps, hrun, hholds'⟩ := hagrees
    refine ⟨hs.put howns, _, ⟨list, hlist, rfl⟩, ha.put hkeeps ?_⟩
    rw [hrun]
    exact .some hholds'
  | error e s =>
    rw [hio] at hagrees
    cases e with
    | dangling => exact hagrees.elim
    | halt e =>
      obtain ⟨howns, hkeeps, hrun, hholds'⟩ := hagrees
      cases e with
      | exception _ _ =>
        refine ⟨hs.put howns, _, ⟨list, hlist, rfl⟩, ha.put hkeeps ?_⟩
        rw [hrun]
        exact .some hholds'
      | _ => exact nofun

theorem exec_good (t : Statement) (hs : st.Sound) (ha : st.Shows as) (ht : t.Scoped fun v => (as v).isSome) :
    t.Good as (t.exec st) := by
  cases t with
  | declare v => exact declare_good hs ha ht
  | copy v w => exact copy_good hs ha ht.1 ht.2
  | assign v w => exact assign_good hs ha ht.1 ht.2
  | pushBack v d => exact pushBack_good d hs ha ht
  | purge v => exact purge_good hs ha ht
  | io v c fuel service torn => exact io_good c fuel service torn hs ha ht
  | destroy v => exact destroy_good hs ha ht

theorem alive_of_means {t : Statement} {as' : Nat → Option (List Descriptor)} (ht : t.Scoped fun v => (as v).isSome)
    (hm : t.Means as as') : t.alive (fun v => (as v).isSome) = fun v => ((as' v).isSome = true) := by
  have hput (v : Nat) (b : Option (List Descriptor)) (hv : (as v).isSome) (hb : b.isSome) :
      (fun u => (as u).isSome = true) = fun u => ((Function.update as v b u).isSome = true) := by
    funext u
    rw [Function.update_apply]
    split
    · next hu => exact propext (iff_of_true (hu ▸ hv) hb)
    · rfl
  have hnew (v : Nat) (b : Option (List Descriptor)) (hb : b.isSome) :
      (fun u => u = v ∨ (as u).isSome = true) = fun u => ((Function.update as v b u).isSome = true) := by
    funext u
    rw [Function.update_apply]
    split
    · next hu => exact propext (iff_of_true (.inl hu) hb)
    · next hu => exact propext (or_iff_right hu)
  cases t with
  | declare v =>
    cases hm
    exact hnew v _ rfl
  | copy v w =>
    cases hm
    exact hnew v _ ht.2
  | assign v w =>
    cases hm
    exact hput v _ ht.1 ht.2
  | pushBack v d =>
    obtain ⟨list, -, rfl⟩ := hm
    exact hput v _ ht rfl
  | purge v =>
    cases hm
    exact hput v _ ht rfl
  | io v c fuel service torn =>
    obtain ⟨list, -, rfl⟩ := hm
    exact hput v _ ht rfl
  | destroy v =>
    cases hm
    funext u
    show (u ≠ v ∧ _) = _
    rw [Function.update_apply]
    split
    · next hu => exact propext (iff_of_false (fun h => h.1 hu) Bool.false_ne_true)
    · next hu => exact propext (and_iff_right hu)

end Step

end Statement

namespace Program
open Statement

def WellScoped : (Nat → Prop) → List Statement → Prop
  | _, [] => True
  | before, t :: ts => t.Scoped before ∧ WellScoped (t.alive before) ts

def alive (before : Nat → Prop) (ts : List Statement) : Nat → Prop := ts.foldl (fun before t => t.alive before) before

/-- The program as one on lists of descriptors. -/
def Means (as : Nat → Option (List Descriptor)) : List Statement → (Nat → Option (List Descriptor)) → Prop
  | [], as' => as' = as
  | t :: ts, as' => ∃ as1, t.Means as as1 ∧ Means as1 ts as'

def run (ts : List Statement) : Except Fault (Store Descriptor) := ts.foldlM Statement.exec .empty

/-- No statement of a program accesses what is not alive, and the vectors hold the lists that the
program says. -/
theorem runs_good {ts : List Statement} {st : Store Descriptor} {as : Nat → Option (List Descriptor)} (hs : st.Sound)
    (ha : st.Shows as) (hts : WellScoped (fun v => (as v).isSome) ts) :
    ts.foldlM Statement.exec st ≠ .error .dangling ∧ ∀ st', ts.foldlM Statement.exec st = .ok st' →
      st'.Sound ∧ ∃ as', Means as ts as' ∧ st'.Shows as' ∧
        alive (fun v => (as v).isSome) ts = fun v => ((as' v).isSome = true) := by
  induction ts generalizing st as with
  | nil =>
    refine ⟨nofun, fun st' hst => ?_⟩
    cases hst
    exact ⟨hs, as, rfl, ha, rfl⟩
  | cons t ts ih =>
    have hgood := exec_good t hs ha hts.1
    cases hexec : t.exec st with
    | error e =>
      rw [hexec] at hgood
      have hrun : (t :: ts).foldlM Statement.exec st = .error e := by
        rw [List.foldlM_cons, hexec]
        rfl
      rw [hrun]
      exact ⟨fun heq => hgood (Except.error.inj heq), nofun⟩
    | ok st1 =>
      rw [hexec] at hgood
      obtain ⟨hs1, as1, hm, ha1⟩ := hgood
      have hrun : (t :: ts).foldlM Statement.exec st = ts.foldlM Statement.exec st1 := by
        rw [List.foldlM_cons, hexec]
        rfl
      have halive := alive_of_means hts.1 hm
      have hrest := hts.2
      rw [halive] at hrest
      obtain ⟨hdangling, hend⟩ := ih hs1 ha1 hrest
      rw [hrun]
      refine ⟨hdangling, fun st' hst => ?_⟩
      obtain ⟨hs', as', hm', ha', halive'⟩ := hend st' hst
      exact ⟨hs', as', ⟨as1, hm, hm'⟩, ha', by rw [← halive', alive, List.foldl_cons, halive, alive]⟩

theorem run_good {ts : List Statement} (hts : WellScoped (fun _ => False) ts) :
    run ts ≠ .error .dangling ∧ ∀ st, run ts = .ok st →
      st.Sound ∧ ∃ as, Means (fun _ => none) ts as ∧ st.Shows as ∧ alive (fun _ => False) ts = fun v => ((as v).isSome = true) := by
  have hnone : (fun _ : Nat => False) = fun v => (((fun _ => none : Nat → Option (List Descriptor)) v).isSome = true) :=
    funext fun _ => propext (iff_of_false id Bool.false_ne_true)
  rw [hnone] at hts ⊢
  exact runs_good Store.Sound.empty Store.Shows.empty hts

/-- Programs with any number of vectors, whatever their `io` reads or throws: nothing is accessed
or deleted that is not alive, every descriptor that is alive is in one vector at one place, and
none outlives the last vector. -/
theorem owned_once {ts : List Statement} (hts : WellScoped (fun _ => False) ts) :
    run ts ≠ .error .dangling ∧ ∀ st, run ts = .ok st →
      (∀ p, (st.heap.cells p).isSome ↔ ∃ v, p ∈ st.pointers v) ∧ (∀ v, (st.pointers v).Nodup) ∧
        (∀ v w p, p ∈ st.pointers v → p ∈ st.pointers w → v = w) ∧
          ((∀ v, ¬ alive (fun _ => False) ts v) → ∀ p, st.heap.cells p = none) := by
  obtain ⟨hdangling, hend⟩ := run_good hts
  refine ⟨hdangling, fun st hst => ?_⟩
  obtain ⟨hs, as, -, ha, halive⟩ := hend st hst
  refine ⟨fun p => ⟨fun hp => ?_, fun hp => ?_⟩, fun v => (hs v).nodup, fun v w p hv hw => ?_, fun hnone => ?_⟩
  · rcases ((hs 0).live p).mp hp with hmem | ⟨w, -, hmem⟩
    · exact ⟨0, hmem⟩
    · exact ⟨w, hmem⟩
  · obtain ⟨v, hv⟩ := hp
    exact ((hs v).live p).mpr (.inl hv)
  · exact of_not_not fun hne => (hs v).apart p hv (Store.mem_others (Ne.symm hne) p hw)
  · refine hs.no_leak fun v => ?_
    have hrel := ha v
    rw [halive] at hnone
    rw [Option.not_isSome_iff_eq_none.mp (hnone v)] at hrel
    generalize st.vectors v = x at hrel
    cases hrel
    rfl

/-- A vector is parsed, copied and purged, and parsing into the copy throws with a descriptor
already in the vector. -/
def sample : List Statement :=
  let bytes := Memory.write (fun _ => 0) 0 [0x41, 0x03, 0x00, 0x01, 0x02]
  [.declare 0, .io 0 (m := .parseBinary) (IbCtx.create bytes 5) 9 ⟨0, 0⟩ id, .pushBack 0 ⟨0x70, 1, .adaptationFieldData 7⟩, .copy 1 0, .purge 0,
    .io 1 (m := .parseBinary) (IbCtx.create bytes 3) 9 ⟨0, 0⟩ id]

theorem exists_run (ts : List Statement) (h : (run ts).toBool = true) : ∃ st, run ts = .ok st := by
  cases hrun : run ts with
  | ok st => exact ⟨st, rfl⟩
  | error e =>
    rw [hrun] at h
    cases h

theorem owned_once_sample : ∃ st, run (sample ++ [.destroy 0, .destroy 1]) = .ok st ∧ ∀ p, st.heap.cells p = none := by
  have hscoped : WellScoped (fun _ => False) (sample ++ [.destroy 0, .destroy 1]) := by
    simp [sample, WellScoped, Scoped, Statement.alive]
  obtain ⟨st, hrun⟩ := exists_run (sample ++ [.destroy 0, .destroy 1]) (by decide +kernel)
  refine ⟨st, hrun, ((owned_once hscoped).2 st hrun).2.2.2 ?_⟩
  simp +contextual [sample, alive, Statement.alive]

/-- Copies share nothing: what a program does with its vectors is what it would do with lists. -/
theorem value_semantics {ts : List Statement} {st : Store Descriptor} (hts : WellScoped (fun _ => False) ts)
    (hrun : run ts = .ok st) :
    ∃ as, Means (fun _ => none) ts as ∧ ∀ v, Option.Rel st.heap.Holds (st.vectors v) (as v) := by
  obtain ⟨-, hend⟩ := run_good hts
  obtain ⟨-, as, hm, ha, -⟩ := hend st hrun
  exact ⟨as, hm, ha⟩

theorem value_semantics_sample : ∃ st as, run sample = .ok st ∧ Means (fun _ => none) sample as ∧
    ∀ v, Option.Rel st.heap.Holds (st.vectors v) (as v) := by
  have hscoped : WellScoped (fun _ => False) sample := by simp [sample, WellScoped, Scoped, Statement.alive]
  obtain ⟨st, hrun⟩ := exists_run sample (by decide +kernel)
  obtain ⟨as, hm, ha⟩ := value_semantics hscoped hrun
  exact ⟨st, as, hrun, hm, ha⟩

end Program

end Mopa.Dvb
