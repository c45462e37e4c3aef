import Mopa.Lib.Ownership
import Mopa.Operations

/-! The objects behind `iox`. Each `iox` owns a context of one of four classes, which it deletes,
copies and uses by the flags of the context; the buffers of binary modes belong to the caller
and are shared by all copies. Programs with any number of `iox` are compared with programs on
values. -/
namespace Mopa.Io
open Ownership

/-- An `ibCtx`, `icCtx`, `obCtx` or `ocCtx`, without the flags of `ioCtx`. -/
structure Contents where
  mode : Mode
  ctx : Ctx mode
  buffer : Option Nat    -- `data`; none for text, and for the null pointer

/-- A context on the heap: the flags that `iox` goes by, and the object as it was created. -/
structure CtxObject where
  parsing : Bool
  binary : Bool
  contents : Contents

/-- The class of a context by its flags. -/
def Mode.ofFlags : Bool → Bool → Mode
  | true, true => .parseBinary
  | true, false => .parseText
  | false, true => .constructBinary
  | false, false => .constructText

theorem Mode.ofFlags_self (m : Mode) : Mode.ofFlags m.isParsing m.isBinary = m := by
  cases m with
  | parseBinary => rfl
  | parseText => rfl
  | constructBinary => rfl
  | constructText => rfl

/-- A new context, with the flags of its class. -/
def Contents.object (x : Contents) : CtxObject := ⟨x.mode.isParsing, x.mode.isBinary, x⟩

/-- What a program cannot do. -/
inductive CtxFault where
  | halt (e : Halt)
  | dangling       -- access through a pointer to no context
  | wrongClass     -- access to a context as one of another class
  deriving DecidableEq

def orDanglingCtx {α : Type} (x : Option α) : Except CtxFault α :=
  match x with
  | some a => .ok a
  | none => .error .dangling

/-- A context, cast to the class of its flags. -/
def CtxObject.cast (x : CtxObject) : Except CtxFault Contents :=
  if Mode.ofFlags x.parsing x.binary = x.contents.mode then .ok x.contents else .error .wrongClass

namespace IoxHeap

def load (h : Heap CtxObject) (p : Nat) : Except CtxFault CtxObject := orDanglingCtx (h.load p)

/-- `iox::~iox` -/
def destroy (h : Heap CtxObject) (p : Nat) : Except CtxFault (Heap CtxObject) := do
  let _ ← (← load h p).cast
  orDanglingCtx (h.delete p)

/-- `iox::operator=`, when the objects are different: the context of `rhs` is copied as one of
the class of its flags, flags included. -/
def assign (h : Heap CtxObject) (ctx rhs : Nat) : Except CtxFault (Nat × Heap CtxObject) := do
  let h ← destroy h ctx
  let x ← load h rhs
  let contents ← x.cast
  return h.new { x with contents := contents }

/-- `iox::iox()` -/
def default : CtxObject := ⟨true, true, .parseBinary, ⟨0, 0, fun _ => 0, []⟩, none⟩

/-- `iox::iox(iox const&)` -/
def copy (h : Heap CtxObject) (rhs : Nat) : Except CtxFault (Nat × Heap CtxObject) :=
  assign (h.new default).2 (h.new default).1 rhs

end IoxHeap

/-- The buffers of the caller. -/
abbrev Buffers := Nat → Memory UInt8

/-- The context, with what its buffer holds now. -/
def Contents.attached (x : Contents) (bufs : Buffers) : Ctx x.mode :=
  match x with
  | ⟨.parseBinary, c, some b⟩ => { c with data := bufs b }
  | ⟨.constructBinary, c, some b⟩ => { c with data := bufs b }
  | ⟨_, c, _⟩ => c

/-- What has been written goes to the buffer. -/
def Contents.written (x : Contents) (bufs : Buffers) : Buffers :=
  match x with
  | ⟨.constructBinary, c, some b⟩ => Function.update bufs b c.data
  | _ => bufs

/-- A program of io, for any mode, in the context. Its exceptions are caught. -/
def Contents.use (x : Contents) (bufs : Buffers) (io : (m : Mode) → Iox m Unit) : Except Halt (Contents × Buffers) :=
  let behind (c : Ctx x.mode) : Contents × Buffers :=
    (⟨x.mode, c, x.buffer⟩, Contents.written ⟨x.mode, c, x.buffer⟩ bufs)
  match io x.mode (x.attached bufs) with
  | .ok _ c => .ok (behind c)
  | .error (.exception _ _) c => .ok (behind c)
  | .error e _ => .error e

/-- The functions of `iox` that create one. -/
inductive IoxSource where
  | parseBinary (b size : Nat)
  | parseText (text : List UInt8)
  | constructBinary (b size : Nat)
  | constructText

def IoxSource.contents : IoxSource → Contents
  | parseBinary b size => ⟨.parseBinary, IbCtx.create (fun _ => 0) size, some b⟩
  | parseText text => ⟨.parseText, IcCtx.create text, none⟩
  | constructBinary b size => ⟨.constructBinary, ObCtx.create (fun _ => 0) size, some b⟩
  | constructText => ⟨.constructText, OcCtx.create, none⟩

/-- What a program does with its `iox` and buffers. -/
inductive IoxStatement where
  | create (v : Nat) (source : IoxSource)
  | copy (v w : Nat)                                -- iox v(w);
  | assign (v w : Nat)                              -- v=w;
  | use (v : Nat) (io : (m : Mode) → Iox m Unit)    -- try { io(v); } catch(Exception&) { }
  | fill (b : Nat) (data : Memory UInt8)            -- the caller writes to its buffer
  | destroy (v : Nat)

/-- The `iox` that are alive, each the owner of one pointer, and the buffers. -/
structure IoxStore where
  store : Store CtxObject
  buffers : Buffers

namespace IoxStore

def empty (bufs : Buffers) : IoxStore := ⟨.empty, bufs⟩

/-- The pointer of an `iox`. -/
def ctx (st : IoxStore) (v : Nat) : Except CtxFault Nat :=
  match st.store.vectors v with
  | some [p] => .ok p
  | _ => .error .dangling

/-- The `iox` takes another pointer. -/
def put (st : IoxStore) (v : Nat) (ptr : Nat × Heap CtxObject) : IoxStore :=
  { st with store := st.store.put v (some [ptr.1]) ptr.2 }

/-- The context behind the pointer is left as its use has left it. -/
def used (st : IoxStore) (v p : Nat) (x : CtxObject) : Except Halt (Contents × Buffers) → Except CtxFault IoxStore
  | .ok (contents, bufs) => do
    let h ← orDanglingCtx (st.store.heap.store p { x with contents := contents })
    return { st.put v (p, h) with buffers := bufs }
  | .error e => throw (.halt e)

end IoxStore

def IoxStatement.exec (st : IoxStore) : IoxStatement → Except CtxFault IoxStore
  | create v source => return st.put v (st.store.heap.new source.contents.object)
  | copy v w => do
    return st.put v (← IoxHeap.copy st.store.heap (← st.ctx w))
  | assign v w =>
    if v = w then
      return st
    else do
      return st.put v (← IoxHeap.assign st.store.heap (← st.ctx v) (← st.ctx w))
  | use v io => do
    let p ← st.ctx v
    let x ← IoxHeap.load st.store.heap p
    st.used v p x ((← x.cast).use st.buffers io)
  | fill b data => return { st with buffers := Function.update st.buffers b data }
  | destroy v => do
    let h ← IoxHeap.destroy st.store.heap (← st.ctx v)
    return { st with store := st.store.put v none h }

/-- The values that a program is about. -/
structure IoxValues where
  values : Nat → Option Contents
  buffers : Buffers

/-- Why a program on values stops. -/
inductive Stop where
  | halt (e : Halt)
  | unscoped         -- a name that stands for no `iox`, or for one already; a compiler refuses it
  deriving DecidableEq

namespace IoxValues

def empty (bufs : Buffers) : IoxValues := ⟨fun _ => none, bufs⟩

def get (vs : IoxValues) (v : Nat) : Except Stop Contents :=
  match vs.values v with
  | some x => .ok x
  | none => .error .unscoped

/-- A new name. -/
def declare (vs : IoxValues) (v : Nat) (x : Contents) : Except Stop IoxValues :=
  match vs.values v with
  | some _ => .error .unscoped
  | none => .ok { vs with values := Function.update vs.values v (some x) }

def used (vs : IoxValues) (v : Nat) : Except Halt (Contents × Buffers) → Except Stop IoxValues
  | .ok (contents, bufs) => .ok ⟨Function.update vs.values v (some contents), bufs⟩
  | .error e => .error (.halt e)

end IoxValues

/-- The statement on values: copying copies position, limit, blocks and text, and shares the
buffer. -/
def IoxStatement.eval (vs : IoxValues) : IoxStatement → Except Stop IoxValues
  | create v source => vs.declare v source.contents
  | copy v w => do
    vs.declare v (← vs.get w)
  | assign v w => do
    let _ ← vs.get v
    return { vs with values := Function.update vs.values v (some (← vs.get w)) }
  | use v io => do
    vs.used v ((← vs.get v).use vs.buffers io)
  | fill b data => return { vs with buffers := Function.update vs.buffers b data }
  | destroy v => do
    let _ ← vs.get v
    return { vs with values := Function.update vs.values v none }

/-- Each `iox` owns a context with the contents that the values say, and with the flags of its class. -/
structure IoxStore.Refines (st : IoxStore) (vs : IoxValues) : Prop where
  sound : st.store.Sound
  shows : st.store.Shows fun v => (vs.values v).map fun x => [x.object]
  buffers : st.buffers = vs.buffers

/-- What a run on the heap makes of a run on values. -/
def Follows (r : Except CtxFault IoxStore) : Except Stop IoxValues → Prop
  | .ok vs => ∃ st, r = .ok st ∧ st.Refines vs
  | .error (.halt e) => r = .error (.halt e)
  | .error .unscoped => True

section Refinement
variable {st : IoxStore} {vs : IoxValues} {v w : Nat}

theorem object_cast (x : Contents) : x.object.cast = .ok x := if_pos (Mode.ofFlags_self x.mode)

theorem get_eq_ok {x : Contents} : vs.get v = .ok x ↔ vs.values v = some x := by
  unfold IoxValues.get
  cases vs.values v with
  | none => exact iff_of_false nofun nofun
  | some y => exact ⟨fun h => congrArg some (Except.ok.inj h), fun h => congrArg Except.ok (Option.some.inj h)⟩

theorem get_eq_error {e : Stop} (h : vs.get v = .error e) : e = .unscoped := by
  unfold IoxValues.get at h
  split at h
  · cases h
  · exact (Except.error.inj h).symm

theorem IoxStore.Refines.exists_ctx (h : st.Refines vs) {x : Contents} (hx : vs.values v = some x) :
    ∃ p, st.store.vectors v = some [p] ∧ st.ctx v = .ok p ∧ st.store.heap.cells p = some x.object := by
  obtain ⟨ps, list, hps, hlist, hholds⟩ := h.shows.exists_vector (v := v) (by rw [hx]; rfl)
  rw [hx] at hlist
  obtain rfl : [x.object] = list := Option.some.inj hlist
  cases hholds with
  | @cons p _ _ _ hcell hrest =>
    cases hrest
    refine ⟨p, hps, ?_, hcell⟩
    unfold IoxStore.ctx
    rw [hps]

theorem IoxStore.Refines.exists_value (h : st.Refines vs) {p : Nat} (hp : p ∈ st.store.pointers v) :
    ∃ x, vs.values v = some x ∧ st.store.vectors v = some [p] ∧ st.store.heap.cells p = some x.object := by
  cases hv : vs.values v with
  | none =>
    have hrel : Option.Rel st.store.heap.Holds (st.store.vectors v) ((vs.values v).map fun x => [x.object]) := h.shows v
    rw [hv] at hrel
    unfold Store.pointers at hp
    generalize st.store.vectors v = ptr at hrel hp
    cases hrel
    cases hp
  | some x =>
    obtain ⟨q, hq, -, hcell⟩ := h.exists_ctx hv
    rw [Store.pointers_of_vectors hq] at hp
    obtain rfl := List.mem_singleton.mp hp
    exact ⟨x, rfl, hq, hcell⟩

theorem IoxStore.Refines.put (h : st.Refines vs) {ptr : Option (List Nat)} {heap : Heap CtxObject} {b : Option Contents}
    (ho : heap.Owns (ptr.getD []) (st.store.others v)) (hk : st.store.heap.Keeps heap (st.store.others v))
    (hx : Option.Rel heap.Holds ptr (b.map fun x => [x.object])) :
    IoxStore.Refines { st with store := st.store.put v ptr heap } { vs with values := Function.update vs.values v b } where
  sound := h.sound.put ho
  shows := by
    have hshows := h.shows.put hk hx
    have hvalues : (fun u => (Function.update vs.values v b u).map fun x => [x.object]) =
        Function.update (fun u => (vs.values u).map fun x => [x.object]) v (b.map fun x => [x.object]) := by
      funext u
      rw [Function.update_apply, Function.update_apply, apply_ite (Option.map _)]
    exact hvalues ▸ hshows
  buffers := h.buffers

theorem IoxStore.Refines.put_new (h : st.Refines vs) {heap : Heap CtxObject} (ho : heap.Owns [] (st.store.others v))
    (hk : st.store.heap.Keeps heap (st.store.others v)) (x : Contents) :
    (st.put v (heap.new x.object)).Refines { vs with values := Function.update vs.values v (some x) } := by
  obtain ⟨howns, hcell, hkeeps⟩ := ho.new x.object
  have hholds : Option.Rel (heap.new x.object).2.Holds (some [(heap.new x.object).1]) (some [x.object]) :=
    .some (.cons hcell .nil)
  exact h.put howns (hk.trans (hkeeps.mono fun p hp => (ho.live p).mpr (.inr hp))) hholds

theorem IoxStore.Refines.owns_nothing (h : st.Refines vs) (hv : vs.values v = none) :
    st.store.heap.Owns [] (st.store.others v) :=
  h.sound.owns_nothing h.shows (by rw [hv]; exact Bool.false_ne_true)

theorem destroy_ok {heap : Heap CtxObject} {p : Nat} {x : Contents} {frame : Set Nat} (ho : heap.Owns [p] frame)
    (hcell : heap.cells p = some x.object) :
    ∃ heap', IoxHeap.destroy heap p = .ok heap' ∧ heap'.Owns [] frame ∧ heap.Keeps heap' frame := by
  obtain ⟨heap', hdelete, howns, hkeeps⟩ := ho.delete
  refine ⟨heap', ?_, howns, hkeeps.mono fun q hq heq => ho.apart p (List.mem_singleton_self p) (heq ▸ hq)⟩
  have hload : IoxHeap.load heap p = .ok x.object := by
    unfold IoxHeap.load Heap.load
    rw [hcell]
    rfl
  unfold IoxHeap.destroy
  rw [hload]
  show (x.object.cast >>= fun _ => orDanglingCtx (heap.delete p)) = _
  rw [object_cast, hdelete]
  rfl

theorem assign_ok {heap : Heap CtxObject} {p q : Nat} {x y : Contents} {frame : Set Nat} (ho : heap.Owns [p] frame)
    (hp : heap.cells p = some x.object) (hq : heap.cells q = some y.object) (hframe : q ∈ frame) :
    ∃ heap', IoxHeap.assign heap p q = .ok (heap'.new y.object) ∧ heap'.Owns [] frame ∧ heap.Keeps heap' frame := by
  obtain ⟨heap', hdestroy, howns, hkeeps⟩ := destroy_ok ho hp
  refine ⟨heap', ?_, howns, hkeeps⟩
  have hload : IoxHeap.load heap' q = .ok y.object := by
    unfold IoxHeap.load Heap.load
    rw [hkeeps q hframe, hq]
    rfl
  unfold IoxHeap.assign
  rw [hdestroy]
  show (IoxHeap.load heap' q >>= _) = _
  rw [hload]
  show (y.object.cast >>= _) = _
  rw [object_cast]
  rfl

theorem copy_ok {heap : Heap CtxObject} {q : Nat} {y : Contents} {frame : Set Nat} (ho : heap.Owns [] frame)
    (hq : heap.cells q = some y.object) (hframe : q ∈ frame) :
    ∃ heap', IoxHeap.copy heap q = .ok (heap'.new y.object) ∧ heap'.Owns [] frame ∧ heap.Keeps heap' frame := by
  obtain ⟨hnew, hcell, hkeeps⟩ := ho.new IoxHeap.default
  have hlive (p : Nat) (hp : p ∈ frame) : (heap.cells p).isSome := (ho.live p).mpr (.inr hp)
  obtain ⟨heap', hassign, howns, hkeeps'⟩ := assign_ok (x := ⟨.parseBinary, ⟨0, 0, fun _ => 0, []⟩, none⟩) hnew hcell
    ((hkeeps q (hlive q hframe)).trans hq) hframe
  exact ⟨heap', hassign, howns, (hkeeps.mono hlive).trans hkeeps'⟩

theorem IoxStore.Refines.owns (h : st.Refines vs) {p : Nat} (hv : st.store.vectors v = some [p]) :
    st.store.heap.Owns [p] (st.store.others v) := h.sound.owns_vector hv

theorem mem_others {p : Nat} (hw : st.store.vectors w = some [p]) (hne : w ≠ v) : p ∈ st.store.others v :=
  Store.mem_others hne p (Store.pointers_of_vectors hw ▸ List.mem_singleton_self p)

theorem create_follows (h : st.Refines vs) (source : IoxSource) :
    Follows ((IoxStatement.create v source).exec st) ((IoxStatement.create v source).eval vs) := by
  show Follows _ (vs.declare v source.contents)
  unfold IoxValues.declare
  split
  · trivial
  · next hv => exact ⟨_, rfl, h.put_new (h.owns_nothing hv) (.refl _ _) source.contents⟩

theorem copy_follows (h : st.Refines vs) :
    Follows ((IoxStatement.copy v w).exec st) ((IoxStatement.copy v w).eval vs) := by
  show Follows (st.ctx w >>= fun q => IoxHeap.copy st.store.heap q >>= fun ptr => pure (st.put v ptr))
    (vs.get w >>= fun x => vs.declare v x)
  cases hw : vs.get w with
  | error e =>
    obtain rfl := get_eq_error hw
    trivial
  | ok x =>
    have hw := get_eq_ok.mp hw
    show Follows _ (vs.declare v x)
    unfold IoxValues.declare
    split
    · trivial
    · next hv =>
      obtain ⟨q, hvector, hctx, hcell⟩ := h.exists_ctx hw
      have hne : w ≠ v := fun heq => by rw [heq, hv] at hw; cases hw
      obtain ⟨heap, hcopy, howns, hkeeps⟩ := copy_ok (h.owns_nothing hv) hcell (mem_others hvector hne)
      refine ⟨st.put v (heap.new x.object), ?_, h.put_new howns hkeeps x⟩
      rw [hctx]
      show (IoxHeap.copy _ q >>= _) = _
      rw [hcopy]
      rfl

theorem assign_follows (h : st.Refines vs) :
    Follows ((IoxStatement.assign v w).exec st) ((IoxStatement.assign v w).eval vs) := by
  show Follows (if v = w then pure st else
      st.ctx v >>= fun p => st.ctx w >>= fun q => IoxHeap.assign st.store.heap p q >>= fun ptr => pure (st.put v ptr))
    (vs.get v >>= fun _ => vs.get w >>= fun y => pure { vs with values := Function.update vs.values v (some y) })
  cases hv : vs.get v with
  | error e =>
    obtain rfl := get_eq_error hv
    trivial
  | ok x =>
    cases hw : vs.get w with
    | error e =>
      obtain rfl := get_eq_error hw
      trivial
    | ok y =>
      have hv := get_eq_ok.mp hv
      have hw := get_eq_ok.mp hw
      by_cases heq : v = w
      · subst heq
        rw [if_pos rfl]
        refine ⟨st, rfl, ?_⟩
        rwa [← hw, Function.update_eq_self]
      · rw [if_neg heq]
        obtain ⟨p, hp, hctx, hcell⟩ := h.exists_ctx hv
        obtain ⟨q, hq, hctx', hcell'⟩ := h.exists_ctx hw
        obtain ⟨heap, hassign, howns, hkeeps⟩ := assign_ok (h.owns hp) hcell hcell' (mem_others hq (Ne.symm heq))
        refine ⟨st.put v (heap.new y.object), ?_, h.put_new howns hkeeps y⟩
        rw [hctx, hctx']
        show (IoxHeap.assign _ p q >>= _) = _
        rw [hassign]
        rfl

theorem use_mode {x y : Contents} {bufs bufs' : Buffers} {io : (m : Mode) → Iox m Unit}
    (h : x.use bufs io = .ok (y, bufs')) : y.mode = x.mode := by
  unfold Contents.use at h
  dsimp only at h
  split at h
  · cases h
    rfl
  · cases h
    rfl
  · cases h

theorem use_follows (h : st.Refines vs) (io : (m : Mode) → Iox m Unit) :
    Follows ((IoxStatement.use v io).exec st) ((IoxStatement.use v io).eval vs) := by
  cases hv : vs.get v with
  | error e =>
    obtain rfl := get_eq_error hv
    show Follows _ (vs.get v >>= _)
    rw [hv]
    trivial
  | ok x =>
    obtain ⟨p, hp, hctx, hcell⟩ := h.exists_ctx (get_eq_ok.mp hv)
    have hload : IoxHeap.load st.store.heap p = .ok x.object := by
      unfold IoxHeap.load Heap.load
      rw [hcell]
      rfl
    have hexec : (IoxStatement.use v io).exec st = st.used v p x.object (x.use st.buffers io) := by
      show (st.ctx v >>= _) = _
      rw [hctx]
      show (IoxHeap.load st.store.heap p >>= _) = _
      rw [hload]
      show (x.object.cast >>= _) = _
      rw [object_cast]
      rfl
    have heval : (IoxStatement.use v io).eval vs = vs.used v (x.use vs.buffers io) := by
      show (vs.get v >>= _) = _
      rw [hv]
      rfl
    rw [hexec, heval, h.buffers]
    cases huse : x.use vs.buffers io with
    | error e => exact rfl
    | ok r =>
      obtain ⟨y, bufs⟩ := r
      obtain ⟨heap, hstore, howns, hcell', hkeeps⟩ := (h.owns hp).store (List.mem_singleton_self p) y.object
      have hobject : { x.object with contents := y } = y.object := by
        unfold Contents.object
        rw [use_mode huse]
      have hkeeps := hkeeps.mono fun q hq heq => (h.owns hp).apart p (List.mem_singleton_self p) (heq ▸ hq)
      have hholds : Option.Rel heap.Holds (some [p]) ((some y).map fun x => [x.object]) :=
        .some (.cons hcell' .nil)
      have hput := h.put howns hkeeps hholds
      refine ⟨{ st.put v (p, heap) with buffers := bufs }, ?_, ⟨hput.sound, hput.shows, rfl⟩⟩
      show (orDanglingCtx (st.store.heap.store p { x.object with contents := y }) >>= _) = _
      rw [hobject, hstore]
      rfl

theorem destroy_follows (h : st.Refines vs) :
    Follows ((IoxStatement.destroy v).exec st) ((IoxStatement.destroy v).eval vs) := by
  show Follows (st.ctx v >>= fun p => IoxHeap.destroy st.store.heap p >>= fun heap =>
      pure { st with store := st.store.put v none heap })
    (vs.get v >>= fun _ => pure { vs with values := Function.update vs.values v none })
  cases hv : vs.get v with
  | error e =>
    obtain rfl := get_eq_error hv
    trivial
  | ok x =>
    obtain ⟨p, hp, hctx, hcell⟩ := h.exists_ctx (get_eq_ok.mp hv)
    obtain ⟨heap, hdestroy, howns, hkeeps⟩ := destroy_ok (h.owns hp) hcell
    have hholds : Option.Rel heap.Holds none ((none : Option Contents).map fun x => [x.object]) := .none
    refine ⟨{ st with store := st.store.put v none heap }, ?_, h.put howns hkeeps hholds⟩
    rw [hctx]
    show (IoxHeap.destroy _ p >>= _) = _
    rw [hdestroy]
    rfl

theorem exec_follows (h : st.Refines vs) (t : IoxStatement) : Follows (t.exec st) (t.eval vs) := by
  cases t with
  | create v source => exact create_follows h source
  | copy v w => exact copy_follows h
  | assign v w => exact assign_follows h
  | use v io => exact use_follows h io
  | fill b data => exact ⟨_, rfl, h.sound, h.shows, by rw [h.buffers]⟩
  | destroy v => exact destroy_follows h

theorem runs_follow (h : st.Refines vs) (ts : List IoxStatement) :
    Follows (ts.foldlM IoxStatement.exec st) (ts.foldlM IoxStatement.eval vs) := by
  induction ts generalizing st vs with
  | nil => exact ⟨st, rfl, h⟩
  | cons t ts ih =>
    have hstep := exec_follows h t
    rw [List.foldlM_cons, List.foldlM_cons]
    cases heval : t.eval vs with
    | ok vs1 =>
      rw [heval] at hstep
      obtain ⟨st1, hexec, hrefines⟩ := hstep
      rw [hexec]
      exact ih hrefines
    | error e =>
      rw [heval] at hstep
      cases e with
      | halt e =>
        rw [show t.exec st = .error (.halt e) from hstep]
        rfl
      | unscoped => trivial

end Refinement

namespace IoxProgram

def run (bufs : Buffers) (ts : List IoxStatement) : Except CtxFault IoxStore := ts.foldlM IoxStatement.exec (.empty bufs)

def eval (bufs : Buffers) (ts : List IoxStatement) : Except Stop IoxValues := ts.foldlM IoxStatement.eval (.empty bufs)

theorem run_follows (bufs : Buffers) (ts : List IoxStatement) : Follows (run bufs ts) (eval bufs ts) :=
  runs_follow ⟨.empty, .empty, rfl⟩ ts

/-- The `iox` owns a context with these contents. -/
def Has (st : IoxStore) (v : Nat) (x : Contents) : Prop :=
  ∃ p, st.store.vectors v = some [p] ∧ st.store.heap.cells p = some x.object

theorem has_iff {st : IoxStore} {vs : IoxValues} (h : st.Refines vs) {v : Nat} {x : Contents} :
    Has st v x ↔ vs.values v = some x := by
  constructor
  · rintro ⟨p, hp, hcell⟩
    obtain ⟨y, hy, -, hcell'⟩ := h.exists_value (Store.pointers_of_vectors hp ▸ List.mem_singleton_self p)
    exact hy.trans (congrArg (fun z : CtxObject => some z.contents) (Option.some.inj (hcell'.symm.trans hcell)))
  · intro hv
    obtain ⟨p, hp, -, hcell⟩ := h.exists_ctx hv
    exact ⟨p, hp, hcell⟩

/-- A program that a compiler accepts never uses a context that is not alive, nor one as of
another class. Each context belongs to one `iox`, with the flags of its class, and none outlives
the last of them. -/
theorem contexts_owned_once {bufs : Buffers} {ts : List IoxStatement} (hscoped : eval bufs ts ≠ .error .unscoped) :
    run bufs ts ≠ .error .dangling ∧ run bufs ts ≠ .error .wrongClass ∧ ∀ st, run bufs ts = .ok st →
      (∀ p x, st.store.heap.cells p = some x → Mode.ofFlags x.parsing x.binary = x.contents.mode ∧
        ∃ v, st.store.vectors v = some [p] ∧ ∀ w, p ∈ st.store.pointers w → w = v) ∧
      (∀ v p, p ∈ st.store.pointers v → (st.store.heap.cells p).isSome) ∧
      ((∀ v, st.store.vectors v = none) → ∀ p, st.store.heap.cells p = none) := by
  have hfollows := run_follows bufs ts
  cases heval : eval bufs ts with
  | error e =>
    rw [heval] at hfollows hscoped
    cases e with
    | halt e =>
      have hrun : run bufs ts = .error (.halt e) := hfollows
      rw [hrun]
      exact ⟨nofun, nofun, nofun⟩
    | unscoped => exact absurd rfl hscoped
  | ok vs =>
    rw [heval] at hfollows
    obtain ⟨st, hrun, h⟩ := hfollows
    rw [hrun]
    refine ⟨nofun, nofun, fun st' hst => ?_⟩
    obtain rfl := Except.ok.inj hst
    refine ⟨fun p x hp => ?_, fun v p hp => ((h.sound v).live p).mpr (.inl hp), h.sound.no_leak⟩
    obtain ⟨v, hv⟩ : ∃ v, p ∈ st.store.pointers v := by
      rcases ((h.sound 0).live p).mp (by rw [hp]; rfl) with hmem | ⟨w, -, hmem⟩
      · exact ⟨0, hmem⟩
      · exact ⟨w, hmem⟩
    obtain ⟨y, -, hvector, hcell⟩ := h.exists_value hv
    obtain rfl := Option.some.inj (hp.symm.trans hcell)
    refine ⟨Mode.ofFlags_self y.mode, v, hvector, fun w hw => ?_⟩
    exact of_not_not fun hne => (h.sound w).apart p hw (Store.mem_others (Ne.symm hne) p hv)

/-- A copy is made of an `iox` that writes on, and another `iox` takes the class of the copy. -/
def sample : List IoxStatement :=
  [.create 0 (.constructBinary 0 4), .copy 1 0, .use 0 fun _ => (Operation.uint .uint16 16 (0x1234 : UInt16) ⟨[], 0⟩).exec,
    .create 2 .constructText, .assign 2 1, .use 2 fun _ => (Operation.uint .uint8 8 (5 : UInt8) ⟨[], 0⟩).exec,
    .destroy 0, .assign 1 1]

theorem exists_run (bufs : Buffers) (ts : List IoxStatement) (h : (run bufs ts).toBool = true) :
    ∃ st, run bufs ts = .ok st := by
  cases hrun : run bufs ts with
  | ok st => exact ⟨st, rfl⟩
  | error e =>
    rw [hrun] at h
    cases h

theorem sample_runs : ∃ st, run (fun _ _ => 0) sample = .ok st := exists_run _ _ (by decide +kernel)

theorem sample_scoped : eval (fun _ _ => 0) sample ≠ .error .unscoped := by
  intro h
  have heval : (eval (fun _ _ => 0) sample).toBool = true := by decide +kernel
  rw [h] at heval
  cases heval

theorem contexts_owned_once_sample : ∃ st, run (fun _ _ => 0) sample = .ok st ∧
    (∀ p x, st.store.heap.cells p = some x → Mode.ofFlags x.parsing x.binary = x.contents.mode ∧
      ∃ v, st.store.vectors v = some [p] ∧ ∀ w, p ∈ st.store.pointers w → w = v) ∧
    ∀ v p, p ∈ st.store.pointers v → (st.store.heap.cells p).isSome := by
  obtain ⟨st, hrun⟩ := sample_runs
  obtain ⟨-, -, hend⟩ := contexts_owned_once sample_scoped
  obtain ⟨howned, halive, -⟩ := hend st hrun
  exact ⟨st, hrun, howned, halive⟩

/-- A program that a compiler accepts does with its contexts what it says about values: a copy
is independent of the original, but for the buffer of the caller. It ends in the same way. -/
theorem copies_independent {bufs : Buffers} {ts : List IoxStatement} (hscoped : eval bufs ts ≠ .error .unscoped) :
    (∀ e, run bufs ts = .error (.halt e) ↔ eval bufs ts = .error (.halt e)) ∧
      ∀ st, run bufs ts = .ok st → ∃ vs, eval bufs ts = .ok vs ∧ st.buffers = vs.buffers ∧
        ∀ v x, Has st v x ↔ vs.values v = some x := by
  have hfollows := run_follows bufs ts
  cases heval : eval bufs ts with
  | error e =>
    rw [heval] at hfollows hscoped
    cases e with
    | halt e =>
      have hrun : run bufs ts = .error (.halt e) := hfollows
      rw [hrun]
      refine ⟨fun e' => ?_, nofun⟩
      rw [Except.error.injEq, Except.error.injEq, CtxFault.halt.injEq, Stop.halt.injEq]
    | unscoped => exact absurd rfl hscoped
  | ok vs =>
    rw [heval] at hfollows
    obtain ⟨st, hrun, h⟩ := hfollows
    rw [hrun]
    refine ⟨fun e => iff_of_false nofun nofun, fun st' hst => ?_⟩
    obtain rfl := Except.ok.inj hst
    exact ⟨vs, rfl, h.buffers, fun v x => has_iff h⟩

theorem copies_independent_sample : ∃ st vs, run (fun _ _ => 0) sample = .ok st ∧ eval (fun _ _ => 0) sample = .ok vs ∧
    ∀ v x, Has st v x ↔ vs.values v = some x := by
  obtain ⟨st, hrun⟩ := sample_runs
  obtain ⟨-, hend⟩ := copies_independent sample_scoped
  obtain ⟨vs, heval, -, hhas⟩ := hend st hrun
  exact ⟨st, vs, hrun, heval, hhas⟩

end IoxProgram

end Mopa.Io
