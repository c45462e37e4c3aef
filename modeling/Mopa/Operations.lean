import Mopa.Format
import Mathlib.Data.List.Pairwise

/-! Sequences of `iox` operations, in any order. -/
namespace Mopa.Io
open Outcome

inductive Operation where
  | uint (var : Variable) (w : Nat) (val : var.Word) (info : Info)
  | uintReq (var : Variable) (w : Nat) (val : var.Word) (info : Info)
  | shortString (str : List UInt8) (info : Info)
  | fixedString (numChars : Nat) (str : List UInt8) (info : Info)
  | namedBlockBegin (b : Nat) (info : Info)
  | namedBlockEnd (info : Info)

namespace Operation
variable {m : Mode}

/-- The operation in any mode. Parsing reads into the given values. -/
def exec : Operation → Iox m Unit
  | uint var w val info => do
    let _ ← Iox.uint var w val info
  | uintReq var w val info => Iox.require (fun v => Iox.uint var w v info) val info
  | shortString str info => do
    let _ ← Iox.shortStringIo str info
  | fixedString numChars str info => do
    let _ ← Iox.fixedStringIo numChars str info
  | namedBlockBegin b info => Iox.namedBlockBegin b info
  | namedBlockEnd info => do
    let _ ← Iox.namedBlockEnd info

/-- A run that stops at the first exception. -/
def execAll : List Operation → Iox m Unit
  | [] => return ()
  | op :: ops => do
    op.exec
    execAll ops

/-- The operation with the length that the end of a block returns. -/
def perform : Operation → Iox m (Option Nat)
  | uint var w val info => do
    let _ ← Iox.uint var w val info
    return none
  | uintReq var w val info => do
    Iox.require (fun v => Iox.uint var w v info) val info
    return none
  | shortString str info => do
    let _ ← Iox.shortStringIo str info
    return none
  | fixedString numChars str info => do
    let _ ← Iox.fixedStringIo numChars str info
    return none
  | namedBlockBegin b info => do
    Iox.namedBlockBegin b info
    return none
  | namedBlockEnd info => do return some (← Iox.namedBlockEnd info)

/-- What each operation of a run returns, with the context behind it; nothing if one throws. -/
def trace : List Operation → Ctx m → Option (List (Option Nat × Ctx m))
  | [], _ => some []
  | op :: ops, c =>
    match op.perform c with
    | .ok r c' => (trace ops c').map ((r, c') :: ·)
    | .error .. => none

/-- A condition on operations and the contexts in which they start, all along a run. -/
def Throughout (P : Operation → Ctx m → Prop) : List Operation → Ctx m → Prop
  | [], _ => True
  | op :: ops, c => P op c ∧ ∀ c', op.exec c = .ok () c' → Throughout P ops c'

/-- The contexts an operation may leave behind, whether it returns or throws. Where its behaviour
is undefined, that is any context. -/
def Leads (op : Operation) (c c' : Ctx m) : Prop := Avoids .undefined op.exec c → c' = reached (op.exec c)

/-- The contexts behind operations that go on after exceptions. -/
def Reaches : List Operation → Ctx m → Ctx m → Prop
  | [], c, c' => c' = c
  | op :: ops, c, c' => ∃ d, op.Leads c d ∧ Reaches ops d c'

/-- A condition on operations and the contexts in which they start, in every run that goes on
after exceptions. -/
def Along (P : Operation → Ctx m → Prop) : List Operation → Ctx m → Prop
  | [], _ => True
  | op :: ops, c => P op c ∧ ∀ d, op.Leads c d → Along P ops d

/-- Operations that move along within the innermost block. -/
def IsField : Operation → Prop
  | namedBlockBegin .. => False
  | namedBlockEnd .. => False
  | _ => True

/-- Operations in which each end of a block has its beginning, and each beginning its end. -/
inductive Balanced : List Operation → Prop where
  | nil : Balanced []
  | field {op : Operation} {ops : List Operation} : op.IsField → Balanced ops → Balanced (op :: ops)
  | block {body ops : List Operation} (b : Nat) (info endInfo : Info) : Balanced body → Balanced ops →
      Balanced (namedBlockBegin b info :: (body ++ namedBlockEnd endInfo :: ops))

theorem execAll_append (as bs : List Operation) :
    execAll (m := m) (as ++ bs) = (do execAll as; execAll bs) := by
  induction as with
  | nil => rfl
  | cons a as ih =>
    show (a.exec >>= fun _ => execAll (as ++ bs)) = (a.exec >>= fun _ => execAll as) >>= fun _ => execAll bs
    rw [ih, bind_assoc]

theorem trace_eq_some {op : Operation} {ops : List Operation} {c : Ctx m} {rs : List (Option Nat × Ctx m)} :
    trace (op :: ops) c = some rs ↔
      ∃ r c' rest, op.perform c = .ok r c' ∧ trace ops c' = some rest ∧ rs = (r, c') :: rest := by
  rw [trace]
  cases op.perform c with
  | ok r c' =>
    constructor
    · intro h
      obtain ⟨rest, hrest, rfl⟩ := Option.map_eq_some_iff.mp h
      exact ⟨r, c', rest, rfl, hrest, rfl⟩
    · rintro ⟨r, c', rest, h, hrest, rfl⟩
      cases h
      exact Option.map_eq_some_iff.mpr ⟨rest, hrest, rfl⟩
  | error e c' =>
    constructor
    · intro h
      cases h
    · rintro ⟨r, c', rest, h, -⟩
      cases h

theorem throughout_of_take {P : Operation → Ctx m → Prop} {ops : List Operation} {c : Ctx m}
    (h : ∀ k (hk : k < ops.length), P ops[k] (reached (execAll (ops.take k) c))) : Throughout P ops c := by
  induction ops generalizing c with
  | nil => trivial
  | cons op ops ih =>
    refine ⟨h 0 (Nat.succ_pos _), fun c' h' => ih fun k hk => ?_⟩
    have hnext := h (k+1) (Nat.succ_lt_succ hk)
    rwa [List.take_succ_cons, execAll, bind_ok h', List.getElem_cons_succ] at hnext

theorem Throughout.append {P : Operation → Ctx m → Prop} {as bs : List Operation} {c c' : Ctx m}
    (h : Throughout P (as ++ bs) c) (hrun : execAll as c = .ok () c') : Throughout P bs c' := by
  induction as generalizing c with
  | nil =>
    cases hrun
    exact h
  | cons a as ih =>
    obtain ⟨_, c1, h1, h2⟩ := Outcome.bind_eq_ok.mp hrun
    exact ih (h.2 c1 h1) h2

theorem Throughout.left {P : Operation → Ctx m → Prop} {as bs : List Operation} {c : Ctx m}
    (h : Throughout P (as ++ bs) c) : Throughout P as c := by
  induction as generalizing c with
  | nil => trivial
  | cons a as ih => exact ⟨h.1, fun c' hc' => ih (h.2 c' hc')⟩

theorem leads_iff {op : Operation} {c c' : Ctx m} (h : Avoids .undefined op.exec c) :
    op.Leads c c' ↔ c' = reached (op.exec c) :=
  ⟨fun hleads => hleads h, fun heq _ => heq⟩

theorem leads_ok {op : Operation} {c c' d : Ctx m} {u : Unit} (h : op.exec c = .ok u d) : op.Leads c c' ↔ c' = d := by
  rw [leads_iff (.of_ok h), h]
  rfl

theorem leads_exception {op : Operation} {c c' d : Ctx m} {info : Info} {message : String}
    (h : op.exec c = .error (.exception info message) d) : op.Leads c c' ↔ c' = d := by
  rw [leads_iff (.of_error h (by rintro ⟨⟩)), h]
  rfl

theorem Along.left {P : Operation → Ctx m → Prop} {as bs : List Operation} {c : Ctx m}
    (h : Along P (as ++ bs) c) : Along P as c := by
  induction as generalizing c with
  | nil => trivial
  | cons a as ih => exact ⟨h.1, fun d hd => ih (h.2 d hd)⟩

theorem Along.right {P : Operation → Ctx m → Prop} {as bs : List Operation} {c d : Ctx m}
    (h : Along P (as ++ bs) c) (hd : Reaches as c d) : Along P bs d := by
  induction as generalizing c with
  | nil =>
    cases hd
    exact h
  | cons a as ih =>
    obtain ⟨e, he, hd⟩ := hd
    exact ih (h.2 e he) hd

theorem Along.of_forall {P : Operation → Ctx m → Prop} {ops : List Operation} (h : ∀ op ∈ ops, ∀ c, P op c) (c : Ctx m) :
    Along P ops c := by
  induction ops generalizing c with
  | nil => trivial
  | cons op ops ih =>
    exact ⟨h op List.mem_cons_self c, fun d _ => ih (fun op' hop' => h op' (List.mem_cons_of_mem _ hop')) d⟩

theorem Along.mono {P Q : Operation → Ctx m → Prop} {ops : List Operation} {c : Ctx m} (h : Along P ops c)
    (hpq : ∀ op ∈ ops, ∀ c, P op c → Q op c) : Along Q ops c := by
  induction ops generalizing c with
  | nil => trivial
  | cons op ops ih =>
    exact ⟨hpq op List.mem_cons_self c h.1,
      fun d hd => ih (h.2 d hd) fun op' hop' => hpq op' (List.mem_cons_of_mem _ hop')⟩

end Operation

end Mopa.Io
