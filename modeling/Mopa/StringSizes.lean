import Mopa.BoundsChecks
import Mopa.TextTokens

/-! How many bytes a string takes, in each of the four modes. -/
namespace Mopa.Io
open Bits Outcome

/-- A call returns a string of a permitted length only, and passes its bytes and `extra` ones
within the limit; otherwise it throws. -/
def Accounts {σ : Type} (pos : σ → Nat) (permitted : Nat → Prop) (extra p limit : Nat) :
    EStateM.Result Halt σ (List UInt8) → Prop
  | .ok str c' => permitted str.length ∧ pos c' = p + 8 * (extra + str.length) ∧ pos c' ≤ limit
  | .error e _ => e.Thrown

section Parsing
variable {permitted : Nat → Prop} {extra : Nat} {info : Option Info}

end Parsing

section Short
variable {info : Option Info}

end Short

section Fixed
variable {n : Nat} {info : Option Info}

end Fixed

end Mopa.Io
