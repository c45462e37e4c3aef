import Mopa.Transcoding
import Mopa.BinaryProgress

/-! Binary formats end where their bits say. What follows does not count, and an input that is
cut short is refused. -/
namespace Mopa.Io
open Bits Outcome

namespace Format
variable {f : Format} {q : Nat} {values : (f : Format) → f.Value}

end Format

end Mopa.Io
