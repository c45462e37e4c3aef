import Mopa.Transcoding
import Mopa.WrittenText

/-! Text as a source of binary data. The text that construction prints of a value is not always
read back, but every value has texts that are, and whichever of them is parsed, construction
makes the same bits of it. -/
namespace Mopa.Io.Format
open Bits Outcome IcCtx OcCtx

variable {f : Format} {q size : Nat} {values : (f : Format) → f.Value}

end Mopa.Io.Format
