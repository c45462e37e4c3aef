import Mopa.NitBroadcast
import Mopa.NitText
import Mopa.WrittenText

/-! Tables as texts that somebody has written: parsing takes any of them, and construction makes
the section of the table of what was parsed, whatever lengths and checksum stand in the text. -/
namespace Mopa.Dvb
open Io Bits Outcome

namespace NetworkInformationSection

section Takes
variable (values : (f : Format) → f.Value) (fuel : Nat) {h : headFormat.Value} {v v' : bodyFormat.Value} {n p room : Nat}
  {hb bb : List Bool} {crc crc0 : UInt32} {length : UInt16} {s rest : List UInt8}

end Takes

section
variable {fresh fresh' : Fresh} {t : NetworkInformationSection} {s sec : List UInt8}

/-- Text parsing gives the struct, and the text is read to its end. -/
def Reads (fresh : Fresh) (s : List UInt8) (t : NetworkInformationSection) : Prop :=
  ∃ d, io (m := .parseText) fresh zero (IcCtx.create s) = .ok t d ∧ d.Next [0]

end

end NetworkInformationSection

end Mopa.Dvb
