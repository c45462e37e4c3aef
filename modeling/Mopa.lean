import Mopa.TsRoundTrip
import Mopa.StuffingPackets
import Mopa.StuffingRules
import Mopa.OversizedSections
import Mopa.FailedWrites
import Mopa.UnmatchedEnds
import Mopa.TextLimits
import Mopa.CommonTypes
import Mopa.BitFields
import Mopa.BinaryInput
import Mopa.Format
import Mopa.FormatBinary
import Mopa.BlockConstruction
import Mopa.BlockNesting
import Mopa.Nit
import Mopa.DescriptorFormat
import Mopa.DescriptorLoop
import Mopa.NitRoundTrip
import Mopa.FieldAccess
import Mopa.TextLengths
import Mopa.TextSyntax
import Mopa.TextRoundTrip
import Mopa.StringSizes
import Mopa.TextNumerals
import Mopa.NitText
import Mopa.ReorderedPackets
import Mopa.Transcoding
import Mopa.NitBroadcast
import Mopa.DescriptorVector
import Mopa.WrittenText
import Mopa.Sec2tsOverhead
import Mopa.Backtracking
import Mopa.NitErrors
import Mopa.CutInput
import Mopa.TextSources
import Mopa.WrittenTables
import Mopa.ExtendedEvent
