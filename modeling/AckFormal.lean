import AckFormal.Pipeline.SconText
import AckFormal.Pipeline.DataText
import AckFormal.Mcg.RegisterRehoming
import AckFormal.Mcg.WiredReturns
import AckFormal.Mcg.LoweredBlocks
import AckFormal.Mcg.ImmediateDominators
import AckFormal.Mcg.InferredTypes
import AckFormal.Mcg.LivenessExact
import AckFormal.Mcg.SplitEdgeRuns
import AckFormal.Mcg.PhiPartition
import AckFormal.Mcg.ParallelCopies
import AckFormal.Mcg.TreebuilderInsns
import AckFormal.Flt.Canonical
import AckFormal.Flt.QuotientTruncation
import AckFormal.Flt.IntegerParts
import AckFormal.Flt.Literals
import AckFormal.ConFloat.Nearest
import AckFormal.Led.Alignment
import AckFormal.Led.Indices
import AckFormal.Led.NameOffsets
import AckFormal.Led.FieldShifts
import AckFormal.Lib.Footprint
import AckFormal.Object.RoundTrip
import AckFormal.EmCode.InsertExpansion
import AckFormal.As.ThirdPass
import AckFormal.Fp.SoftFloat
import AckFormal.Ego.CfClosure
import AckFormal.Ego.PackResult
import AckFormal.LLgen.Conflicts
import AckFormal.Ansi.Saving
import AckFormal.Ansi.Strtol
import AckFormal.Ansi.ParseTZ
import AckFormal.Ansi.Realloc
import AckFormal.Ansi.DoscanRuns
import AckFormal.Ansi.Sorting
import AckFormal.Cem.Float2int
import AckFormal.Top.Preservation
import AckFormal.Opt.Relabel
import AckFormal.Opt.ReplMul
import AckFormal.ReadEm.Compact
import AckFormal.AckString.Longs
import AckFormal.As.TokenFile
import AckFormal.As.NumericLabels
import AckFormal.As.DelayedZeros
import AckFormal.Opt.TesSound
import AckFormal.Fp.LongDivision
import AckFormal.Fp.Comparison
import AckFormal.Fp.RoundTrips
import AckFormal.Ego.LiveVariables
import AckFormal.Fp.IntegerConversions
import AckFormal.Fp.FractionParts
import AckFormal.LLgen.LeastSets
import AckFormal.Cem.Cstoper
import AckFormal.Cem.Field
import AckFormal.Cem.Struct
