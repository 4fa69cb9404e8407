import VolumeCodec.Axes
import VolumeCodec.Bitplane
import VolumeCodec.Coefficients
import VolumeCodec.Compression
import VolumeCodec.Corrections
import VolumeCodec.Decoder
import VolumeCodec.Decompression
import VolumeCodec.Dialogue
import VolumeCodec.Encoder
import VolumeCodec.EscapedRanges
import VolumeCodec.Fault
import VolumeCodec.Goal
import VolumeCodec.IndexSet
import VolumeCodec.Layout
import VolumeCodec.LittleEndian
import VolumeCodec.Magnitude
import VolumeCodec.Memory
import VolumeCodec.Proofs.AcceptedOutput
import VolumeCodec.Proofs.ActionRuns
import VolumeCodec.Proofs.ArbitraryBits
import VolumeCodec.Proofs.ArbitraryBytes
import VolumeCodec.Proofs.ArbitraryContainers
import VolumeCodec.Proofs.ArbitraryHeaders
import VolumeCodec.Proofs.ArbitraryStreams
import VolumeCodec.Proofs.ArbitraryTiles
import VolumeCodec.Proofs.Binary64
import VolumeCodec.Proofs.BitBound
import VolumeCodec.Proofs.BitDemands
import VolumeCodec.Proofs.BitSequences
import VolumeCodec.Proofs.BitShares
import VolumeCodec.Proofs.BitwiseTransfers
import VolumeCodec.Proofs.BooleanLists
import VolumeCodec.Proofs.BoxBounds
import VolumeCodec.Proofs.CodedBits
import VolumeCodec.Proofs.CodedTapes
import VolumeCodec.Proofs.Conduct
import VolumeCodec.Proofs.ContainerSteps
import VolumeCodec.Proofs.CorrectionErrors
import VolumeCodec.Proofs.CorrectionOrder
import VolumeCodec.Proofs.CorrectionRoundTrip
import VolumeCodec.Proofs.CutCodes
import VolumeCodec.Proofs.DataFaults
import VolumeCodec.Proofs.DecoderBits
import VolumeCodec.Proofs.Dissection
import VolumeCodec.Proofs.DoublePlanes
import VolumeCodec.Proofs.EmbeddedStream
import VolumeCodec.Proofs.EncoderBits
import VolumeCodec.Proofs.ExactDoubles
import VolumeCodec.Proofs.ExactPlanes
import VolumeCodec.Proofs.Exchanges
import VolumeCodec.Proofs.Explorations
import VolumeCodec.Proofs.FailedOperations
import VolumeCodec.Proofs.Geometry
import VolumeCodec.Proofs.HeaderBytes
import VolumeCodec.Proofs.HeaderFormats
import VolumeCodec.Proofs.History
import VolumeCodec.Proofs.Lockstep
import VolumeCodec.Proofs.MissingBits
import VolumeCodec.Proofs.Offspring
import VolumeCodec.Proofs.Outcomes
import VolumeCodec.Proofs.PackedBits
import VolumeCodec.Proofs.Partitions
import VolumeCodec.Proofs.Passes
import VolumeCodec.Proofs.PlaneCoding
import VolumeCodec.Proofs.PlaneRange
import VolumeCodec.Proofs.PlaneRule
import VolumeCodec.Proofs.PlaneTests
import VolumeCodec.Proofs.PointwiseErrors
import VolumeCodec.Proofs.ProgressiveDecoding
import VolumeCodec.Proofs.QuantizationStep
import VolumeCodec.Proofs.QuantizedCorrections
import VolumeCodec.Proofs.RangeTests
import VolumeCodec.Proofs.ReadCoherence
import VolumeCodec.Proofs.RealArithmetic
import VolumeCodec.Proofs.RealRoundTrip
import VolumeCodec.Proofs.RegionScans
import VolumeCodec.Proofs.RepeatedDecoding
import VolumeCodec.Proofs.ResidualBounds
import VolumeCodec.Proofs.ResidualComplement
import VolumeCodec.Proofs.ReusedTapes
import VolumeCodec.Proofs.RoundTrip
import VolumeCodec.Proofs.RoundingErrors
import VolumeCodec.Proofs.ShortInput
import VolumeCodec.Proofs.Sorting
import VolumeCodec.Proofs.SquaredErrors
import VolumeCodec.Proofs.StaleBits
import VolumeCodec.Proofs.StoredCorrections
import VolumeCodec.Proofs.StoredReals
import VolumeCodec.Proofs.StoredScale
import VolumeCodec.Proofs.TapeBits
import VolumeCodec.Proofs.TapeBytes
import VolumeCodec.Proofs.TapeWrites
import VolumeCodec.Proofs.ThresholdArithmetic
import VolumeCodec.Proofs.TileContents
import VolumeCodec.Proofs.TileCover
import VolumeCodec.Proofs.TileIndependence
import VolumeCodec.Proofs.TileLayout
import VolumeCodec.Proofs.TileReassembly
import VolumeCodec.Proofs.TileSpans
import VolumeCodec.Proofs.TiledContainers
import VolumeCodec.Proofs.TrueAnswers
import VolumeCodec.Proofs.TruncatedContainers
import VolumeCodec.Proofs.TruncatedDecoding
import VolumeCodec.Proofs.Turns
import VolumeCodec.Proofs.WholeContainers
import VolumeCodec.Proofs.WholeDoubles
import VolumeCodec.Proofs.WidthIndependence
import VolumeCodec.Proofs.WorklistContents
import VolumeCodec.QuotedText
import VolumeCodec.Reader
import VolumeCodec.Region
import VolumeCodec.Rounding
import VolumeCodec.ShortestDecimal
import VolumeCodec.Splitting
import VolumeCodec.Stop
import VolumeCodec.Tape
import VolumeCodec.Tiling
import VolumeCodec.Width
import VolumeCodec.Word
import VolumeCodec.Worklists
