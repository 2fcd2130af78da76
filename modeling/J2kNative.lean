import J2kNative.StuffedDigits
import J2kNative.MqEncoder
import J2kNative.MqInterval
import J2kNative.MqDecoder
import J2kNative.MqRoundTrip
import J2kNative.CountedLoops
import J2kNative.ForwardDwt
import J2kNative.InverseDwt
import J2kNative.DwtRoundTrip
import J2kNative.PacketProgression
import J2kNative.PacketPlan
import J2kNative.ProgressionAgreement
import J2kNative.PacketBody
import J2kNative.StreamCuts
import J2kNative.PacketMarkers
import J2kNative.MarkerSegments
import J2kNative.PacketMarkerSpecs
import J2kNative.PacketLengthRoundTrip
import J2kNative.PacketHeaderRoundTrip
import J2kNative.SeparatedPacketHeaders
import J2kNative.PacketIteration
import J2kNative.PacketInclusion
import J2kNative.ProgressionChanges
import J2kNative.BitStuffing
import J2kNative.HtContributions
import J2kNative.HtRoundTrip
import J2kNative.CellGrids
import J2kNative.PacketContents
import J2kNative.PrecinctBlocks
import J2kNative.DecodedBlocks
import J2kNative.PacketSets
import J2kNative.PacketSetAgreement
import J2kNative.MqDecoderRange
import J2kNative.PacketHeaderWriter
import J2kNative.LayerAssignment
import J2kNative.UpperHull
import J2kNative.TileCandidates
import J2kNative.TileHulls
import J2kNative.ClassicSegments
import J2kNative.TagTreeEncoder
import J2kNative.TagTreeDecoder
import J2kNative.TagTreeRoundTrip
import J2kNative.PacketHeaderForm
import J2kNative.PacketHeaderBounds
import J2kNative.RecordedRuns
import J2kNative.ClassicPasses
import J2kNative.ClassicFastPath
import J2kNative.ClassicBlockState
import J2kNative.ClassicBlockRuns
import J2kNative.InterruptibleRuns
import J2kNative.JpegErrors
import J2kNative.ProgressiveScript
import J2kNative.ProgressiveScan
import J2kNative.ProgressiveApproximation
import J2kNative.ProgressiveInvariant
import J2kNative.BaselineEntropy
import J2kNative.RestartAgreement
import J2kNative.CodestreamAccounting
import J2kNative.DirectWaveletAgreement
import J2kNative.JpegHuffman
import J2kNative.JpegBitStream
import J2kNative.LosslessScan
import J2kNative.ReaderLocality
import J2kNative.LosslessRestart
import J2kNative.JpegEntropyBytes
import J2kNative.HuffmanReading
import J2kNative.LosslessIntervals
import J2kNative.LosslessLeak
import J2kNative.LosslessIndependence
import J2kNative.HuffmanCodes
import J2kNative.IteratorRuns
import J2kNative.JpegSegments
import J2kNative.AcRefinement
import J2kNative.ScanFinish
import J2kNative.SequentialReaders
import J2kNative.SingleComponentScan
import J2kNative.EntropyScanners
import J2kNative.LosslessCoding
import J2kNative.LosslessRows
import J2kNative.BlockVariants
import J2kNative.HuffmanDecoding
import J2kNative.BitSerial
import J2kNative.HuffmanPaths
import J2kNative.NeverSilent
import J2kNative.RoiPlan
import J2kNative.RoiMaxshift
import J2kNative.InverseDct
import J2kNative.ReducedIdct
import J2kNative.ParameterPrecedence
import J2kNative.TilePartLocality
import J2kNative.OpenEnded
import J2kNative.AssembledTables
import J2kNative.TilePreparation
import J2kNative.ComponentStore
import J2kNative.PacketLengthValues
import J2kNative.TagTreeNodes
import J2kNative.DerivedQuantization
import J2kNative.PayloadPlan
import J2kNative.EntropyCapacity
import J2kNative.CoordinateOverflow
import J2kNative.KeptState
import J2kNative.TileMetadataLedger
import J2kNative.SymbolChannels
import J2kNative.ClassicEncoder
import J2kNative.ClassicMirror
import J2kNative.ClassicEncodedPasses
import J2kNative.ClassicSchedule
import J2kNative.ClassicCoder
import J2kNative.ClassicChannels
import J2kNative.ClassicPayload
import J2kNative.ClassicRoundTrip
import J2kNative.ClassicSegmentRuns
import J2kNative.ClassicFacade
import J2kNative.ClassicBlockRoundTrip
import J2kNative.PacketAssembly
import J2kNative.PacketParsing
import J2kNative.PacketContributions
import J2kNative.PacketReading
import J2kNative.PacketSteps
import J2kNative.PacketRuns
import J2kNative.PacketStart
import J2kNative.PacketRoundTrip
import J2kNative.LayeredPackets
import J2kNative.LayeredBlocks
import J2kNative.LayeredRoundTrip
import J2kNative.LayeredEncoder
