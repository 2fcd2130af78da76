import Mathlib.Data.Nat.Notation

/-!
# Errors of the JPEG decoder

The errors that the modelled parts of the decoder report, with the data they carry.
-/
namespace J2kNative

inductive HuffmanFailure where
  | tableExhausted
  | codeOverflow
  | invalidSymbol
  deriving DecidableEq, Repr

inductive ProgressiveScanStateError where
  | duplicateInitial (previousAl al : ℕ)
  | refinementBeforeInitial (ah al : ℕ)
  | refinementMismatch (previousAl ah al : ℕ)
  | missingInitialDc
  deriving DecidableEq, Repr

inductive MarkerKind where
  | soi
  | eoi
  deriving DecidableEq, Repr

inductive SofKind where
  | baseline8
  | extended8
  | extended12
  | progressive8
  | progressive12
  | lossless
  deriving DecidableEq, Repr

inductive JpegError where
  | truncated (offset expected : ℕ)
  | invalidMarker (offset marker : ℕ)
  | unexpectedMarker (offset : ℕ) (expected : MarkerKind) (found : ℕ)
  | invalidSegmentLength (offset marker length : ℕ)
  | unknownScanComponent (offset component : ℕ)
  | duplicateScanComponent (offset component : ℕ)
  | invalidScanParameters (offset ss se ah al : ℕ)
  | invalidProgressiveScanState (offset marker component coefficient : ℕ)
      (state : ProgressiveScanStateError)
  | residualEobRun (offset scanOffset remaining : ℕ)
  | huffmanDecode (mcu : ℕ) (reason : HuffmanFailure)
  | unexpectedEoi (mcuAt mcuTotal : ℕ)
  | restartMismatch (offset expected found : ℕ)
  | missingMarker (marker : MarkerKind)
  | missingFrame
  | notImplemented (sof : SofKind)
  | unsupportedBitDepth (depth : ℕ)
  | downscaleUnsupported (sof : SofKind)
  | internalInvariant (reason : String)
  deriving DecidableEq, Repr

end J2kNative
