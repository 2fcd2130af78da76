import J2kNative.ClassicEncoder

/-!
# Segments and drivers of the classic encoder

A block is encoded into one segment, or its passes are cut into segments by its style; contexts go
on from segment to segment. The bytes are bounded by a plan that is made of the geometry alone.
Beside the errors of the source there are the panics of its `expect` calls.
-/
namespace J2kNative.ClassicEncoder
open SymbolChannels CountedLoops MqStates PayloadPlan Fallible

inductive Failure where
  | refused (error : EncodeError)
  | panics (what : String)
  deriving DecidableEq, Repr

def orRefuse {α : Type} (x : Except EncodeError α) : Except Failure α := x.mapError .refused

/-! ## Allocation -/

structure ClassicWorkerAllocation where
  outputBytes : ℕ
  scratchBytes : ℕ
  paddedCoefficients : ℕ
  payloadBytes : ℕ
  codingPasses : ℕ
  deriving DecidableEq, Repr

def maxTier1CodeBlockAxis : ℕ := 1024

def maxTier1CodeBlockSamples : ℕ := 4096

def validateTier1CodeBlockGeometry (width height : ℕ) : Except EncodeError ℕ := do
  refuse (width = 0 ∨ height = 0) (.invalidInput "Tier-1 code-block dimensions must be non-zero")
  let samples ← checked "Tier-1 code-block sample count" (width * height)
  refuse (width > maxTier1CodeBlockAxis ∨ height > maxTier1CodeBlockAxis ∨
      samples > maxTier1CodeBlockSamples)
    (.invalidInput "Tier-1 code-block geometry exceeds JPEG 2000 limits")
  pure samples

/-- `3 * coefficients + 4` symbols for each bit plane. -/
def symbolsPerBitplane (coefficients : ℕ) : Except EncodeError ℕ := do
  let allowance ← checked "classic Tier-1 symbols per bitplane" (3 * coefficients)
  checked "classic Tier-1 segmentation symbols" (allowance + 4)

def allocatedPasses (bitplanes : ℕ) : Except EncodeError ℕ :=
  if bitplanes = 0 then pure 0
  else do
    let passes ← checked "classic Tier-1 coding-pass count" (3 * (bitplanes - 1))
    checked "classic Tier-1 coding-pass count" (1 + passes)

def payloadBound (symbols codingPasses : ℕ) : Except EncodeError ℕ := do
  let payload ← checked "classic Tier-1 payload bound" (4 * symbols)
  let termination ← checked "classic Tier-1 termination bound" (4 * codingPasses)
  let terminated ← checked "classic Tier-1 terminated payload bound" (payload + termination)
  checked "classic Tier-1 final payload bound" (terminated + 16)

/-- The sizes of a magnitude, two flags and an index for each padded coefficient. -/
def paddedCoefficientBytes : ℕ := 8 + 1 * 2 + 8

def classicWorkerAllocation (width height totalBitplanes : ℕ) :
    Except EncodeError ClassicWorkerAllocation := do
  refuse (totalBitplanes > 64)
    (.invalidInput "classic Tier-1 bitplane count exceeds u64 magnitude precision")
  let coefficients ← validateTier1CodeBlockGeometry width height
  let paddedWidth ← checked "classic Tier-1 padded width" (width + 2)
  let paddedHeight ← checked "classic Tier-1 padded height" (height + 2)
  let paddedCoefficients ← checked "classic Tier-1 padded coefficient count"
    (paddedWidth * paddedHeight)
  let codingPasses ← allocatedPasses totalBitplanes
  let symbolsPerBitplane ← symbolsPerBitplane coefficients
  let symbols ← checked "classic Tier-1 symbol bound" (symbolsPerBitplane * totalBitplanes)
  let payloadBytes ← payloadBound symbols codingPasses
  let segmentMetadataBytes ← checked "classic Tier-1 segment metadata"
    (codingPasses * encodedSegmentBytes)
  let outputBytes ← checked "classic Tier-1 retained output" (payloadBytes + segmentMetadataBytes)
  let paddedStorageBytes ← checked "classic Tier-1 padded scratch"
    (paddedCoefficients * paddedCoefficientBytes)
  let activeSegmentBytes ← checked "classic Tier-1 active segment scratch" (payloadBytes + 1)
  let scratchBytes ← checked "classic Tier-1 worker scratch" (paddedStorageBytes + activeSegmentBytes)
  let requested ← checked "classic Tier-1 worker allocation" (outputBytes + scratchBytes)
  refuse (requested > defaultMaxCodecBytes)
    (.allocationTooLarge "classic Tier-1 worker allocation" requested defaultMaxCodecBytes)
  pure ⟨outputBytes,scratchBytes,paddedCoefficients,payloadBytes,codingPasses⟩

/-! ## Coders -/

def resetContexts : Buffer Context := fun label =>
  if label = 0 then 4 else if label = 17 then 3 else if label = 18 then 46 else 0

/-- The arithmetic coder takes a decision. Raw bits are not handed to it. -/
def codeSymbol (s : LimitedEncoder × Buffer Context) : Decision → LimitedEncoder × Buffer Context
  | .symbol label bit =>
      let (encoder,context) := s.1.encode bit.toNat (s.2 label)
      (encoder,s.2.set label context)
  | .raw _ => s
  | .resetContexts => (s.1,resetContexts)

/-- The raw writer takes a decision. Symbols are not handed to it. -/
def writeRaw (s : LimitedWriter × Buffer Context) : Decision → LimitedWriter × Buffer Context
  | .symbol _ _ => s
  | .raw bit => (s.1.writeBit bit,s.2)
  | .resetContexts => (s.1,resetContexts)

/-! ## The segmented encoder -/

/-- The fields of `SegmentedCodeBlockEncoder` that change. -/
structure SegmentedCodeBlockEncoder where
  arrays : Arrays
  contexts : Buffer Context
  data : List ℕ
  segments : List EncodedSegment
  currentSegmentIdx : Option ℕ
  currentSegmentStartPass : ℕ
  currentUseArithmetic : Bool
  arithmeticEncoder : Option LimitedEncoder
  bypassWriter : Option LimitedWriter

/-- The style as far as it cuts segments. -/
def CodeBlock.cutStyle (b : CodeBlock) : ClassicSegments.CodeBlockStyle :=
  ⟨b.style.selectiveArithmeticCodingBypass,b.style.terminationOnEachPass⟩

def SegmentedCodeBlockEncoder.tryNew (b : CodeBlock) : SegmentedCodeBlockEncoder :=
  ⟨b.startArrays,resetContexts,[],[],none,0,true,none,none⟩

namespace SegmentedCodeBlockEncoder
variable (b : CodeBlock) (allocation : ClassicWorkerAllocation) (s : SegmentedCodeBlockEncoder)

/-- The bytes of the current segment. -/
def segmentData : Except EncodeError (List ℕ) :=
  if s.currentUseArithmetic then
    match s.arithmeticEncoder with
    | none => .error (.internalInvariant "classic arithmetic segment encoder is missing")
    | some encoder => encoder.finishChecked
  else
    match s.bypassWriter with
    | none => .error (.internalInvariant "classic bypass segment writer is missing")
    | some writer => writer.finishChecked

/-- The tokens and contexts that `try_push_segment` has no part in are left empty. -/
def tryFinishCurrentSegment (endCodingPass : ℕ) : Except EncodeError SegmentedCodeBlockEncoder := do
  let segmentData ← s.segmentData
  let pushed ← tryPushSegment allocation.payloadBytes allocation.codingPasses
    ⟨⟨[],0⟩,[],s.data,s.segments⟩
    ⟨0,0,s.currentSegmentStartPass,endCodingPass,s.currentUseArithmetic⟩ segmentData
  pure { s with
    data := pushed.data
    segments := pushed.segments
    arithmeticEncoder := if s.currentUseArithmetic then none else s.arithmeticEncoder
    bypassWriter := if s.currentUseArithmetic then s.bypassWriter else none }

/-- The coder of a new segment. -/
def openSegment (segmentIdx codingPass : ℕ) (useArithmetic : Bool) : SegmentedCodeBlockEncoder :=
  { s with
    currentSegmentIdx := some segmentIdx
    currentSegmentStartPass := codingPass
    currentUseArithmetic := useArithmetic
    arithmeticEncoder :=
      if useArithmetic then some (.tryWithByteLimit allocation.payloadBytes) else none
    bypassWriter :=
      if useArithmetic then none else some (.tryWithByteLimit allocation.payloadBytes) }

def tryBeginSegmentForPass (codingPass : ℕ) : Except EncodeError SegmentedCodeBlockEncoder :=
  let segmentIdx := ClassicSegments.segmentIndex b.cutStyle codingPass
  let useArithmetic := ClassicSegments.passUsesArithmetic b.cutStyle codingPass
  if s.currentSegmentIdx = some segmentIdx then pure s
  else do
    let s ← if s.currentSegmentIdx.isSome then s.tryFinishCurrentSegment allocation codingPass
      else pure s
    pure (s.openSegment allocation segmentIdx codingPass useArithmetic)

/-- What `expect` says of a pass without its coder. -/
def missingCoder (codingPass : ℕ) : String :=
  if codingPass % 3 = 0 then "cleanup pass uses arithmetic encoder"
  else if codingPass % 3 = 1 then
    if s.currentUseArithmetic then "arithmetic encoder exists for significance pass"
    else "bypass writer exists for significance pass"
  else
    if s.currentUseArithmetic then "arithmetic encoder exists for refinement pass"
    else "bypass writer exists for refinement pass"

/-- `encode_coding_pass` and the reset of the contexts behind it. -/
def encodeTurn (numBitplanes codingPass : ℕ) : Except Failure SegmentedCodeBlockEncoder :=
  let sent := b.encodeTurn s.currentUseArithmetic numBitplanes codingPass s.arrays
  if codingPass % 3 = 0 ∨ s.currentUseArithmetic then
    match s.arithmeticEncoder with
    | none => .error (.panics (s.missingCoder codingPass))
    | some encoder =>
        let (encoder,contexts) := sent.symbols.foldl codeSymbol (encoder,s.contexts)
        .ok { s with arrays := sent.state, contexts, arithmeticEncoder := some encoder }
  else
    match s.bypassWriter with
    | none => .error (.panics (s.missingCoder codingPass))
    | some writer =>
        let (writer,contexts) := sent.symbols.foldl writeRaw (writer,s.contexts)
        .ok { s with arrays := sent.state, contexts, bypassWriter := some writer }

/-- One turn of the loop of `try_encode_all_passes`. -/
def tryEncodePass (numBitplanes : ℕ) (s : SegmentedCodeBlockEncoder) (codingPass : ℕ) :
    Except Failure SegmentedCodeBlockEncoder := do
  let s ← orRefuse (s.tryBeginSegmentForPass b allocation codingPass)
  s.encodeTurn b numBitplanes codingPass

def tryEncodeAllPasses (numBitplanes numZeroBitplanes : ℕ) : Except Failure EncodedCodeBlock := do
  let totalPasses := 1 + 3 * (numBitplanes - 1)
  let s ← (List.range totalPasses).foldlM (tryEncodePass b allocation numBitplanes) s
  let s ← if s.currentSegmentIdx.isSome then
      orRefuse (s.tryFinishCurrentSegment allocation totalPasses)
    else pure s
  pure ⟨s.data,s.segments,totalPasses,numZeroBitplanes⟩

end SegmentedCodeBlockEncoder

/-! ## Drivers -/

namespace CodeBlock
variable (b : CodeBlock)

def maxMagnitude : ℕ :=
  (List.range b.height).foldl (fun magnitude y => (List.range b.width).foldl
    (fun magnitude x => max magnitude (b.coefficient x y).natAbs) magnitude) 0

def numBitplanes : ℕ := b.maxMagnitude.size

/-- `try_encode_code_block_with_style_view`: the data, the passes, one for the first bit plane and
three for each other, and the bit planes without a bit. -/
def tryEncodeCodeBlockWithStyleView (totalBitplanes : ℕ) : Except EncodeError (List ℕ × ℕ × ℕ) := do
  let allocation ← classicWorkerAllocation b.width b.height totalBitplanes
  if b.maxMagnitude = 0 then pure ([],0,totalBitplanes)
  else do
    refuse (b.numBitplanes > totalBitplanes)
      (.invalidInput "classic code-block magnitude exceeds configured bitplane count")
    let sent := b.encodeBitplanes b.numBitplanes b.startArrays
    let coded := sent.symbols.foldl codeSymbol
      (.tryWithByteLimit allocation.payloadBytes,resetContexts)
    let data ← coded.1.finishChecked
    pure (data,1 + 3 * (b.numBitplanes - 1),totalBitplanes - b.numBitplanes)

def emptySegmentedCodeBlock (totalBitplanes : ℕ) : EncodedCodeBlock := ⟨[],[],0,totalBitplanes⟩

def tryEncodeUnsegmentedCodeBlock (totalBitplanes : ℕ) :
    Except EncodeError (Option EncodedCodeBlock) :=
  if b.style.terminationOnEachPass || b.style.selectiveArithmeticCodingBypass then pure none
  else do
    let (data,numCodingPasses,numZeroBitplanes) ← b.tryEncodeCodeBlockWithStyleView totalBitplanes
    if numCodingPasses = 0 then pure (some ⟨data,[],numCodingPasses,numZeroBitplanes⟩)
    else do
      refuse (data.length ≥ 2 ^ 32)
        (.internalInvariant "classic Tier-1 payload length exceeds u32")
      pure (some ⟨data,[⟨0,data.length,0,numCodingPasses,true⟩],numCodingPasses,numZeroBitplanes⟩)

def tryEncodeSegmentedCodeBlock (totalBitplanes : ℕ) : Except Failure EncodedCodeBlock := do
  let allocation ← orRefuse (classicWorkerAllocation b.width b.height totalBitplanes)
  let unsegmented ← orRefuse (b.tryEncodeUnsegmentedCodeBlock totalBitplanes)
  match unsegmented with
  | some encoded => pure encoded
  | none =>
      if b.maxMagnitude = 0 then pure (emptySegmentedCodeBlock totalBitplanes)
      else do
        orRefuse (refuse (b.numBitplanes > totalBitplanes)
          (.invalidInput "classic code-block magnitude exceeds configured bitplane count"))
        (SegmentedCodeBlockEncoder.tryNew b).tryEncodeAllPasses b allocation b.numBitplanes
          (totalBitplanes - b.numBitplanes)

end CodeBlock

end J2kNative.ClassicEncoder
