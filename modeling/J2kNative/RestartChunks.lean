import J2kNative.BaselineEntropy

/-!
# Restart segments in parallel chunks

The encoder cuts the restart segments of a scan into chunks of consecutive
segments, encodes every chunk with a writer of its own and joins the bytes; or it
encodes all segments with one writer. A marker stands before every segment but
the first of the scan, and the bits before a marker are padded to a byte. The
sample planes and the transform enter through the quantized blocks. Every buffer is
reserved for its planned capacity, within a limit of live host bytes; the allocator
and the bytes that live outside are a parameter. Products of the capacity plan stay
below `2^64` and are natural numbers here.
-/
namespace J2kNative

open Emission

/-! ## The host -/

/-- `DEFAULT_MAX_HOST_ALLOCATION_BYTES` -/
def maxHostAllocationBytes : ℕ := 512*1024*1024

/-- What a run is given: the bytes that live outside of it, the size of the record of a job, and
the capacity that the allocator answers a reservation with, by its number in the run; none where
it fails. -/
structure EncodeHost where
  externalLiveBytes : ℕ
  jobBytes : ℕ
  reserve : (number capacity : ℕ) → Option ℕ
  le_reserve : ∀ {number capacity given}, reserve number capacity = some given → capacity ≤ given

/-- `checked_encode_host_live_bytes` -/
def checkedEncodeHostLiveBytes (capacities : List ℕ) : Except JpegEncodeError ℕ :=
  if 2^64 ≤ capacities.sum then .error (.memoryCapExceeded (2^64-1) maxHostAllocationBytes)
  else if maxHostAllocationBytes < capacities.sum then
    .error (.memoryCapExceeded capacities.sum maxHostAllocationBytes)
  else .ok capacities.sum

/-- `CappedBytes::try_with_capacity` for all bytes that it may hold: the capacity it has. -/
def CappedBytes.tryWithCapacity (host : EncodeHost) (number maxLen : ℕ) : Except JpegEncodeError ℕ :=
  match host.reserve number maxLen with
  | none => .error (.hostAllocationFailed maxLen)
  | some capacity =>
    if maxLen < capacity then .error (.memoryCapExceeded capacity maxLen) else .ok capacity

/-! ## Segments -/

/-- Sampling factors of the encoded components. -/
structure JpegBaselineSampling where
  factors : List (ℕ × ℕ)
  maxH : ℕ
  maxV : ℕ
  blocks_pos : 0 < (factors.map fun factor => factor.1*factor.2).sum

/-- What entropy coding reads: the blocks by component, MCU and place in the MCU, and the
tables of the first and of the other components. -/
structure EntropyInput where
  width : ℕ
  height : ℕ
  sampling : JpegBaselineSampling
  blocks : ℕ → ℕ → ℕ → ℕ → ℕ → QuantizedBlock
  dcTables : JpegBaselineHuffmanTable × JpegBaselineHuffmanTable
  acTables : JpegBaselineHuffmanTable × JpegBaselineHuffmanTable

namespace EntropyInput

/-- The MCUs of a row and of the image. -/
def entropyMcuLayout (input : EntropyInput) : Except JpegEncodeError (ℕ × ℕ) :=
  let mcusPerRow := TileGeometry.divCeil input.width (input.sampling.maxH*8)
  let mcuRows := TileGeometry.divCeil input.height (input.sampling.maxV*8)
  if 2^32 ≤ mcusPerRow*mcuRows then .error (.internalInvariant "JPEG MCU count overflow")
  else .ok (mcusPerRow,mcusPerRow*mcuRows)

/-- Component, column and row of the blocks of an MCU in coding order. -/
def mcuBlockOrder (sampling : JpegBaselineSampling) : List (ℕ × ℕ × ℕ) :=
  sampling.factors.zipIdx.flatMap fun (factor,component) =>
    (List.range factor.2).flatMap fun blockY =>
      (List.range factor.1).map fun blockX => (component,blockX,blockY)

def encodeMcuBlock (input : EntropyInput) (mcuX mcuY : ℕ) (prevDc : ℕ → ℤ) (place : ℕ × ℕ × ℕ) :
    Write (ℕ → ℤ) := do
  let component := place.1
  let dcTable := if component = 0 then input.dcTables.1 else input.dcTables.2
  let acTable := if component = 0 then input.acTables.1 else input.acTables.2
  let dc ← encodeBlock (input.blocks component mcuX mcuY place.2.1 place.2.2) (prevDc component)
    dcTable acTable
  pure (Function.update prevDc component dc)

def encodeMcu (input : EntropyInput) (mcusPerRow : ℕ) (prevDc : ℕ → ℤ) (mcuIndex : ℕ) :
    Write (ℕ → ℤ) :=
  (mcuBlockOrder input.sampling).foldlM
    (encodeMcuBlock input (mcuIndex % mcusPerRow) (mcuIndex/mcusPerRow)) prevDc

def encodeEntropyMcuRangeInto (input : EntropyInput) (mcusPerRow startMcu endMcu : ℕ) :
    Write Unit := do
  let _ ← (List.range' startMcu (endMcu-startMcu)).foldlM (encodeMcu input mcusPerRow) fun _ => 0
  pure ()

def writeSegmentMarker (segmentIndex : ℕ) : Write Unit :=
  if 0 < segmentIndex then BitWriter.writeRestartMarker (0xD0+(segmentIndex-1) % 8)
  else pure ()

def encodeSegmentMcus (input : EntropyInput) (mcusPerRow totalMcus restartInterval
    segmentIndex : ℕ) : Write Unit :=
  let startMcu := segmentIndex*restartInterval
  if 2^32 ≤ startMcu then throw (.internalInvariant "JPEG restart MCU offset overflow")
  else if 2^32 ≤ startMcu+restartInterval then
    throw (.internalInvariant "JPEG restart MCU end overflow")
  else encodeEntropyMcuRangeInto input mcusPerRow startMcu (min (startMcu+restartInterval) totalMcus)

/-- One pass of the loop over segments. -/
def encodeSegment (input : EntropyInput) (mcusPerRow totalMcus restartInterval segmentIndex : ℕ) :
    Write Unit := do
  writeSegmentMarker segmentIndex
  encodeSegmentMcus input mcusPerRow totalMcus restartInterval segmentIndex

def encodeEntropyRestartChunkInto (input : EntropyInput) (mcusPerRow totalMcus restartInterval
    startSegment endSegment : ℕ) : Write Unit :=
  (List.range' startSegment (endSegment-startSegment)).forM
    (encodeSegment input mcusPerRow totalMcus restartInterval)

/-- The bytes of a chunk from a fresh writer of its own. -/
def restartChunkBytes (input : EntropyInput) (mcusPerRow totalMcus restartInterval
    startSegment endSegment maxBytes : ℕ) : Except JpegEncodeError (List ℕ) := do
  let (_,w) ← encodeEntropyRestartChunkInto input mcusPerRow totalMcus restartInterval
    startSegment endSegment (BitWriter.withMaxBytes maxBytes)
  w.intoBytes

def encodeEntropyRestartChunk (host : EncodeHost) (input : EntropyInput) (mcusPerRow totalMcus
    restartInterval startSegment endSegment maxBytes : ℕ) : Except JpegEncodeError (List ℕ) := do
  let _ ← checkedEncodeHostLiveBytes [host.externalLiveBytes,maxBytes]
  let capacity ← CappedBytes.tryWithCapacity host 0 maxBytes
  let _ ← checkedEncodeHostLiveBytes [host.externalLiveBytes,capacity]
  restartChunkBytes input mcusPerRow totalMcus restartInterval startSegment endSegment maxBytes

/-- `JPEG_BASELINE_MAX_ENTROPY_BYTES`. -/
def maxEntropyBytes : ℕ := maxHostAllocationBytes-768

def checkedFrameCapacity (entropyCapacity : ℕ) : Except JpegEncodeError Unit :=
  if maxEntropyBytes < entropyCapacity then
    .error (.memoryCapExceeded (min (entropyCapacity+768) (2^64-1)) maxHostAllocationBytes)
  else .ok ()

/-- All segments with one writer. -/
def encodeEntropySerial (host : EncodeHost) (input : EntropyInput)
    (restartInterval entropyCapacity : ℕ) : Except JpegEncodeError (List ℕ) := do
  checkedFrameCapacity entropyCapacity
  let (mcusPerRow,totalMcus) ← input.entropyMcuLayout
  if totalMcus = 0 then .ok []
  else if restartInterval = 0 then .error .invalidRestartInterval
  else
    encodeEntropyRestartChunk host input mcusPerRow totalMcus restartInterval 0
      (TileGeometry.divCeil totalMcus restartInterval) entropyCapacity

/-! ## Chunks -/

def maxParallelEntropyChunks : ℕ := 64

def parallelEntropyChunkCount (segmentCount : ℕ) : ℕ :=
  min (max segmentCount 1) maxParallelEntropyChunks

def restartChunkSegmentBounds (segmentCount chunkIndex chunkCount : ℕ) : ℕ × ℕ :=
  (segmentCount*chunkIndex/chunkCount,segmentCount*(chunkIndex+1)/chunkCount)

def blocksPerMcu (sampling : JpegBaselineSampling) : ℕ :=
  (sampling.factors.map fun factor => factor.1*factor.2).sum

def entropyCapacityForMcus (totalMcus : ℕ) (sampling : JpegBaselineSampling)
    (restartMarkers : ℕ) : ℕ :=
  totalMcus*blocksPerMcu sampling*512+restartMarkers*2

def restartChunkEntropyCapacity (totalMcus restartInterval startSegment endSegment : ℕ)
    (sampling : JpegBaselineSampling) : ℕ :=
  entropyCapacityForMcus (min (endSegment*restartInterval) totalMcus-startSegment*restartInterval)
    sampling ((endSegment-startSegment)-(if startSegment = 0 then 1 else 0))

/-- The planned capacity of a chunk. -/
def chunkCapacity (totalMcus restartInterval segmentCount chunkCount : ℕ)
    (sampling : JpegBaselineSampling) (chunkIndex : ℕ) : ℕ :=
  let bounds := restartChunkSegmentBounds segmentCount chunkIndex chunkCount
  restartChunkEntropyCapacity totalMcus restartInterval bounds.1 bounds.2 sampling

structure RestartEntropyWorkspacePlan where
  chunkCount : ℕ
  chunkCapacityBytes : ℕ
  resultMetadataBytes : ℕ
  outputCapacity : ℕ

def RestartEntropyWorkspacePlan.liveBytes (plan : RestartEntropyWorkspacePlan) :
    Except JpegEncodeError ℕ :=
  checkedEncodeHostLiveBytes
    [plan.outputCapacity,plan.chunkCapacityBytes,plan.resultMetadataBytes]

/-- A product with the size of the record of a job, checked in 64 bits. -/
def jobRecordBytes (host : EncodeHost) (count : ℕ) : Except JpegEncodeError ℕ :=
  if 2^64 ≤ count*host.jobBytes then
    .error (.memoryCapExceeded (2^64-1) maxHostAllocationBytes)
  else .ok (count*host.jobBytes)

def restartEntropyWorkspacePlan (host : EncodeHost) (totalMcus : ℕ)
    (sampling : JpegBaselineSampling) (restartInterval entropyCapacity : ℕ) :
    Except JpegEncodeError RestartEntropyWorkspacePlan :=
  if restartInterval = 0 then .error .invalidRestartInterval
  else do
    let segmentCount := TileGeometry.divCeil totalMcus restartInterval
    let chunkCount := parallelEntropyChunkCount segmentCount
    let resultMetadataBytes ← jobRecordBytes host chunkCount
    let chunkCapacityBytes ← (List.range chunkCount).foldlM (fun bytes chunkIndex =>
      checkedEncodeHostLiveBytes
        [bytes,chunkCapacity totalMcus restartInterval segmentCount chunkCount sampling chunkIndex]) 0
    let plan := ⟨chunkCount,chunkCapacityBytes,resultMetadataBytes,entropyCapacity⟩
    let _ ← RestartEntropyWorkspacePlan.liveBytes plan
    .ok plan

def checkedRestartChunkPreallocationLiveBytes (host : EncodeHost) (outputCapacity metadataBytes
    allocatedChunkBytes nextChunkCapacity : ℕ) : Except JpegEncodeError ℕ :=
  checkedEncodeHostLiveBytes
    [host.externalLiveBytes,outputCapacity,metadataBytes,allocatedChunkBytes,nextChunkCapacity]

/-- A turn of the loop of `prepare_restart_jobs`: the writer of a chunk gets its capacity. -/
def prepareRestartJob (host : EncodeHost) (capacity : ℕ → ℕ) (outputCapacity metadataBytes
    chunkLiveBytes chunkIndex : ℕ) : Except JpegEncodeError ℕ := do
  let _ ← checkedRestartChunkPreallocationLiveBytes host outputCapacity metadataBytes chunkLiveBytes
    (capacity chunkIndex)
  let given ← CappedBytes.tryWithCapacity host (chunkIndex+1) (capacity chunkIndex)
  if 2^64 ≤ chunkLiveBytes+given then
    .error (.memoryCapExceeded (2^64-1) maxHostAllocationBytes)
  else do
    let _ ← checkedRestartChunkPreallocationLiveBytes host outputCapacity metadataBytes
      (chunkLiveBytes+given) 0
    .ok (chunkLiveBytes+given)

/-- `prepare_restart_jobs`: the bytes of the records and of the chunks' buffers. -/
def prepareRestartJobs (host : EncodeHost) (capacity : ℕ → ℕ) (outputCapacity chunkCount : ℕ) :
    Except JpegEncodeError (ℕ × ℕ) :=
  match host.reserve 0 chunkCount with
  | none => .error (.hostAllocationFailed (chunkCount*host.jobBytes))
  | some records => do
    let metadataBytes ← jobRecordBytes host records
    let chunkLiveBytes ← (List.range chunkCount).foldlM
      (prepareRestartJob host capacity outputCapacity metadataBytes) 0
    .ok (metadataBytes,chunkLiveBytes)

/-- The chunk with its planned capacity. -/
def runRestartJob (input : EntropyInput) (mcusPerRow totalMcus restartInterval segmentCount
    chunkCount chunkIndex : ℕ) : Except JpegEncodeError (List ℕ) :=
  let bounds := restartChunkSegmentBounds segmentCount chunkIndex chunkCount
  restartChunkBytes input mcusPerRow totalMcus restartInterval bounds.1 bounds.2
    (restartChunkEntropyCapacity totalMcus restartInterval bounds.1 bounds.2 input.sampling)

def extendFromSlice (maxLen : ℕ) (out chunk : List ℕ) : Except JpegEncodeError (List ℕ) :=
  if maxLen < out.length+chunk.length then
    .error (.memoryCapExceeded (out.length+chunk.length) maxLen)
  else .ok (out ++ chunk)

/-- The bytes of the chunks in order. -/
def joinRestartJobs (input : EntropyInput) (mcusPerRow totalMcus restartInterval segmentCount
    chunkCount entropyCapacity : ℕ) : Except JpegEncodeError (List ℕ) :=
  (List.range chunkCount).foldlM (fun out chunkIndex => do
    let chunk ← runRestartJob input mcusPerRow totalMcus restartInterval segmentCount
      chunkCount chunkIndex
    extendFromSlice entropyCapacity out chunk) []

/-- Every chunk by itself, joined in order; the bytes are joined after all buffers are had. -/
def encodeEntropyRestartSegments (host : EncodeHost) (input : EntropyInput)
    (restartInterval entropyCapacity : ℕ) : Except JpegEncodeError (List ℕ) :=
  if restartInterval = 0 then .error .invalidRestartInterval
  else do
    let (mcusPerRow,totalMcus) ← input.entropyMcuLayout
    if totalMcus = 0 then .ok []
    else do
      checkedFrameCapacity entropyCapacity
      let segmentCount := TileGeometry.divCeil totalMcus restartInterval
      let workspace ← restartEntropyWorkspacePlan host totalMcus input.sampling restartInterval
        entropyCapacity
      let workspaceBytes ← workspace.liveBytes
      let _ ← checkedEncodeHostLiveBytes [host.externalLiveBytes,workspaceBytes]
      let (metadataBytes,chunkLiveBytes) ← prepareRestartJobs host
        (chunkCapacity totalMcus restartInterval segmentCount workspace.chunkCount input.sampling)
        workspace.outputCapacity workspace.chunkCount
      let given ← CappedBytes.tryWithCapacity host (workspace.chunkCount+1) entropyCapacity
      let _ ← checkedEncodeHostLiveBytes
        [host.externalLiveBytes,metadataBytes,chunkLiveBytes,given]
      joinRestartJobs input mcusPerRow totalMcus restartInterval segmentCount workspace.chunkCount
        entropyCapacity

end EntropyInput
end J2kNative
