import J2kNative.EncodeErrors
import J2kNative.Fallible
import J2kNative.MainHeader

/-!
# The codestream writer

The length of a codestream computed before it is written, and the writer that checks
itself against it. The caller's check of the allocation peak and the allocator are
parameters. Inside the packet marker segments sums are not checked for overflow of
`usize`; outside them they are.
-/
namespace J2kNative.CodestreamWriter
open PacketMarkers MainHeader

/-- A tile-part, its fields within the types of the source. -/
structure TilePartData where
  tileIndex : ℕ
  tilePartIndex : ℕ
  numTileParts : ℕ
  data : List ℕ
  packetLengths : List ℕ
  packetHeaders : List (List ℕ)
  tileIndex_lt : tileIndex < 2 ^ 16
  tilePartIndex_lt : tilePartIndex < 2 ^ 8
  numTileParts_lt : numTileParts < 2 ^ 8
  packetLengths_lt : ∀ length ∈ packetLengths, length < 2 ^ 32

/-! ## Accounting -/

def usizeMax : ℕ := 2 ^ 64 - 1

/-- `checked_add_bytes`. -/
def checkedAddBytes (left right : ℕ) (what : String) : Except EncodeError ℕ :=
  if left + right ≤ usizeMax then .ok (left + right) else .error (.arithmeticOverflow what)

/-- `checked_element_bytes`. -/
def checkedElementBytes (count size : ℕ) (what : String) : Except EncodeError ℕ :=
  if count * size ≤ usizeMax then .ok (count * size) else .error (.arithmeticOverflow what)

/-- The errors of the packet markers; the checks that repeat earlier ones are invariants. -/
def packetMarkerError (what : String) : EncodeError :=
  if "validated".toList.isPrefixOf what.toList then .internalInvariant what else .invalidInput what

def packetMarkers {α : Type} (result : Except String α) : Except EncodeError α :=
  result.mapError packetMarkerError

/-- `plt_marker_bytes`. -/
def pltMarkerBytes (packetLengths : List ℕ) : Except EncodeError ℕ :=
  packetMarkers (chunkedMarkerBytes (packetLengthPayloadLen packetLengths) pltChunkSize 5
    "PLT packet lengths require more than 256 marker segments")

/-- `plm_marker_bytes`. -/
def plmMarkerBytes (tiles : List TilePartData) : Except EncodeError ℕ :=
  let payload := tiles.foldl (fun bytes tile => bytes + packetLengthPayloadLen tile.packetLengths) 0
  packetMarkers (chunkedMarkerBytes payload plmChunkSize 9
    "PLM packet lengths require more than 256 marker segments")

/-- `ppt_marker_bytes`. -/
def pptMarkerBytes (packetHeaders : List (List ℕ)) : Except EncodeError ℕ :=
  let payload := packetHeaders.foldl (fun bytes header => bytes + header.length) 0
  packetMarkers (chunkedMarkerBytes payload packetHeaderMarkerPayloadLimit 5
    "PPT packet headers require more than 256 marker segments")

/-- `ppm_marker_bytes`, over the chunks that fit into 256 segments. -/
def ppmMarkerBytes (tiles : List TilePartData) : Except EncodeError ℕ :=
  if tiles.any fun tile => tile.packetHeaders.isEmpty then
    .error (.invalidInput "PPM encode requires separated packet headers")
  else do
    let headers := tiles.map TilePartData.packetHeaders
    let chunks ← packetMarkers (ppmChunks (headers.flatten.length + 1) ⟨[], headers⟩ 0)
    chunks.foldlM (fun total chunk =>
      checkedAddBytes total (chunk.2 + 5) "packet-header marker byte length") 0

/-- `quantization_marker_bytes`. -/
def quantizationMarkerBytes (reversible : Bool) (stepCount componentBytes : ℕ)
    (markerLengthError : String) : Except EncodeError ℕ :=
  if stepCount ≥ 2 ^ 16 then
    .error (.invalidInput "codestream quantization step count exceeds marker capacity")
  else if ¬ reversible ∧ stepCount * 2 ≥ 2 ^ 16 then
    .error (.arithmeticOverflow "codestream quantization step bytes")
  else
    let markerBytes := 5 + componentBytes + (if reversible then stepCount else stepCount * 2)
    if markerBytes - 2 ≥ 2 ^ 16 then .error (.invalidInput markerLengthError)
    else .ok markerBytes

def componentBytes (params : EncodeParams) : ℕ := if params.numComponents < 257 then 1 else 2
def rgnBytes (params : EncodeParams) : ℕ := if params.numComponents < 257 then 7 else 8

/-- The QCC segments of `main_header_prefix_len`. -/
def addQccBytes (params : EncodeParams) (bytes : ℕ) (steps : List (ℕ × ℕ)) :
    Except EncodeError ℕ :=
  if steps.isEmpty then .ok bytes
  else do
    let segment ← quantizationMarkerBytes params.reversible steps.length (componentBytes params)
      "QCC marker length exceeds u16"
    checkedAddBytes bytes segment "codestream QCC marker bytes"

/-- The RGN segments of `main_header_prefix_len`. -/
def addRgnBytes (params : EncodeParams) (bytes shift : ℕ) : Except EncodeError ℕ :=
  if shift ≠ 0 then checkedAddBytes bytes (rgnBytes params) "codestream RGN marker bytes"
  else .ok bytes

/-- `main_header_prefix_len`. -/
def mainHeaderPrefixLen (params : EncodeParams) (stepSizes : List (ℕ × ℕ)) :
    Except EncodeError ℕ := do
  let sizPayload ← checkedElementBytes params.numComponents 3 "codestream SIZ component bytes"
  let bytes ← checkedAddBytes 2 40 "codestream SIZ marker bytes"
  let bytes ← checkedAddBytes bytes sizPayload "codestream SIZ marker bytes"
  let bytes ← (if params.blockCodingMode = .highThroughput
    then checkedAddBytes bytes 10 "codestream CAP marker bytes" else .ok bytes)
  let precinctBytes ← (if params.precinctExponents.length + 12 < 2 ^ 16
    then .ok params.precinctExponents.length
    else .error (.invalidInput
      "codestream precinct exponent count exceeds COD marker capacity"))
  let bytes ← checkedAddBytes bytes 14 "codestream COD marker bytes"
  let bytes ← checkedAddBytes bytes precinctBytes "codestream COD precinct bytes"
  let qcd ← quantizationMarkerBytes params.reversible stepSizes.length 0
    "QCD marker length exceeds u16"
  let bytes ← checkedAddBytes bytes qcd "codestream QCD marker bytes"
  let bytes ← (params.componentQuantizationStepSizes.take params.numComponents).foldlM
    (addQccBytes params) bytes
  (params.roiComponentShifts.take params.numComponents).foldlM (addRgnBytes params) bytes

/-- `tile_part_len`. -/
def tilePartLen (params : EncodeParams) (tile : TilePartData) : Except EncodeError ℕ := do
  let plt ← (if params.writePlt then pltMarkerBytes tile.packetLengths else .ok 0)
  let bytes ← checkedAddBytes 14 plt "tile PLT bytes"
  let ppt ← (if params.writePpt then pptMarkerBytes tile.packetHeaders else .ok 0)
  let bytes ← checkedAddBytes bytes ppt "tile PPT bytes"
  let bytes ← checkedAddBytes bytes tile.data.length "tile-part payload bytes"
  if bytes < 2 ^ 32 then .ok bytes else .error (.invalidInput "tile-part length exceeds u32")

/-- `single_tile_output_len`. -/
def singleTileOutputLen (params : EncodeParams) (tileDataLen : ℕ) (stepSizes : List (ℕ × ℕ)) :
    Except EncodeError ℕ :=
  if tileDataLen + 14 ≥ 2 ^ 32 then .error (.invalidInput "tile-part length exceeds u32")
  else do
    let bytes ← mainHeaderPrefixLen params stepSizes
    let bytes ← (if params.writeTlm then checkedAddBytes bytes 12 "codestream TLM marker bytes"
      else .ok bytes)
    let bytes ← checkedAddBytes bytes 14 "codestream single tile-part bytes"
    let bytes ← checkedAddBytes bytes tileDataLen "codestream tile payload bytes"
    checkedAddBytes bytes 2 "codestream EOC marker bytes"

/-- The general case of `codestream_tiles_output_len`. -/
def tilePartsOutputLen (params : EncodeParams) (tiles : List TilePartData)
    (stepSizes : List (ℕ × ℕ)) : Except EncodeError ℕ := do
  let bytes ← mainHeaderPrefixLen params stepSizes
  let plm ← (if params.writePlm then plmMarkerBytes tiles else .ok 0)
  let bytes ← checkedAddBytes bytes plm "codestream PLM marker bytes"
  let ppm ← (if params.writePpm then ppmMarkerBytes tiles else .ok 0)
  let bytes ← checkedAddBytes bytes ppm "codestream PPM marker bytes"
  let tlm ← (if params.writeTlm
    then checkedElementBytes tiles.length 12 "codestream TLM marker bytes" else .ok 0)
  let bytes ← checkedAddBytes bytes tlm "codestream TLM marker bytes"
  let bytes ← tiles.foldlM (fun bytes tile => do
    checkedAddBytes bytes (← tilePartLen params tile) "codestream tile-part bytes") bytes
  checkedAddBytes bytes 2 "codestream EOC marker bytes"

/-- `codestream_tiles_output_len`. -/
def codestreamTilesOutputLen (params : EncodeParams) (tiles : List TilePartData)
    (stepSizes : List (ℕ × ℕ)) : Except EncodeError ℕ :=
  match tiles with
  | [tile] =>
      if ¬ (params.writePlt || params.writePlm || params.writePpm || params.writePpt) then
        singleTileOutputLen params tile.data.length stepSizes
      else tilePartsOutputLen params tiles stepSizes
  | _ => tilePartsOutputLen params tiles stepSizes

/-! ## Writing -/

/-- `write_tlm_marker`. -/
def tlmMarker (tileIndex tilePartLength : ℕ) : List ℕ :=
  [0xFF, PacketMarkers.markers.TLM] ++ beBytes16 10 ++ [0, 0x60] ++ beBytes16 tileIndex ++
    beBytes32 tilePartLength

/-- `write_sot_marker`. -/
def sotMarker (tileIndex tilePartLength tilePartIndex numTileParts : ℕ) : List ℕ :=
  [0xFF, PacketMarkers.markers.SOT] ++ beBytes16 10 ++ beBytes16 tileIndex ++
    beBytes32 (tilePartLength + 2) ++ [tilePartIndex, numTileParts]

/-- A vector's capacity after a reservation of so many elements, if there is one. -/
structure Allocator where
  reserve : ℕ → Option ℕ
  le_reserve : ∀ elements capacity, reserve elements = some capacity → elements ≤ capacity

structure AccountedCodestream where
  codestream : List ℕ
  writerPeakBytes : ℕ
  deriving DecidableEq, Repr

def lengthMismatch : EncodeError :=
  .internalInvariant "accounted codestream length changed after exact preflight"

/-- One tile-part of the writer. -/
def writeTilePart (params : EncodeParams) (out : List ℕ) (tile : TilePartData) :
    Except EncodeError (List ℕ) := do
  let length ← tilePartLen params tile
  let out := out ++ sotMarker tile.tileIndex (length - 2) tile.tilePartIndex tile.numTileParts
  let out ← (if params.writePlt then packetMarkers (writePltMarkers out tile.packetLengths)
    else .ok out)
  let out ← (if params.writePpt then packetMarkers (writePptMarkers out tile.packetHeaders)
    else .ok out)
  .ok (out ++ [0xFF, PacketMarkers.markers.SOD] ++ tile.data)

/-- The TLM segments of the writer. -/
def writeTlmMarkers (params : EncodeParams) (out : List ℕ) (tiles : List TilePartData) :
    Except EncodeError (List ℕ) :=
  tiles.foldlM (fun out tile => do
    let length ← tilePartLen params tile
    .ok (out ++ tlmMarker tile.tileIndex length)) out

/-- What the writer puts out, without the checks around it. -/
def writeMarkers (params : EncodeParams) (tiles : List TilePartData)
    (stepSizes : List (ℕ × ℕ)) : Except EncodeError (List ℕ) := do
  let out ← (mainHeaderPrefix params stepSizes).mapError .invalidInput
  let out ← (if params.writePlm
    then packetMarkers (writePlmMarkers out (tiles.map TilePartData.packetLengths)) else .ok out)
  let out ← (if params.writePpm
    then packetMarkers (writePpmMarkers out (tiles.map TilePartData.packetHeaders)) else .ok out)
  let out ← (if params.writeTlm then writeTlmMarkers params out tiles else .ok out)
  let out ← tiles.foldlM (writeTilePart params) out
  .ok (out ++ [0xFF, PacketMarkers.markers.EOC])

/-- `write_codestream_tiles_accounted_with_peak_check`. A vector keeps its capacity until it
outgrows it; the check of the caller may answer its two calls differently. -/
def writeCodestreamTiles (allocator : Allocator) (checkWriterPeak : ℕ → ℕ → Except EncodeError Unit)
    (params : EncodeParams) (tiles : List TilePartData) (stepSizes : List (ℕ × ℕ)) :
    Except EncodeError AccountedCodestream := do
  let outputLen ← codestreamTilesOutputLen params tiles stepSizes
  checkWriterPeak 0 outputLen
  let outputCapacity ← (match allocator.reserve outputLen with
    | none => .error (.hostAllocationFailed "codestream output" outputLen)
    | some capacity => .ok capacity)
  checkWriterPeak 1 outputCapacity
  let out ← writeMarkers params tiles stepSizes
  let capacity := if out.length ≤ outputCapacity then outputCapacity else out.length
  if out.length ≠ outputLen ∨ capacity ≠ outputCapacity then .error lengthMismatch
  else .ok ⟨out, outputCapacity⟩

end J2kNative.CodestreamWriter
