import Mathlib.Logic.Function.Basic
import J2kNative.SegmentPieces

/-!
# Shared tables of abbreviated tiles

A TIFF file may hold the quantization and Huffman tables of its JPEG tiles in one stream.
To make a tile complete, its body is put behind the segments of this stream, from which
identical definitions of one table are dropped after the first. The planned length comes
from one walk over the stream, the bytes from another.
-/
namespace J2kNative.TableNormalization
open JpegSegmentIter BitReader

inductive TableKey where
  | quant (id : ℕ)
  | huffmanDc (id : ℕ)
  | huffmanAc (id : ℕ)
  deriving DecidableEq, Repr

inductive TableError where
  | jpeg (error : JpegError)
  | unsupportedBitDepth (depth : ℕ)
  | conflictingDuplicateTable (offset : ℕ) (table : TableKey)
  | internalInvariant (reason : String)
  | invalidJpegAssembly (offset : ℕ) (reason : String)
  | memoryCapExceeded (requested : ℕ)
  | missingMarker (marker : String)
  | unsupportedSof (marker : ℕ) (reason : String)
  | zeroDimension (width height : ℕ)
  | dimensionOverflow (width height : ℕ)
  | unsupportedComponentCount (count : ℕ)
  | invalidSampling (component h v : ℕ)
  | expectedDimensionsRequired (offset : ℕ)
  | conflictingExpectedDimensions (offset : ℕ) (expected actual : ℕ × ℕ)
  deriving DecidableEq, Repr

def maxTableId : ℕ := 3
def maxHuffmanClass : ℕ := 1
def maxDistinctTables : ℕ := 12

/-! ## Definitions of tables -/

structure TableDefinition where
  key : TableKey
  offset : ℕ
  bytes : List ℕ
  deriving DecidableEq, Repr

/-- The length field holds at most the largest 16-bit value. -/
def invalidTableSegment (offset marker payloadLen : ℕ) : TableError :=
  .jpeg (.invalidSegmentLength offset marker (min (payloadLen+2) (2^16-1)))

/-- A definition in DQT, before `rest`; its position is counted from the end of the payload. -/
def dqtDefinition (payloadOffset payloadLen : ℕ) (rest : List ℕ) :
    Except TableError TableDefinition :=
  let position := payloadLen-rest.length
  let selector := byteAt rest 0
  let precision := selector >>> 4
  let id := selector &&& 0x0F
  if maxTableId < id then .error (invalidTableSegment (payloadOffset+position) 0xDB payloadLen)
  else if 1 < precision then .error (.unsupportedBitDepth precision)
  else
    let definitionLen := 1+64*(precision+1)
    if rest.length < definitionLen then
      .error (.jpeg (.truncated (payloadOffset+(position+definitionLen))
        (position+definitionLen-payloadLen)))
    else .ok ⟨.quant id,payloadOffset+position,rest.take definitionLen⟩

/-- A definition in DHT. -/
def dhtDefinition (payloadOffset payloadLen : ℕ) (rest : List ℕ) :
    Except TableError TableDefinition :=
  let position := payloadLen-rest.length
  if rest.length < 17 then
    .error (.jpeg (.truncated (payloadOffset+(position+17)) (position+17-payloadLen)))
  else
    let selector := byteAt rest 0
    let tableClass := selector >>> 4
    let id := selector &&& 0x0F
    if maxHuffmanClass < tableClass ∨ maxTableId < id then
      .error (invalidTableSegment (payloadOffset+position) 0xC4 payloadLen)
    else
      let valueCount := ((rest.take 17).drop 1).foldl (·+·) 0
      if 256 < valueCount then
        .error (invalidTableSegment (payloadOffset+position+1) 0xC4 payloadLen)
      else if rest.length < 17+valueCount then
        .error (.jpeg (.truncated (payloadOffset+(position+17+valueCount))
          (position+17+valueCount-payloadLen)))
      else .ok ⟨if tableClass = 0 then .huffmanDc id else .huffmanAc id,payloadOffset+position,
        rest.take (17+valueCount)⟩

/-- Visits the definitions that one reading function finds; each has a byte or more. -/
def definitionLoop {σ : Type} (definition : List ℕ → Except TableError TableDefinition)
    (visit : σ → TableDefinition → Except TableError σ) :
    ℕ → List ℕ → σ → Except TableError σ
  | 0, _, s => .ok s
  | fuel+1, rest, s =>
    if rest = [] then .ok s
    else do
      let found ← definition rest
      let s ← visit s found
      definitionLoop definition visit fuel (rest.drop found.bytes.length) s

def definitionAt (marker payloadOffset payloadLen : ℕ) (rest : List ℕ) :
    Except TableError TableDefinition :=
  if marker = 0xDB then dqtDefinition payloadOffset payloadLen rest
  else if marker = 0xC4 then dhtDefinition payloadOffset payloadLen rest
  else .error (.internalInvariant "non-table marker reached JPEG table definition parser")

def forEachTableDefinition {σ : Type} (marker : ℕ) (payload : List ℕ) (payloadOffset : ℕ)
    (visit : σ → TableDefinition → Except TableError σ) (s : σ) : Except TableError σ :=
  if payload = [] then .error (invalidTableSegment payloadOffset marker payload.length)
  else definitionLoop (definitionAt marker payloadOffset payload.length) visit payload.length
    payload s

/-! ## Normalized segments -/

inductive DuplicateTablePolicy where
  | allowIdentical
  | rejectConflicting
  deriving DecidableEq, Repr

inductive NormalizedSegment where
  | borrowed (bytes : List ℕ)
  | filteredTable (marker : ℕ) (definitions : List (List ℕ)) (payloadLen : ℕ)
  deriving DecidableEq, Repr

namespace NormalizedSegment

def byteLen : NormalizedSegment → ℕ
  | borrowed bytes => bytes.length
  | filteredTable _ _ payloadLen => payloadLen+4

def appendTo (output : List ℕ) : NormalizedSegment → Except TableError (List ℕ)
  | borrowed bytes => .ok (output++bytes)
  | filteredTable marker definitions payloadLen =>
    if payloadLen+2 < 2^16 then
      .ok (output++([0xFF,marker,(payloadLen+2)/2^8,(payloadLen+2)%2^8]++definitions.flatten))
    else .error (.internalInvariant
      "normalized JPEG table segment exceeded the marker length ABI")

end NormalizedSegment

/-- The bytes of the first definition of each table. -/
abbrev Slots := TableKey → Option (List ℕ)

/-- What is kept of one table segment. -/
structure Filter where
  slots : Slots
  definitions : List (List ℕ)
  payloadLen : ℕ
  filteredDuplicate : Bool

namespace Filter

def keep (policy : DuplicateTablePolicy) (f : Filter) (bytes : List ℕ) : Except TableError Filter :=
  if policy = .allowIdentical then
    if f.definitions.length < maxDistinctTables then
      .ok { f with definitions := f.definitions++[bytes], payloadLen := f.payloadLen+bytes.length }
    else .error (.internalInvariant
      "normalized JPEG marker exceeded distinct DQT/DHT table capacity")
  else .ok f

def observe (policy : DuplicateTablePolicy) (f : Filter) (definition : TableDefinition) :
    Except TableError Filter :=
  match f.slots definition.key with
  | some existing =>
    if existing ≠ definition.bytes then
      .error (.conflictingDuplicateTable definition.offset definition.key)
    else if policy = .allowIdentical then .ok { f with filteredDuplicate := true }
    else .ok f
  | none => keep policy
    { f with slots := Function.update f.slots definition.key (some definition.bytes) }
    definition.bytes

end Filter

def normalizeTableSegment (policy : DuplicateTablePolicy) (slots : Slots) (segment : JpegSegment)
    (segmentBytes : List ℕ) : Except TableError (Slots × Option NormalizedSegment) := do
  let f ← forEachTableDefinition segment.marker segment.payload segment.payloadOffset
    (Filter.observe policy) ⟨slots,[],0,false⟩
  if policy = .rejectConflicting ∨ f.filteredDuplicate = false then
    .ok (f.slots,some (.borrowed segmentBytes))
  else if f.definitions = [] then .ok (f.slots,none)
  else .ok (f.slots,some (.filteredTable segment.marker f.definitions f.payloadLen))

/-- DRI and DAC are dropped: what they say is for each tile. -/
def normalizeSegment (policy : DuplicateTablePolicy) (input : List ℕ) (slots : Slots)
    (segment : JpegSegment) : Except TableError (Slots × Option NormalizedSegment) :=
  if segment.marker = 0xD8 ∨ segment.marker = 0xD9 then .ok (slots,none)
  else if segment.marker = 0xDB ∨ segment.marker = 0xC4 then
    normalizeTableSegment policy slots segment (segmentBytes input segment)
  else if segment.marker = 0xCC ∨ segment.marker = 0xDD then .ok (slots,none)
  else .ok (slots,some (.borrowed (segmentBytes input segment)))

def visitSome {σ : Type} (visit : σ → NormalizedSegment → Except TableError σ) (s : σ) :
    Option NormalizedSegment → Except TableError σ
  | none => .ok s
  | some segment => visit s segment

/-- A missing EOI is accepted behind segments that are wholly there. -/
def acceptedEnd (input : List ℕ) (sawSoi : Bool) (parsedThrough : ℕ) (error : JpegError) : Prop :=
  error = .truncated input.length 2 ∧ sawSoi = true ∧ parsedThrough = input.length

instance (input : List ℕ) (sawSoi : Bool) (parsedThrough : ℕ) (error : JpegError) :
    Decidable (acceptedEnd input sawSoi parsedThrough error) := inferInstanceAs (Decidable (_ ∧ _))

/-- Each turn goes on by two bytes or more, so the length of the input is fuel enough. -/
def normalizedLoop {σ : Type} (policy : DuplicateTablePolicy)
    (visit : σ → NormalizedSegment → Except TableError σ) :
    ℕ → JpegSegmentIter → Slots → Bool → ℕ → σ → Except TableError σ
  | 0, _, _, _, _, _ => .error (.internalInvariant "segments are longer than their input")
  | fuel+1, it, slots, sawSoi, parsedThrough, s => match it.next with
    | (none,_) => .ok s
    | (some (.error error),_) =>
      if acceptedEnd it.input sawSoi parsedThrough error then .ok s else .error (.jpeg error)
    | (some (.ok segment),after) => do
      let (slots,normalized) ← normalizeSegment policy it.input slots segment
      let s ← visitSome visit s normalized
      normalizedLoop policy visit fuel after slots (sawSoi || segment.marker = 0xD8)
        (segmentEnd segment) s

def forEachNormalizedSegment {σ : Type} (input : List ℕ) (policy : DuplicateTablePolicy)
    (visit : σ → NormalizedSegment → Except TableError σ) (s : σ) : Except TableError σ :=
  normalizedLoop policy visit (input.length+2) (iterSegments input) (fun _ => none) false 0 s

/-! ## The assembled stream -/

def defaultMaxHostAllocationBytes : ℕ := 512*1024*1024

def checkedAddAllocationBytes (total additional : ℕ) : Except TableError ℕ :=
  if defaultMaxHostAllocationBytes < total+additional then
    .error (.memoryCapExceeded (total+additional))
  else .ok (total+additional)

def checkedAbbreviatedOutputLen (normalizedTableBytes tileBodyLen : ℕ) : Except TableError ℕ := do
  let outputLen ← checkedAddAllocationBytes 2 normalizedTableBytes
  let outputLen ← checkedAddAllocationBytes outputLen tileBodyLen
  checkedAddAllocationBytes outputLen 2

def abbreviatedOutputLen (tables : List ℕ) (tileBodyLen : ℕ) (policy : DuplicateTablePolicy) :
    Except TableError ℕ := do
  let tableBytes ← forEachNormalizedSegment tables policy
    (fun tableBytes segment => checkedAddAllocationBytes tableBytes segment.byteLen) 0
  checkedAbbreviatedOutputLen tableBytes tileBodyLen

/-- The tile without SOI and EOI, where it has them. -/
def normalizedAbbreviatedTileBody (tile : List ℕ) : Except TableError (List ℕ) :=
  let start := if tile.take 2 = [0xFF,0xD8] then 2 else 0
  let tileEnd := if start+2 ≤ tile.length ∧ tile.drop (tile.length-2) = [0xFF,0xD9] then
    tile.length-2 else tile.length
  if tileEnd ≤ start then .error (.invalidJpegAssembly 0 "abbreviated JPEG tile is empty")
  else .ok ((tile.take tileEnd).drop start)

/-- The stream of `assemble_abbreviated_tile` before it is checked as a whole. -/
def assembledStream (policy : DuplicateTablePolicy) (tables tile : List ℕ) :
    Except TableError (List ℕ) := do
  let tileBody ← normalizedAbbreviatedTileBody tile
  let outputLen ← abbreviatedOutputLen tables tileBody.length policy
  let out ← forEachNormalizedSegment tables policy NormalizedSegment.appendTo [0xFF,0xD8]
  let out := out++tileBody++[0xFF,0xD9]
  if out.length = outputLen then .ok out
  else .error (.internalInvariant
    "normalized TIFF JPEG output length diverged from its preflight plan")

end J2kNative.TableNormalization
