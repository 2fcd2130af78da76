import J2kNative.ClassicSegments
import J2kNative.TagTreeDecoder
import J2kNative.PacketHeaderWriter
import Mathlib.Logic.Function.Basic

/-!
# Parsing packets

The parser goes through the packets of a tile part in the order of the progression. From every
header it learns which blocks of the precinct have segments in the layer, in how many passes and how
long, and behind the header it takes the bytes of the segments. The precincts that a
packet tells of are found by its component, resolution and precinct. Modelled are classic
blocks with their headers inline and all blocks asked for; storage that cannot be had is
left out.
-/
namespace J2kNative.PacketParsing
open BitStuffing TagTrees HtContributions ClassicSegments
open PacketHeaderWriter (align)

/-! ## Reader -/

def atEnd (r : BitStuffing.BitReader) : Bool := r.curPos / 8 ≥ r.data.length

def readBytes (r : BitStuffing.BitReader) (len : ℕ) : Option (List ℕ × BitStuffing.BitReader) :=
  if r.curPos / 8 + len ≤ r.data.length then
    some ((r.data.drop (r.curPos / 8)).take len,{ r with curPos := r.curPos + len * 8 })
  else none

def readByte (r : BitStuffing.BitReader) : Option (ℕ × BitStuffing.BitReader) :=
  r.data[r.curPos / 8]?.map fun byte => (byte,{ r with curPos := r.curPos + 8 })

def readMarker (r : BitStuffing.BitReader) : Option (ℕ × BitStuffing.BitReader) := do
  let (markerPrefix,r) ← readByte r
  if markerPrefix ≠ 0xFF then none else readByte r

def peekMarker (r : BitStuffing.BitReader) : Option ℕ := (readMarker r).map Prod.fst

/-! ## Storage -/

/-- A code block with its layers: the segments of a layer, each with its bytes. -/
structure StoredBlock where
  xIdx : ℕ
  yIdx : ℕ
  hasBeenIncluded : Bool
  block : CodeBlock
  layers : List (Option (List (Segment × List ℕ)))
  deriving DecidableEq, Repr

structure Precinct where
  codeInclusionTree : TagTree
  zeroBitplaneTree : TagTree
  codeBlocks : List StoredBlock
  deriving DecidableEq, Repr

structure ProgressionData where
  layerNum : ℕ
  resolution : ℕ
  component : ℕ
  precinct : ℕ
  deriving DecidableEq, Repr

structure PacketPlace where
  resolution : ℕ
  component : ℕ
  precinct : ℕ
  deriving DecidableEq, Repr

def ProgressionData.place (p : ProgressionData) : PacketPlace :=
  ⟨p.resolution,p.component,p.precinct⟩

/-- The precincts, one of each sub-band, that a packet tells of. -/
abbrev Storage := PacketPlace → List Precinct

structure ComponentInfo where
  mayUseSopMarkers : Bool
  usesEphMarker : Bool
  codeBlockStyle : CodeBlockStyle
  deriving DecidableEq, Repr

/-! ## Headers -/

/-- A loop over a list that threads a state and may change every item. -/
def threadM {ε σ α : Type} (f : α → σ → Except ε (α × σ)) : List α → σ → Except ε (List α × σ)
  | [], s => .ok ([],s)
  | a :: l, s => do
      let (a,s) ← f a s
      let (l,s) ← threadM f l s
      .ok (a :: l,s)

/-- What the blocks of a precinct are read with. -/
structure HeaderState where
  codeInclusionTree : TagTree
  zeroBitplaneTree : TagTree
  reader : BitStuffing.BitReader
  deriving DecidableEq, Repr

/-- Whether the header includes the block. -/
def readInclusion (layerNum : ℕ) (b : StoredBlock) (s : HeaderState) : Option (Bool × HeaderState) :=
  if b.hasBeenIncluded then
    (s.reader.readBitsWithStuffing 1).map fun (bit,reader) => (bit = 1,{ s with reader })
  else
    (s.codeInclusionTree.read b.xIdx b.yIdx 0 (layerNum + 1) s.reader).map
      fun (value,codeInclusionTree,reader) => (value ≤ layerNum,{ s with codeInclusionTree, reader })

def resolveCodeBlockInclusion (layerNum : ℕ) (b : StoredBlock) (s : HeaderState) :
    Option (Bool × StoredBlock × HeaderState) := do
  let (isIncluded,s) ← readInclusion layerNum b s
  if !isIncluded then some (false,b,s)
  else if b.hasBeenIncluded then some (true,b,s)
  else do
    let (value,zeroBitplaneTree,reader) ←
      s.zeroBitplaneTree.read b.xIdx b.yIdx 0 (2 ^ 32 - 1) s.reader
    if value > 255 then none
    else some (true,
      { b with
        hasBeenIncluded := true
        block := { b.block with missingBitPlanes := value } },
      { s with zeroBitplaneTree, reader })

/-- What the header tells of the contribution of an included block. -/
def resolveContribution (style : CodeBlockStyle) (layerNum : ℕ) (b : StoredBlock)
    (r : BitStuffing.BitReader) :
    Except String (StoredBlock × BitStuffing.BitReader) :=
  if b.layers.length ≤ layerNum then .error "classic packet references a missing quality layer"
  else do
    let (addedCodingPasses,r) ← orError (decodeNumCodingPasses r)
      "classic coding-pass count is truncated or invalid"
    let (increment,r) ← orError (readLblockIncrement r) "classic Lblock increment is truncated"
    if b.block.lBlock + increment ≥ 2 ^ 32 then .error "classic Lblock increment overflows"
    else do
      let (block,segments,r) ← parseContributionLengths r addedCodingPasses none
        { b.block with lBlock := b.block.lBlock + increment } style
      if block.nonEmptyLayerCount + 1 > 255 then .error "classic non-empty layer count overflows"
      else .ok ({ b with
        block := { block with
          coding := some .classic
          nonEmptyLayerCount := block.nonEmptyLayerCount + 1 }
        layers := b.layers.set layerNum (some (segments.map fun segment => (segment,[]))) },r)

/-- One turn of the loop of `resolve_segments`. -/
def resolveBlock (style : CodeBlockStyle) (layerNum : ℕ) (b : StoredBlock) (s : HeaderState) :
    Except String (StoredBlock × HeaderState) := do
  let (included,b,s) ← orError (resolveCodeBlockInclusion layerNum b s)
    "classic code-block inclusion or zero-bitplane tree is truncated"
  if !included then .ok (b,s)
  else do
    let (b,reader) ← resolveContribution style layerNum b s.reader
    .ok (b,{ s with reader })

def resolveSegments (style : CodeBlockStyle) (layerNum : ℕ) (precinct : Precinct)
    (r : BitStuffing.BitReader) : Except String (Precinct × BitStuffing.BitReader) := do
  let (codeBlocks,s) ← threadM (resolveBlock style layerNum) precinct.codeBlocks
    ⟨precinct.codeInclusionTree,precinct.zeroBitplaneTree,r⟩
  .ok (⟨s.codeInclusionTree,s.zeroBitplaneTree,codeBlocks⟩,s.reader)

/-! ## Bodies -/

def readSegment (segment : Segment × List ℕ) (r : BitStuffing.BitReader) :
    Except String ((Segment × List ℕ) × BitStuffing.BitReader) := do
  let (data,r) ← orError (readBytes r segment.1.dataLength)
    "packet body is shorter than its segment lengths"
  .ok ((segment.1,data),r)

/-- The segments of the layer, if it has any. -/
def readBlock (layerNum : ℕ) (b : StoredBlock) (r : BitStuffing.BitReader) :
    Except String (StoredBlock × BitStuffing.BitReader) :=
  match b.layers[layerNum]? with
  | some (some segments) => do
      let (segments,r) ← threadM readSegment segments r
      .ok ({ b with layers := b.layers.set layerNum (some segments) },r)
  | _ => .ok (b,r)

def readPrecinct (layerNum : ℕ) (precinct : Precinct) (r : BitStuffing.BitReader) :
    Except String (Precinct × BitStuffing.BitReader) := do
  let (codeBlocks,r) ← threadM (readBlock layerNum) precinct.codeBlocks r
  .ok ({ precinct with codeBlocks },r)

/-! ## Packets -/

/-- The cursor of a tile part, with the packet lengths that are left if there are any, and what has
been stored. -/
structure Parsing where
  reader : BitStuffing.BitReader
  packetLengths : Option (List ℕ)
  storage : Storage

def skipSop (info : ComponentInfo) (r : BitStuffing.BitReader) :
    Except String BitStuffing.BitReader :=
  if info.mayUseSopMarkers ∧ peekMarker r = some 0x91 then do
    let (_,r) ← orError (readMarker r) "SOP marker is truncated"
    let (_,r) ← orError (readBytes r 4) "SOP marker segment is truncated"
    .ok r
  else .ok r

def readEph (info : ComponentInfo) (r : BitStuffing.BitReader) :
    Except String BitStuffing.BitReader :=
  if info.usesEphMarker then do
    let (marker,r) ← orError (readMarker r) "EPH marker is truncated"
    if marker ≠ 0x92 then .error "EPH marker is missing" else .ok r
  else .ok r

/-- The packet lengths behind a packet of this length. -/
def validatePacketLength (packetLengths : Option (List ℕ)) (actual : ℕ) : Option (Option (List ℕ)) :=
  match packetLengths with
  | none => some none
  | some [] => none
  | some (expected :: rest) => if actual = expected then some (some rest) else none

/-- One turn of the loop of `parse_inner`. -/
def parsePacket (componentInfos : List ComponentInfo) (p : ProgressionData) (s : Parsing) :
    Except String Parsing :=
  match componentInfos[p.component]? with
  | none => .error "packet progression references a missing component"
  | some info => do
      let r ← skipSop info s.reader
      let (nonEmpty,r) ← orError (r.readBitsWithStuffing 1)
        "packet empty/non-empty flag is truncated"
      let (precincts,r) ← if nonEmpty = 0 then .ok (s.storage p.place,r)
        else threadM (resolveSegments info.codeBlockStyle p.layerNum) (s.storage p.place) r
      let r ← readEph info (align r)
      let (precincts,r) ← if nonEmpty = 0 then .ok (precincts,r)
        else threadM (readPrecinct p.layerNum) precincts r
      let packetLengths ← orError
        (validatePacketLength s.packetLengths (r.curPos / 8 - s.reader.curPos / 8))
        "packet length marker disagrees with consumed bytes"
      .ok ⟨r,packetLengths,Function.update s.storage p.place precincts⟩

/-- The end of `parse_inner`. -/
def finishPart (progression : List ProgressionData) (s : Parsing) :
    Except String (List ProgressionData × Storage) :=
  if s.packetLengths.getD [] = [] then .ok (progression,s.storage)
  else .error "packet length markers contain unused entries"

/-- `parse_inner`: what is left of the progression, and what is stored then. -/
def parseInner (componentInfos : List ComponentInfo) :
    List ProgressionData → Parsing → Except String (List ProgressionData × Storage)
  | [], s =>
      if atEnd s.reader then finishPart [] s
      else .error "packet header outlives the progression iterator"
  | p :: progression, s =>
      if atEnd s.reader then finishPart (p :: progression) s
      else do
        let s ← parsePacket componentInfos p s
        parseInner componentInfos progression s

/-- A tile part with its packet lengths, if it has markers of them. -/
structure TilePart where
  data : List ℕ
  packetLengths : Option (List ℕ)
  deriving DecidableEq, Repr

/-- `parse`, where the decoder is strict. -/
def parse (componentInfos : List ComponentInfo) (tileParts : List TilePart)
    (progression : List ProgressionData) (storage : Storage) :
    Except String (List ProgressionData × Storage) :=
  tileParts.foldlM (fun s part =>
    parseInner componentInfos s.1 ⟨⟨part.data,0⟩,part.packetLengths,s.2⟩) (progression,storage)

end J2kNative.PacketParsing
