import J2kNative.PacketHeaderForm
import J2kNative.PacketBody
import J2kNative.PacketPlan
import J2kNative.StreamCuts

/-!
# Packets of a tile

The writer of packets keeps a state for every component, resolution and precinct, which it makes
from all contributions before it forms the first header. A packet is its markers, its header and
its body; the lengths of all packets are planned first and checked while the tile is put
together. What of the headers the allocator gives room for is left to a function.
-/
namespace J2kNative.PacketAssembly
open PacketHeaders TagTrees Fallible CountedLoops
open PacketPlan (PacketDescriptor)

/-- A code block as the writer of packets views it. -/
structure CodeBlockView where
  data : List ℕ
  htCleanupLength : ℕ
  htRefinementLength : ℕ
  numCodingPasses : ℕ
  classicSegmentLengths : List ℕ
  numZeroBitplanes : ℕ
  previouslyIncluded : Bool
  lBlock : ℕ
  blockCodingMode : BlockCodingMode
  deriving DecidableEq, Repr

structure SubbandView where
  codeBlocks : List CodeBlockView
  numCbsX : ℕ
  numCbsY : ℕ
  deriving DecidableEq, Repr

/-- The sub-bands of a resolution. -/
abbrev ResolutionView := List SubbandView

/-- What the header is formed from. -/
def CodeBlockView.packetData (b : CodeBlockView) : CodeBlockPacketData :=
  ⟨b.data.length,b.htCleanupLength,b.htRefinementLength,b.numCodingPasses,b.classicSegmentLengths,
    b.numZeroBitplanes,b.blockCodingMode⟩

def SubbandView.packetData (subband : SubbandView) : SubbandPrecinct :=
  ⟨subband.codeBlocks.map (·.packetData),subband.numCbsX,subband.numCbsY⟩

/-! ## States -/

structure BlockSeed where
  state : PacketCodeBlockState
  firstInclusionLayer : ℕ
  zeroBitplaneValue : ℕ
  deriving DecidableEq, Repr

structure SubbandSeed where
  numCbsX : ℕ
  numCbsY : ℕ
  codeBlocks : List BlockSeed
  deriving DecidableEq, Repr

def validatePacketSubbandLayout (subband : SubbandView) : Except EncodeError Unit :=
  if subband.codeBlocks.length ≥ 2 ^ 32 then
    .error (.invalidInput "packet subband code-block count exceeds u32")
  else if subband.numCbsX = 0 ∧ subband.numCbsY = 0 ∧ subband.codeBlocks.length = 0 then .ok ()
  else if subband.numCbsX * subband.numCbsY ≥ 2 ^ 32 then
    .error (.arithmeticOverflow "packet subband code-block grid")
  else if subband.numCbsX = 0 ∨ subband.numCbsY = 0 ∨
      subband.numCbsX * subband.numCbsY ≠ subband.codeBlocks.length then
    .error (.invalidInput "invalid packet subband code-block layout")
  else .ok ()

/-- No layer includes the block yet. -/
def blockSeed (b : CodeBlockView) : BlockSeed :=
  ⟨⟨b.previouslyIncluded,b.lBlock⟩,(2 ^ 32 - 1) / 2,0⟩

def subbandSeed (subband : SubbandView) : Except EncodeError SubbandSeed := do
  validatePacketSubbandLayout subband
  .ok ⟨subband.numCbsX,subband.numCbsY,subband.codeBlocks.map blockSeed⟩

def packetStateSeed (packet : ResolutionView) : Except EncodeError (List SubbandSeed) :=
  packet.mapM subbandSeed

def validatePacketStateLayout (seed : List SubbandSeed) (packet : ResolutionView) :
    Except EncodeError Unit :=
  refuse (seed.length ≠ packet.length ∨ (seed.zip packet).any fun subband =>
      subband.1.numCbsX ≠ subband.2.numCbsX ∨ subband.1.numCbsY ≠ subband.2.numCbsY ∨
        subband.1.codeBlocks.length ≠ subband.2.codeBlocks.length)
    (.invalidInput "packet descriptor state layout mismatch")

/-- The first layer that includes the block, and its zero bit planes there. -/
def noteInclusion (layer : ℕ) (seed : BlockSeed) (b : CodeBlockView) : BlockSeed :=
  if b.numCodingPasses = 0 then seed
  else if layer < seed.firstInclusionLayer then
    { seed with
      firstInclusionLayer := layer
      zeroBitplaneValue := b.numZeroBitplanes }
  else seed

def noteSubband (layer : ℕ) (seed : SubbandSeed) (subband : SubbandView) : SubbandSeed :=
  { seed with codeBlocks := List.zipWith (noteInclusion layer) seed.codeBlocks subband.codeBlocks }

def packetStateCount (descriptors : List PacketDescriptor) : Except EncodeError ℕ :=
  descriptors.foldlM (fun count d =>
    if d.stateIndex ≥ descriptors.length then
      .error (.invalidInput "packet descriptor state index out of range")
    else .ok (max count (d.stateIndex + 1))) 0

abbrev SeedTable := Buffer (Option (List SubbandSeed))

/-- The seed that a state has, if the packet has its layout, or a new one. -/
def seedFor (seed : Option (List SubbandSeed)) (packet : ResolutionView) :
    Except EncodeError (List SubbandSeed) :=
  match seed with
  | some existing => do
      validatePacketStateLayout existing packet
      .ok existing
  | none => packetStateSeed packet

/-- One turn of the loop of `build_packet_state_seeds`. -/
def seedDescriptor (packets : List ResolutionView) (seeds : SeedTable) (d : PacketDescriptor) :
    Except EncodeError SeedTable :=
  match packets[d.packetIndex]? with
  | none => .error (.invalidInput "packet descriptor packet index out of range")
  | some packet => do
      let seed ← seedFor (seeds d.stateIndex) packet
      .ok (seeds.set d.stateIndex (some (List.zipWith (noteSubband d.layer) seed packet)))

/-- The leaves of one block in both trees. -/
def setLeaves (numCbsX : ℕ) (trees : TagTreeEncoder × TagTreeEncoder) (b : BlockSeed × ℕ) :
    Except EncodeError (TagTreeEncoder × TagTreeEncoder) := do
  let inclusionTree ← trees.1.setValue (b.2 % numCbsX) (b.2 / numCbsX) b.1.firstInclusionLayer
  let zeroBitplaneTree ← trees.2.setValue (b.2 % numCbsX) (b.2 / numCbsX) b.1.zeroBitplaneValue
  .ok (inclusionTree,zeroBitplaneTree)

def materializeSubband (seed : SubbandSeed) : Except EncodeError PacketSubbandState := do
  let inclusionTree ← tryNew seed.numCbsX seed.numCbsY
  let zeroBitplaneTree ← tryNew seed.numCbsX seed.numCbsY
  let trees ← seed.codeBlocks.zipIdx.foldlM (setLeaves seed.numCbsX) (inclusionTree,zeroBitplaneTree)
  .ok ⟨trees.1,trees.2,seed.codeBlocks.map (·.state),seed.numCbsX,seed.numCbsY⟩

def materializePacketState (seed : Option (List SubbandSeed)) :
    Except EncodeError (List PacketSubbandState) :=
  match seed with
  | none => .ok []
  | some subbands => subbands.mapM materializeSubband

def buildPacketStates (packets : List ResolutionView) (descriptors : List PacketDescriptor) :
    Except EncodeError (List (List PacketSubbandState)) := do
  let stateCount ← packetStateCount descriptors
  let seeds ← descriptors.foldlM (seedDescriptor packets) fun _ => none
  (List.range stateCount).mapM fun stateIndex => materializePacketState (seeds stateIndex)

/-! ## Plan -/

structure PacketMarkerOptions where
  writeSop : Bool
  writeEph : Bool
  separatePacketHeaders : Bool
  deriving DecidableEq, Repr

def sopBytes : ℕ := 6

structure PacketAssemblyPlan where
  states : List (List PacketSubbandState)
  headers : List (List ℕ)
  packetLengths : List ℕ
  tileLen : ℕ

/-- The length that is told of a packet. -/
def signalledPacketLen (options : PacketMarkerOptions) (tilePacketLen headerLen : ℕ) :
    Except EncodeError ℕ :=
  if options.separatePacketHeaders then .ok tilePacketLen
  else checkedAddBytes tilePacketLen headerLen "inline packet length"

/-- One turn of the loop of `plan_packet_assembly`; `reserve` tells the capacity that a request
for so many bytes gives. -/
def planPacket (reserve : ℕ → ℕ) (packets : List ResolutionView) (options : PacketMarkerOptions)
    (plan : PacketAssemblyPlan) (d : PacketDescriptor) : Except EncodeError PacketAssemblyPlan :=
  match packets[d.packetIndex]?, plan.states[d.stateIndex]? with
  | none, _ => .error (.invalidInput "packet descriptor packet index out of range")
  | some _, none => .error (.invalidInput "packet descriptor state index out of range")
  | some packet, some state => do
      let header ← formHeaderFields (packet.map (·.packetData)) state d.layer options.writeEph
      let bytes ← writeHeader (reserve header.plannedBytes) options.writeEph header
      let tilePacketLen ← checkedAddBytes (options.writeSop.toNat * sopBytes) header.bodyLen
        "packet tile-data length"
      let signalled ← signalledPacketLen options tilePacketLen bytes.length
      refuse (signalled ≥ 2 ^ 32) (.invalidInput "packet length exceeds u32")
      let tileLen ← checkedAddBytes plan.tileLen
        (if options.separatePacketHeaders then tilePacketLen else signalled)
        "packetized tile-data length"
      .ok ⟨plan.states.set d.stateIndex header.state,plan.headers ++ [bytes],
        plan.packetLengths ++ [signalled],tileLen⟩

def planPacketAssembly (reserve : ℕ → ℕ) (packets : List ResolutionView)
    (descriptors : List PacketDescriptor) (states : List (List PacketSubbandState))
    (options : PacketMarkerOptions) : Except EncodeError PacketAssemblyPlan :=
  descriptors.foldlM (planPacket reserve packets options) ⟨states,[],[],0⟩

/-! ## Assembly -/

namespace markers
abbrev SOP : ℕ := 0x91
abbrev EPH : ℕ := 0x92
end markers

/-- `append_sop`. -/
def sop (packetSequence : ℕ) : List ℕ :=
  let sequence := packetSequence % (65535 + 1)
  [0xFF,markers.SOP,0x00,0x04,sequence / 2 ^ 8,sequence % 2 ^ 8]

/-- The data of the blocks that contribute. -/
def packetBody (packet : ResolutionView) : List ℕ :=
  PacketBody.appendPacketBody [] (packet.map fun subband => subband.codeBlocks.map fun b =>
    ⟨b.numCodingPasses,b.data⟩)

def packetBytes (options : PacketMarkerOptions) (packetSequence : ℕ) (header : List ℕ)
    (packet : ResolutionView) : List ℕ :=
  (if options.writeSop then sop packetSequence else []) ++
    (if options.separatePacketHeaders then [] else header) ++ packetBody packet

/-- One turn of the loop of `assemble_tile_data`. -/
def assemblePacket (packets : List ResolutionView) (plan : PacketAssemblyPlan)
    (options : PacketMarkerOptions) (data : List ℕ) (d : PacketDescriptor × ℕ) :
    Except EncodeError (List ℕ) :=
  match plan.headers[d.2]?, packets[d.1.packetIndex]? with
  | none, _ => .error (.internalInvariant "packet header index exceeded planned header store")
  | some _, none => .error (.invalidInput "packet descriptor packet index out of range")
  | some header, some packet => do
      let bytes := packetBytes options d.2 header packet
      refuse (plan.packetLengths[d.2]? ≠ some bytes.length)
        (.internalInvariant "assembled packet length differs from checked plan")
      .ok (data ++ bytes)

def assembleTileData (packets : List ResolutionView) (descriptors : List PacketDescriptor)
    (plan : PacketAssemblyPlan) (options : PacketMarkerOptions) : Except EncodeError (List ℕ) := do
  let data ← descriptors.zipIdx.foldlM (assemblePacket packets plan options) []
  refuse (data.length ≠ plan.tileLen)
    (.internalInvariant "assembled tile length differs from checked plan")
  .ok data

structure PacketizedTileData where
  data : List ℕ
  packetLengths : List ℕ
  packetHeaders : List (List ℕ)
  deriving DecidableEq, Repr

/-- `form_tracked`, without the accounts of its memory. -/
def formTracked (reserve : ℕ → ℕ) (packets : List ResolutionView)
    (descriptors : List PacketDescriptor) (options : PacketMarkerOptions) :
    Except EncodeError PacketizedTileData := do
  let states ← buildPacketStates packets descriptors
  let plan ← planPacketAssembly reserve packets descriptors states options
  let data ← assembleTileData packets descriptors plan options
  .ok ⟨data,plan.packetLengths,if options.separatePacketHeaders then plan.headers else []⟩

/-! ## Tile parts -/

/-- What a tile part holds of the packets. -/
structure TilePartData where
  data : List ℕ
  packetLengths : List ℕ
  deriving DecidableEq, Repr

/-- The loop of `borrowed_tile_part_ranges` over the chunks of packet lengths. -/
def partsFrom (data : List ℕ) : ℕ → List (List ℕ) → List TilePartData
  | _, [] => []
  | dataOffset, packetChunk :: chunks =>
      ⟨(data.drop dataOffset).take packetChunk.sum,packetChunk⟩ ::
        partsFrom data (dataOffset + packetChunk.sum) chunks

/-- `borrowed_tile_part_ranges` of packets with their headers inline, and the parts it cuts. -/
def borrowedTileParts (tile : PacketizedTileData) (packetLimit : Option ℕ) :
    Except String (List TilePartData) :=
  match packetLimit with
  | none => .ok [⟨tile.data,tile.packetLengths⟩]
  | some packetLimit =>
      if packetLimit = 0 then .error "tile-part packet limit must be non-zero"
      else if tile.packetLengths = [] then .ok [⟨tile.data,[]⟩]
      else if tile.packetLengths.sum ≠ tile.data.length then
        .error "packet lengths do not match tile data length"
      else if (tile.packetLengths.length + packetLimit - 1) / packetLimit > 255 then
        .error "tile-part packet limit would emit more than 255 tile-parts"
      else .ok (partsFrom tile.data 0 (StreamCuts.chunks packetLimit tile.packetLengths))

end J2kNative.PacketAssembly
