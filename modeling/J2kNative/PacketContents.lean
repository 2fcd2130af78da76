import J2kNative.CellGrids
import J2kNative.DwtRoundTrip
import J2kNative.ProgressionAgreement

/-!
# Code blocks of packets

The encoder cuts every sub-band of the wavelet transform into code blocks, makes one
packet per resolution of them, and hands the blocks of a packet out to its precincts by
dividing their positions by the precinct's span. The decoder builds sub-bands, precincts
and code blocks of its own from the rectangles of the tile.

A code block stands for its place in the sub-band. Samples, bit planes and pre-encoded
blocks travel with it and are left out, as are tag-tree nodes, layers and the accounting
of memory.
-/
namespace J2kNative.PacketContents
open Fallible CellGrids TileGeometry TileTree PacketProgression PacketPlan
open ForwardDwt CountedLoops

/-! ## Sub-bands of the encoder -/

structure PreparedEncodeSubband where
  codeBlocks : List IntRect
  numCbsX : ℕ
  numCbsY : ℕ
  codeBlockWidth : ℕ
  codeBlockHeight : ℕ
  width : ℕ
  height : ℕ
  subBandType : SubBandType
  deriving DecidableEq, Repr, Inhabited

/-- A prepared packet with its sub-bands. -/
structure PreparedPacket extends PreparedResolutionPacket where
  subbands : List PreparedEncodeSubband
  deriving DecidableEq, Repr, Inhabited

/-- `checked_mul` and `checked_add` of `u32`. -/
def checkedU32 (value : ℕ) (what : String) : Except String ℕ :=
  if value ≤ u32Max then .ok value else .error what

/-- The code block in column `cbx` and row `cby` of a band. -/
def codeBlockAt (width height cbWidth cbHeight cbx cby : ℕ) : IntRect :=
  let x0 := cbx * cbWidth
  let y0 := cby * cbHeight
  ⟨x0, y0, min (x0 + cbWidth) width, min (y0 + cbHeight) height⟩

/-- `prepare_subband`. -/
def prepareSubband (width height cbWidth cbHeight : ℕ) (subBandType : SubBandType) :
    Except String PreparedEncodeSubband :=
  if width = 0 ∨ height = 0 then .ok ⟨[], 0, 0, cbWidth, cbHeight, width, height, subBandType⟩
  else do
    let numCbsX := divCeil width cbWidth
    let numCbsY := divCeil height cbHeight
    let _codeBlockCount ← checkedU32 (numCbsX * numCbsY) "prepared code-block count"
    let codeBlocks := (List.range numCbsY).flatMap fun cby => (List.range numCbsX).map fun cbx =>
      codeBlockAt width height cbWidth cbHeight cbx cby
    .ok ⟨codeBlocks, numCbsX, numCbsY, cbWidth, cbHeight, width, height, subBandType⟩

/-- A packed band of the transform as a sub-band of the request. -/
def prepareDwtBand (r : EncodeRequest) (band : PackedSubbandRect) (subBandType : SubBandType) :
    Except String PreparedEncodeSubband :=
  prepareSubband band.width band.height (1 <<< (r.codeBlockWidthExp + 2))
    (1 <<< (r.codeBlockHeightExp + 2)) subBandType

/-- The transform's geometry of a component's plane. -/
def dwtGeometry (r : EncodeRequest) (plane : Buffer ℤ) (component : ℕ) : PackedDwtGeometry :=
  let sampling := r.componentSampling.getD component (1, 1)
  let width := divCeil r.width sampling.1
  let height := divCeil r.height sampling.2
  ⟨width, height, (tryForwardDwtPackedI64 plane width height r.numDecompositionLevels).2⟩

/-- `prepare_detail_packets`, one level. -/
def prepareDetailPacket (r : EncodeRequest) (component : ℕ) (geometry : PackedDwtGeometry)
    (levelIdx : ℕ) : Except String PreparedPacket := do
  let level := geometry.level levelIdx
  let hl ← prepareDwtBand r level.hl .highLow
  let lh ← prepareDwtBand r level.lh .lowHigh
  let hh ← prepareDwtBand r level.hh .highHigh
  .ok ⟨⟨component, levelIdx + 1, 0⟩, [hl, lh, hh]⟩

/-- `prepare_one_component`. -/
def prepareOneComponent (r : EncodeRequest) (plane : Buffer ℤ) (component : ℕ) :
    Except String (List PreparedPacket) :=
  let geometry := dwtGeometry r plane component
  if geometry.shape.numLevels ≠ r.numDecompositionLevels then
    .error "DWT source level count does not match encode plan"
  else do
    let ll ← prepareDwtBand r geometry.ll .lowLow
    let details ← (List.range geometry.shape.numLevels).mapM
      (prepareDetailPacket r component geometry)
    .ok (⟨⟨component, 0, 0⟩, [ll]⟩ :: details)

/-! ## Distribution over precincts -/

structure SubbandPrecinctGrid where
  columns : ℕ
  rows : ℕ
  horizontalSpan : ℕ
  verticalSpan : ℕ
  deriving DecidableEq, Repr

/-- The exponent of a resolution's precincts in its sub-bands. -/
def subbandExponent (resolution exponent : ℕ) : Except String ℕ :=
  if resolution > 0 then
    if exponent = 0 then .error "nonzero resolution precinct exponent underflow"
    else .ok (exponent - 1)
  else .ok exponent

/-- `subband_precinct_grid`. -/
def subbandPrecinctGrid (shape : PreparedEncodeSubband) (resolution horizontalExponent
    verticalExponent : ℕ) (resolutionGrid : ResolutionPrecinctGrid) :
    Except String SubbandPrecinctGrid := do
  let subbandHorizontalExponent ← subbandExponent resolution horizontalExponent
  let subbandVerticalExponent ← subbandExponent resolution verticalExponent
  let horizontalSpan ← pow2U32 subbandHorizontalExponent
  let verticalSpan ← pow2U32 subbandVerticalExponent
  if shape.codeBlockWidth ≠ 0 ∧ shape.codeBlockHeight ≠ 0 ∧
      (horizontalSpan < shape.codeBlockWidth ∨ verticalSpan < shape.codeBlockHeight) then
    .error "precinct dimensions must not reduce encoder code-block dimensions"
  else .ok ⟨resolutionGrid.columns, resolutionGrid.rows, horizontalSpan, verticalSpan⟩

structure PrecinctSubbandGeometry where
  blockColumns : ℕ
  blockRows : ℕ
  horizontalSpan : ℕ
  verticalSpan : ℕ
  deriving DecidableEq, Repr, Inhabited

def emptyPrecinctGeometry : PrecinctSubbandGeometry := ⟨0, 0, 0, 0⟩

def checkedSub (a b : ℕ) (what : String) : Except String ℕ :=
  if b ≤ a then .ok (a - b) else .error what

/-- `precinct_subband_geometry`. -/
def precinctSubbandGeometry (shape : PreparedEncodeSubband) (grid : SubbandPrecinctGrid)
    (precinctColumn precinctRow : ℕ) : Except String PrecinctSubbandGeometry :=
  if shape.width = 0 ∨ shape.height = 0 ∨ shape.codeBlockWidth = 0 ∨ shape.codeBlockHeight = 0 then
    .ok emptyPrecinctGeometry
  else do
    let horizontalPrecinctOrigin ←
      checkedU32 (precinctColumn * grid.horizontalSpan) "precinct x coordinate overflow"
    let verticalPrecinctOrigin ←
      checkedU32 (precinctRow * grid.verticalSpan) "precinct y coordinate overflow"
    let horizontalStart := min horizontalPrecinctOrigin shape.width
    let verticalStart := min verticalPrecinctOrigin shape.height
    let horizontalLimit ←
      checkedU32 (horizontalPrecinctOrigin + grid.horizontalSpan) "precinct x extent overflow"
    let horizontalEnd := min horizontalLimit shape.width
    let verticalLimit ←
      checkedU32 (verticalPrecinctOrigin + grid.verticalSpan) "precinct y extent overflow"
    let verticalEnd := min verticalLimit shape.height
    if horizontalStart ≥ horizontalEnd ∨ verticalStart ≥ verticalEnd then
      .ok emptyPrecinctGeometry
    else do
      let horizontalBlockStart ← checkedU32
        (horizontalStart / shape.codeBlockWidth * shape.codeBlockWidth)
        "precinct code-block x start overflow"
      let verticalBlockStart ← checkedU32
        (verticalStart / shape.codeBlockHeight * shape.codeBlockHeight)
        "precinct code-block y start overflow"
      let horizontalBlockEnd ← checkedU32
        (divCeil horizontalEnd shape.codeBlockWidth * shape.codeBlockWidth)
        "precinct code-block x end overflow"
      let verticalBlockEnd ← checkedU32
        (divCeil verticalEnd shape.codeBlockHeight * shape.codeBlockHeight)
        "precinct code-block y end overflow"
      let horizontalRange ← checkedSub horizontalBlockEnd horizontalBlockStart
        "precinct code-block x range underflow"
      let verticalRange ← checkedSub verticalBlockEnd verticalBlockStart
        "precinct code-block y range underflow"
      .ok ⟨horizontalRange / shape.codeBlockWidth, verticalRange / shape.codeBlockHeight,
        horizontalEnd - horizontalStart, verticalEnd - verticalStart⟩

/-- `precinct_index_for_block`. -/
def precinctIndexForBlock (blockIndex : ℕ) (shape : PreparedEncodeSubband)
    (grid : SubbandPrecinctGrid) : Except String ℕ :=
  if shape.numCbsX = 0 then .error "precinct code-block grid width is zero"
  else do
    let blockIndex ← checkedU32 blockIndex "code-block index exceeds u32"
    let blockColumn := blockIndex % shape.numCbsX
    let blockRow := blockIndex / shape.numCbsX
    if blockRow ≥ shape.numCbsY then .error "precinct code-block index out of range"
    else do
      let blockX ← checkedU32 (blockColumn * shape.codeBlockWidth)
        "code-block x coordinate overflow"
      let precinctColumn := blockX / grid.horizontalSpan
      let blockY ← checkedU32 (blockRow * shape.codeBlockHeight) "code-block y coordinate overflow"
      let precinctRow := blockY / grid.verticalSpan
      if precinctColumn ≥ grid.columns ∨ precinctRow ≥ grid.rows then
        .error "precinct code-block destination out of range"
      else .ok (precinctRow * grid.columns + precinctColumn)

/-- The precinct's share of a sub-band before its blocks arrive. -/
def splitSubband (shape : PreparedEncodeSubband) (geometry : PrecinctSubbandGeometry) :
    PreparedEncodeSubband :=
  { shape with
    codeBlocks := []
    numCbsX := geometry.blockColumns
    numCbsY := geometry.blockRows
    width := geometry.horizontalSpan
    height := geometry.verticalSpan }

/-- `append_split_subbands`. -/
def appendSplitSubbands (packets : List PreparedPacket) (shape : PreparedEncodeSubband)
    (subbandGrid : SubbandPrecinctGrid) (resolutionGrid : ResolutionPrecinctGrid) :
    Except String (List PreparedPacket × ℕ) := do
  let split ← packets.zipIdx.mapM fun (packet, packetIndex) => do
    let packetIndex ← checkedU32 packetIndex "precinct packet index exceeds u32"
    let precinctColumn := packetIndex % resolutionGrid.columns
    let precinctRow := packetIndex / resolutionGrid.columns
    let geometry ← precinctSubbandGeometry shape subbandGrid precinctColumn precinctRow
    .ok ({ packet with subbands := packet.subbands ++ [splitSubband shape geometry] },
      geometry.blockColumns * geometry.blockRows)
  .ok (split.map Prod.fst, (split.map Prod.snd).sum)

/-- A code block handed to a packet's sub-band. -/
def PreparedPacket.push (packet : PreparedPacket) (subbandIndex : ℕ) (block : IntRect) :
    PreparedPacket :=
  { packet with subbands := packet.subbands.modify subbandIndex fun subband =>
      { subband with codeBlocks := subband.codeBlocks ++ [block] } }

/-- One turn of `move_code_blocks_to_precincts`. -/
def moveCodeBlock (shape : PreparedEncodeSubband) (subbandGrid : SubbandPrecinctGrid)
    (subbandIndex : ℕ) (packets : List PreparedPacket) (block : IntRect × ℕ) :
    Except String (List PreparedPacket) := do
  let packetIndex ← precinctIndexForBlock block.2 shape subbandGrid
  match packets[packetIndex]? with
  | some packet =>
    if packet.subbands.length ≤ subbandIndex then .error "precinct code-block destination missing"
    else .ok (packets.set packetIndex (packet.push subbandIndex block.1))
  | none => .error "precinct code-block destination missing"

/-- `move_code_blocks_to_precincts`. -/
def moveCodeBlocksToPrecincts (codeBlocks : List IntRect) (shape : PreparedEncodeSubband)
    (subbandGrid : SubbandPrecinctGrid) (subbandIndex : ℕ) (packets : List PreparedPacket) :
    Except String (List PreparedPacket) :=
  codeBlocks.zipIdx.foldlM (moveCodeBlock shape subbandGrid subbandIndex) packets

/-- `distribute_owned_subband`. -/
def distributeOwnedSubband (resolution horizontalExponent verticalExponent : ℕ)
    (resolutionGrid : ResolutionPrecinctGrid) (packets : List PreparedPacket)
    (subband : PreparedEncodeSubband) : Except String (List PreparedPacket) := do
  let subbandGrid ← subbandPrecinctGrid subband resolution horizontalExponent verticalExponent
    resolutionGrid
  let subbandIndex := (packets.head?.map fun packet => packet.subbands.length).getD 0
  let (packets, distributedBlockCount) ←
    appendSplitSubbands packets subband subbandGrid resolutionGrid
  if distributedBlockCount ≠ subband.codeBlocks.length then
    .error "precinct code-block grid count mismatch"
  else moveCodeBlocksToPrecincts subband.codeBlocks subband subbandGrid subbandIndex packets

/-- `split_prepared_resolution_packet_by_precinct`. -/
def splitPreparedPacketByPrecinct (r : EncodeRequest) (packet : PreparedPacket) :
    Except String (List PreparedPacket) := do
  let (horizontalExponent, verticalExponent) ←
    precinctExponentsForResolution r.precinctExponents packet.resolution
  let grid ← resolutionPrecinctGrid r.width r.height r.numDecompositionLevels packet.resolution
    horizontalExponent verticalExponent
  let packets := ((List.range grid.rows).map fun precinctRow =>
    (List.range grid.columns).map fun precinctColumn =>
      (⟨⟨packet.component, packet.resolution, precinctRow * grid.columns + precinctColumn⟩, []⟩ :
        PreparedPacket)).flatten
  packet.subbands.foldlM (distributeOwnedSubband packet.resolution horizontalExponent
    verticalExponent grid) packets

/-- `split_component_resolution_packets_by_precinct` on packets with their sub-bands. -/
def splitPreparedPackets (r : EncodeRequest) (packets : List (List PreparedPacket)) :
    Except String (List (List PreparedPacket)) :=
  if r.precinctExponents.isEmpty then .ok packets
  else packets.mapM fun componentPackets => do
    .ok (← componentPackets.mapM (splitPreparedPacketByPrecinct r)).flatten

/-- The packets that the encoder prepares for a request on the planes of its components. -/
def preparedPackets (r : EncodeRequest) (planes : ℕ → Buffer ℤ) :
    Except String (List (List PreparedPacket)) := do
  let packets ← (List.range r.componentSampling.length).mapM fun component =>
    prepareOneComponent r (planes component) component
  splitPreparedPackets r packets

/-! ## Decoder -/

inductive BuildError where
  | imageTooLarge
  | invalidPrecinct
  deriving DecidableEq, Repr

/-- `IntRect::intersect`. -/
def intersect (a b : IntRect) : IntRect :=
  if a.x1 < b.x0 ∨ b.x1 < a.x0 ∨ a.y1 < b.y0 ∨ b.y1 < a.y0 then .fromXywh 0 0 0 0
  else ⟨max a.x0 b.x0, max a.y0 b.y0, min a.x1 b.x1, min a.y1 b.y1⟩

structure CodeBlockGrid where
  area : IntRect
  columns : ℕ
  rows : ℕ
  deriving DecidableEq, Repr

/-- A `u32` product or sum whose overflow makes the image too large. -/
def checkedExtent (value : ℕ) : Except BuildError ℕ :=
  if value ≤ u32Max then .ok value else .error .imageTooLarge

/-- `code_block_grid`. -/
def codeBlockGrid (tile : ResolutionTile) (subBandRect precinctRect : IntRect) :
    Except BuildError CodeBlockGrid := do
  let cbWidth := tile.codeBlockWidth
  let cbHeight := tile.codeBlockHeight
  let cbX0 := max precinctRect.x0 subBandRect.x0 / cbWidth * cbWidth
  let cbY0 := max precinctRect.y0 subBandRect.y0 / cbHeight * cbHeight
  let cbX1 ← checkedExtent (divCeil (min precinctRect.x1 subBandRect.x1) cbWidth * cbWidth)
  let cbY1 ← checkedExtent (divCeil (min precinctRect.y1 subBandRect.y1) cbHeight * cbHeight)
  if cbX0 > cbX1 ∨ cbY0 > cbY1 then .error .invalidPrecinct
  else
    let area : IntRect := ⟨cbX0, cbY0, cbX1, cbY1⟩
    .ok ⟨area, if subBandRect.width = 0 then 0 else area.width / cbWidth,
      if subBandRect.height = 0 then 0 else area.height / cbHeight⟩

structure CodeBlock where
  rect : IntRect
  xIdx : ℕ
  yIdx : ℕ
  deriving DecidableEq, Repr

/-- The inner loop of `build_code_blocks`. -/
def buildCodeBlockRow (tile : ResolutionTile) (subBandRect : IntRect) (y yIdx : ℕ) :
    ℕ → ℕ → ℕ → Except BuildError (List CodeBlock)
  | 0, _, _ => .ok []
  | columns + 1, xIdx, x => do
    let area := intersect (.fromXywh x y tile.codeBlockWidth tile.codeBlockHeight) subBandRect
    let next ← checkedExtent (x + tile.codeBlockWidth)
    let row ← buildCodeBlockRow tile subBandRect y yIdx columns (xIdx + 1) next
    .ok (⟨area, xIdx, yIdx⟩ :: row)

/-- The outer loop of `build_code_blocks`. -/
def buildCodeBlockRows (tile : ResolutionTile) (subBandRect : IntRect) (columns x : ℕ) :
    ℕ → ℕ → ℕ → Except BuildError (List CodeBlock)
  | 0, _, _ => .ok []
  | rows + 1, yIdx, y => do
    let row ← buildCodeBlockRow tile subBandRect y yIdx columns 0 x
    let next ← checkedExtent (y + tile.codeBlockHeight)
    let rest ← buildCodeBlockRows tile subBandRect columns x rows (yIdx + 1) next
    .ok (row ++ rest)

/-- `build_code_blocks`. -/
def buildCodeBlocks (tile : ResolutionTile) (subBandRect : IntRect) (grid : CodeBlockGrid) :
    Except BuildError (List CodeBlock) :=
  buildCodeBlockRows tile subBandRect grid.columns grid.area.x0 grid.rows 0 grid.area.y0

/-- A precinct of a sub-band; both of its tag trees have `columns` by `rows` leaves. -/
structure Precinct where
  codeBlocks : List CodeBlock
  columns : ℕ
  rows : ℕ
  deriving DecidableEq, Repr, Inhabited

structure SubBand where
  subBandType : SubBandType
  rect : IntRect
  precincts : List Precinct
  deriving DecidableEq, Repr, Inhabited

/-- `build_precincts`. -/
def buildPrecincts (tile : ResolutionTile) (subBandRect : IntRect) :
    Except BuildError (List Precinct) :=
  match tile.precincts with
  | none => .error .invalidPrecinct
  | some precincts => precincts.mapM fun precinct => do
    let grid ← codeBlockGrid tile subBandRect precinct.rect
    let blocks ← buildCodeBlocks tile subBandRect grid
    .ok ⟨blocks, grid.columns, grid.rows⟩

/-- The sub-bands of a resolution in the order in which its packets carry them. -/
def subBandTypes (resolution : ℕ) : List SubBandType :=
  if resolution = 0 then [.lowLow] else [.highLow, .lowHigh, .highHigh]

/-- `build_sub_band`. -/
def buildSubBand (tile : ResolutionTile) (subBandType : SubBandType) :
    Except BuildError SubBand := do
  let rect := tile.subBandRect subBandType
  let precincts ← buildPrecincts tile rect
  .ok ⟨subBandType, rect, precincts⟩

/-- The sub-bands of every resolution of every component, as `build_decompositions` makes
them. -/
def buildDecompositions (tile : Tile) : Except BuildError (List (List (List SubBand))) :=
  tile.componentInfos.mapM fun info =>
    (List.range info.parameters.numResolutionLevels).mapM fun resolution =>
      (subBandTypes resolution).mapM
        (buildSubBand (ResolutionTile.new (ComponentTile.new tile.rect info) resolution))

end J2kNative.PacketContents
