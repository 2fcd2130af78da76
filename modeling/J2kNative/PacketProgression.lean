import J2kNative.KeyedLists
import J2kNative.SlotWalks
import J2kNative.TileTree

/-!
# Packet order of the decoder

The packet iterators of a tile, within bounds on layers, resolutions and
components. The layer and resolution progressions walk the packets with nested
counters; the position progressions collect the precincts of every component and
resolution, sort them by their reference-grid position, and let the layers run
innermost. An iterator that panics, fails or is refused is `none`. Arithmetic
wraps as in the release build, where no wrapped value is read.
-/
namespace J2kNative.PacketProgression
open KeyedLists SlotWalks TileTree

structure ProgressionData where
  layerNum : ℕ
  resolution : ℕ
  component : ℕ
  precinct : ℕ
  deriving DecidableEq, Repr

structure IteratorInput where
  layers : ℕ × ℕ
  tile : Tile
  resolutions : ℕ × ℕ
  components : ℕ × ℕ
  deriving DecidableEq, Repr

namespace IteratorInput

/-- `try_new_with_custom_bounds`. -/
def tryNewWithCustomBounds (tile : Tile) (resolutions layers components : ℕ × ℕ) :
    Option IteratorInput :=
  let maxResolution :=
    (tile.componentInfos.map fun c => c.parameters.numResolutionLevels).foldr max 0
  let resolutions := (resolutions.1, min resolutions.2 maxResolution)
  let layers := (layers.1, min layers.2 tile.numLayers)
  let components := (components.1, min components.2 tile.componentInfos.length)
  if tile.componentInfos.length > 65535 then none
  else if resolutions.2 ≤ resolutions.1 ∨ layers.2 ≤ layers.1 ∨ components.2 ≤ components.1 then
    none
  else some ⟨layers, tile, resolutions, components⟩

/-- `IteratorInput::new`. -/
def new (tile : Tile) : Option IteratorInput :=
  tryNewWithCustomBounds tile (0, 255) (0, 255) (0, 65535)

def componentInfo (input : IteratorInput) (componentIdx : ℕ) : ComponentInfo :=
  input.tile.componentInfos.getD componentIdx default

/-- `max_resolution`. -/
def maxResolution (input : IteratorInput) (componentIdx : ℕ) : ℕ :=
  min input.resolutions.2 (input.componentInfo componentIdx).parameters.numResolutionLevels

def componentTile (input : IteratorInput) (componentIdx : ℕ) : ComponentTile :=
  ComponentTile.new input.tile.rect (input.componentInfo componentIdx)

def resolutionTile (input : IteratorInput) (componentIdx resolution : ℕ) : ResolutionTile :=
  ResolutionTile.new (input.componentTile componentIdx) resolution

end IteratorInput

/-! ## Layer and resolution progressions -/

/-- What a counting progression stands at: the fields of the packets to yield but the
precinct. -/
structure PacketSlot where
  layer : ℕ
  resolution : ℕ
  componentIdx : ℕ
  deriving DecidableEq, Repr

/-- The precincts of the resolution tile that is built for a slot. -/
def IteratorInput.enter (input : IteratorInput) (s : PacketSlot) : Option ℕ :=
  (ResolutionTile.tryNew (input.componentTile s.componentIdx) s.resolution).map
    ResolutionTile.numPrecincts

/-- One turn of the inner loop of the layer-resolution-component-position progression. -/
def layerResolutionTurn (input : IteratorInput) (s : Cursor PacketSlot) :
    Outcome (Cursor PacketSlot) :=
  let { layer, resolution, componentIdx } := s.slot
  let componentIdx := componentIdx + 1
  if componentIdx = input.components.2 then
    let componentIdx := input.components.1
    let resolution := resolution + 1
    if resolution = input.maxResolution componentIdx then
      let resolution := input.resolutions.1
      let layer := layer + 1
      if layer = input.layers.2 then .exhausted
      else arrive input.enter ⟨layer, resolution, componentIdx⟩
    else arrive input.enter ⟨layer, resolution, componentIdx⟩
  else arrive input.enter ⟨layer, resolution, componentIdx⟩

/-- A resolution that the component lacks is passed over like one without precincts. -/
def IteratorInput.enterExisting (input : IteratorInput) (s : PacketSlot) : Option ℕ :=
  if s.resolution ≥ input.maxResolution s.componentIdx then some 0 else input.enter s

/-- One turn of the inner loop of the resolution-layer-component-position progression. -/
def resolutionLayerTurn (input : IteratorInput) (s : Cursor PacketSlot) :
    Outcome (Cursor PacketSlot) :=
  let { layer, resolution, componentIdx } := s.slot
  let componentIdx := componentIdx + 1
  if componentIdx = input.components.2 then
    let componentIdx := input.components.1
    let layer := layer + 1
    if layer = input.layers.2 then
      let layer := input.layers.1
      let resolution := resolution + 1
      if resolution = input.resolutions.2 then .exhausted
      else arrive input.enterExisting ⟨layer, resolution, componentIdx⟩
    else arrive input.enterExisting ⟨layer, resolution, componentIdx⟩
  else arrive input.enterExisting ⟨layer, resolution, componentIdx⟩

/-- The test at the start of a call. -/
def IteratorInput.ends (input : IteratorInput) (s : PacketSlot) : Bool :=
  s.layer = input.layers.2 ∨ s.resolution = input.resolutions.2

def PacketSlot.packet (s : PacketSlot) (precinct : ℕ) : ProgressionData :=
  ⟨s.layer, s.resolution, s.componentIdx, precinct⟩

/-- More turns than there are slots, so that the inner loop has come to its end. -/
def IteratorInput.turns (input : IteratorInput) : ℕ :=
  (input.layers.2 - input.layers.1) * (input.resolutions.2 - input.resolutions.1) *
    (input.components.2 - input.components.1) + 1

/-- A counting progression from a first slot, with the precincts of its first resolution
tile. -/
def countingProgression (fuel : ℕ) (input : IteratorInput)
    (turn : Cursor PacketSlot → Outcome (Cursor PacketSlot)) (s : PacketSlot)
    (precincts : Option ℕ) : Option (List ProgressionData) :=
  precincts.bind fun count =>
    collect (nextItem input.ends PacketSlot.packet turn input.turns) fuel ⟨s, 0, count⟩

/-- `layer_resolution_component_position_progression`; the first resolution tile is that of
the first component of the tile. -/
def layerResolutionComponentPositionProgression (fuel : ℕ) (input : IteratorInput) :
    Option (List ProgressionData) :=
  countingProgression fuel input (layerResolutionTurn input)
    ⟨input.layers.1, input.resolutions.1, input.components.1⟩
    (input.enter ⟨input.layers.1, input.resolutions.1, 0⟩)

/-- `resolution_layer_component_position_progression`. -/
def resolutionLayerComponentPositionProgression (fuel : ℕ) (input : IteratorInput) :
    Option (List ProgressionData) :=
  countingProgression fuel input (resolutionLayerTurn input)
    ⟨input.layers.1, input.resolutions.1, input.components.1⟩
    (input.enter ⟨input.layers.1, input.resolutions.1, input.components.1⟩)

/-! ## Position progressions -/

structure PrecinctStore where
  resolution : ℕ
  precinctY : ℕ
  precinctX : ℕ
  componentIdx : ℕ
  precinctIdx : ℕ
  deriving DecidableEq, Repr

/-- The precincts of one resolution, as they are added to `elements`. -/
def resolutionStores (componentIdx resolution : ℕ) (tile : ResolutionTile) :
    Option (List PrecinctStore) :=
  tile.precincts.map fun l => l.map fun d => ⟨resolution, d.rY, d.rX, componentIdx, d.idx⟩

/-- The precincts of one component. -/
def componentStores (input : IteratorInput) (componentIdx : ℕ) (info : ComponentInfo) :
    Option (List PrecinctStore) :=
  let component := ComponentTile.new input.tile.rect info
  let resolutionTiles :=
    ((List.range info.parameters.numResolutionLevels).map (ResolutionTile.new component)).zipIdx
  (((resolutionTiles.drop input.resolutions.1).take
    (input.resolutions.2 - input.resolutions.1)).mapM fun (tile, resolution) =>
      resolutionStores componentIdx resolution tile).map List.flatten

/-- `position_progression_common`. -/
def positionProgressionCommon (input : IteratorInput) (sort : PrecinctStore → List ℕ) :
    Option (List ProgressionData) := do
  let elements ← (((input.tile.componentInfos.zipIdx.drop input.components.1).take
    (input.components.2 - input.components.1)).mapM fun (info, componentIdx) =>
      componentStores input componentIdx info)
  let elements := sortByKey sort elements.flatten
  some (elements.flatMap fun e =>
    (List.range' input.layers.1 (input.layers.2 - input.layers.1)).map fun layer =>
      ⟨layer, e.resolution, e.componentIdx, e.precinctIdx⟩)

/-- `resolution_position_component_layer_progression`. -/
def resolutionPositionComponentLayerProgression (input : IteratorInput) :
    Option (List ProgressionData) :=
  positionProgressionCommon input fun p =>
    [p.resolution, p.precinctY, p.precinctX, p.componentIdx, p.precinctIdx]

/-- `position_component_resolution_layer_progression`. -/
def positionComponentResolutionLayerProgression (input : IteratorInput) :
    Option (List ProgressionData) :=
  positionProgressionCommon input fun p =>
    [p.precinctY, p.precinctX, p.componentIdx, p.resolution, p.precinctIdx]

/-- `component_position_resolution_layer_progression`. -/
def componentPositionResolutionLayerProgression (input : IteratorInput) :
    Option (List ProgressionData) :=
  positionProgressionCommon input fun p =>
    [p.componentIdx, p.precinctY, p.precinctX, p.resolution, p.precinctIdx]

/-- `progression_iterator_for_order`, run to its end; the fuel bounds the calls. -/
def progressionIteratorForOrder (fuel : ℕ) (progressionOrder : ProgressionOrder)
    (input : IteratorInput) : Option (List ProgressionData) :=
  match progressionOrder with
  | .layerResolutionComponentPosition => layerResolutionComponentPositionProgression fuel input
  | .resolutionLayerComponentPosition => resolutionLayerComponentPositionProgression fuel input
  | .resolutionPositionComponentLayer => resolutionPositionComponentLayerProgression input
  | .positionComponentResolutionLayer => positionComponentResolutionLayerProgression input
  | .componentPositionResolutionLayer => componentPositionResolutionLayerProgression input

/-! ## Progression changes -/

/-- The largest `usize`. -/
def usizeMax : ℕ := 2 ^ 64 - 1

def checkedUsize (n : ℕ) : Option ℕ := if n ≤ usizeMax then some n else none

/-- `DEFAULT_MAX_DECODE_BYTES`. -/
def defaultMaxDecodeBytes : ℕ := 512 * 1024 * 1024

structure PacketInclusionMap where
  resolutionOffsets : List ℕ
  words : List ℕ
  maxResolution : ℕ
  layers : ℕ
  deriving DecidableEq, Repr

namespace PacketInclusionMap

def packetsPerInclusionWord : ℕ := 64

/-- The component, resolution and precincts of every resolution tile, in the order of the
loops of `new`. -/
def resolutionCounts (tile : Tile) : List (ℕ × ℕ × ℕ) :=
  tile.componentInfos.zipIdx.flatMap fun (info, componentIndex) =>
    (List.range info.parameters.numResolutionLevels).map fun resolution =>
      (componentIndex, resolution,
        (ResolutionTile.new (ComponentTile.new tile.rect info) resolution).numPrecincts)

/-- One turn of the inner loop of `new`. -/
def addResolution (maxResolution layers : ℕ) (s : List ℕ × ℕ) (r : ℕ × ℕ × ℕ) :
    Option (List ℕ × ℕ) := do
  let slot ← checkedUsize (r.1 * maxResolution + r.2.1)
  let resolutionPackets ← checkedUsize (r.2.2 * layers)
  let packetCount ← checkedUsize (s.2 + resolutionPackets)
  some (s.1.set slot s.2, packetCount)

/-- `PacketInclusionMap::new`. -/
def new (tile : Tile) : Option PacketInclusionMap := do
  let maxResolution ← (tile.componentInfos.map fun c => c.parameters.numResolutionLevels).max?
  let layers := tile.numLayers
  let slotCount ← checkedUsize (tile.componentInfos.length * maxResolution)
  let (resolutionOffsets, packetCount) ← (resolutionCounts tile).foldlM
    (addResolution maxResolution layers) (List.replicate slotCount usizeMax, 0)
  let wordCount := (packetCount + packetsPerInclusionWord - 1) / packetsPerInclusionWord
  let retainedBytes ← checkedUsize (slotCount * 8 + wordCount * 8)
  if retainedBytes > defaultMaxDecodeBytes then none
  else some ⟨resolutionOffsets, List.replicate wordCount 0, maxResolution, layers⟩

/-- The slot of a packet. -/
def packetOffset (m : PacketInclusionMap) (packet : ProgressionData) : Option ℕ := do
  let slot ← checkedUsize (packet.component * m.maxResolution + packet.resolution)
  let resolutionOffset ← m.resolutionOffsets[slot]?
  checkedUsize (resolutionOffset + (packet.precinct * m.layers + packet.layerNum))

/-- `insert`: whether the packet is new, and the map with it. -/
def insert (m : PacketInclusionMap) (packet : ProgressionData) : Bool × PacketInclusionMap :=
  match m.packetOffset packet with
  | none => (false, m)
  | some packetOffset =>
      let wordIndex := packetOffset / packetsPerInclusionWord
      let mask := 1 <<< (packetOffset % packetsPerInclusionWord)
      match m.words[wordIndex]? with
      | none => (false, m)
      | some word => (word &&& mask = 0, { m with words := m.words.set wordIndex (word ||| mask) })

/-- `filter` with the insertion as its test. -/
def filter : PacketInclusionMap → List ProgressionData → List ProgressionData
  | _, [] => []
  | m, packet :: packets =>
      let (isNew, m) := m.insert packet
      if isNew then packet :: m.filter packets else m.filter packets

end PacketInclusionMap

/-- The bounds of a progression change. -/
def changeInput (tile : Tile) (change : ProgressionChange) : Option IteratorInput :=
  IteratorInput.tryNewWithCustomBounds tile (change.resolutionStart, change.resolutionEnd)
    (0, change.layerEnd) (change.componentStart, change.componentEnd)

/-- `progression_iterator`, run to its end; the fuel bounds the calls of each iterator. -/
def progressionIterator (fuel : ℕ) (tile : Tile) : Option (List ProgressionData) :=
  if tile.progressionChanges.isEmpty then do
    let input ← IteratorInput.new tile
    progressionIteratorForOrder fuel tile.progressionOrder input
  else do
    let sequences ← tile.progressionChanges.mapM fun change => do
      let input ← changeInput tile change
      progressionIteratorForOrder fuel change.progressionOrder input
    let inclusion ← PacketInclusionMap.new tile
    some (inclusion.filter sequences.flatten)

/-! ## The packets in bounds -/

def layerResolutionKey (d : ProgressionData) : List ℕ :=
  [d.layerNum, d.resolution, d.component, d.precinct]

def resolutionLayerKey (d : ProgressionData) : List ℕ :=
  [d.resolution, d.layerNum, d.component, d.precinct]

/-- The packets of the tile within the bounds. -/
structure IteratorInput.Within (input : IteratorInput) (d : ProgressionData) : Prop where
  layer : input.layers.1 ≤ d.layerNum ∧ d.layerNum < input.layers.2
  resolution : input.resolutions.1 ≤ d.resolution ∧ d.resolution < input.maxResolution d.component
  component : input.components.1 ≤ d.component ∧ d.component < input.components.2
  precinct : d.precinct < (input.resolutionTile d.component d.resolution).numPrecincts

/-- What `try_new_with_custom_bounds` guarantees. -/
structure IteratorInput.Valid (input : IteratorInput) : Prop where
  layers : input.layers.1 < input.layers.2
  resolutions : input.resolutions.1 < input.resolutions.2
  components : input.components.1 < input.components.2
  componentCount : input.components.2 ≤ input.tile.componentInfos.length

section
variable {input : IteratorInput}

theorem lt_maxResolution_iff {c r : ℕ} : r < input.maxResolution c ↔ r < input.resolutions.2 ∧
    r < (input.componentInfo c).parameters.numResolutionLevels := by
  unfold IteratorInput.maxResolution
  omega

theorem maxResolution_le (input : IteratorInput) (c : ℕ) :
    input.maxResolution c ≤ input.resolutions.2 := Nat.min_le_left _ _

end

end J2kNative.PacketProgression
