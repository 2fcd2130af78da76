import J2kNative.Fallible
import J2kNative.PacketProgression

/-!
# Packet order of the encoder

For a single-tile image the encoder prepares one packet per component and
resolution, splits it over the resolution's precinct grid, makes a descriptor for
every layer, and sorts the descriptors by the fields of the progression order.
The packets' code blocks travel along unchanged and are left out.

The precinct grid is that of the image, whatever the component's sub-sampling.
-/
namespace J2kNative.PacketPlan
open Fallible KeyedLists TileGeometry TileTree PacketProgression

inductive PacketizationProgressionOrder where
  | lrcp
  | rlcp
  | rpcl
  | pcrl
  | cprl
  deriving DecidableEq, Repr

structure PacketDescriptor where
  packetIndex : ℕ
  stateIndex : ℕ
  layer : ℕ
  resolution : ℕ
  component : ℕ
  precinct : ℕ
  deriving DecidableEq, Repr

/-- The tuple that a progression order sorts by. -/
def progressionKey (order : PacketizationProgressionOrder) (d : PacketDescriptor) : List ℕ :=
  match order with
  | .lrcp => [d.layer, d.resolution, d.component, d.precinct]
  | .rlcp => [d.resolution, d.layer, d.component, d.precinct]
  | .rpcl => [d.resolution, d.precinct, d.component, d.layer]
  | .pcrl => [d.precinct, d.component, d.resolution, d.layer]
  | .cprl => [d.component, d.precinct, d.resolution, d.layer]

/-- `sort_packet_descriptors_for_progression`. -/
def sortPacketDescriptorsForProgression (descriptors : List PacketDescriptor)
    (order : PacketizationProgressionOrder) : List PacketDescriptor :=
  sortByKey (progressionKey order) descriptors

/-- The geometry and the options of an encode request that decide its packets. The number
of levels is the one the encoder settled on. -/
structure EncodeRequest where
  width : ℕ
  height : ℕ
  componentSampling : List (ℕ × ℕ)
  numDecompositionLevels : ℕ
  codeBlockWidthExp : ℕ
  codeBlockHeightExp : ℕ
  numLayers : ℕ
  precinctExponents : List (ℕ × ℕ)
  progressionOrder : PacketizationProgressionOrder
  width_lt : width < 2 ^ 32
  height_lt : height < 2 ^ 32
  levels_le : numDecompositionLevels ≤ 32

/-! ## Validation -/

/-- `validate_code_block_geometry`. -/
def validateCodeBlockGeometry (r : EncodeRequest) : Except String Unit :=
  if r.codeBlockWidthExp > 8 then .error "code-block width exponent exceeds supported range"
  else if r.codeBlockHeightExp > 8 then .error "code-block height exponent exceeds supported range"
  else if r.codeBlockWidthExp + 2 + (r.codeBlockHeightExp + 2) > 12 then
    .error "code-block dimensions exceed JPEG 2000 Part 1 area limit"
  else .ok ()

/-- The least exponent that keeps a resolution's code blocks whole. -/
def minimumExponent (codeBlockExp resolution : ℕ) : ℕ :=
  if resolution = 0 then codeBlockExp + 2 else codeBlockExp + 2 + 1

/-- `validate_precinct_exponents_for_options`. -/
def validatePrecinctExponentsForOptions (r : EncodeRequest) : Except String Unit := do
  validateCodeBlockGeometry r
  if r.precinctExponents.isEmpty then .ok ()
  else if r.precinctExponents.length ≠ r.numDecompositionLevels + 1 then
    .error "precinct exponent count must match resolution level count"
  else if r.precinctExponents.any fun e => e.1 > 15 || e.2 > 15 then
    .error "precinct exponents must fit in COD marker nybbles"
  else if r.precinctExponents.zipIdx.any fun (e, resolution) =>
      e.1 < minimumExponent r.codeBlockWidthExp resolution ||
        e.2 < minimumExponent r.codeBlockHeightExp resolution then
    .error "precinct exponents must not reduce encoder code-block dimensions"
  else .ok ()

/-- The geometry checks of an encode request, in the order they are made. -/
def validateRequest (r : EncodeRequest) : Except String Unit :=
  if r.width = 0 ∨ r.height = 0 then .error "invalid dimensions"
  else if r.componentSampling.isEmpty then .error "component planes must be non-empty"
  else if r.componentSampling.length > 16384 then
    .error "component count exceeds the JPEG 2000 Part 1 limit"
  else if r.componentSampling.any fun s => s.1 = 0 || s.2 = 0 then
    .error "component sampling factors must be non-zero"
  else if r.numLayers = 0 then .error "quality layer count must be non-zero"
  else if r.numLayers > 32 then .error "quality layer count exceeds the encoder limit"
  else validatePrecinctExponentsForOptions r

/-! ## Precinct partition -/

structure PreparedResolutionPacket where
  component : ℕ
  resolution : ℕ
  precinct : ℕ
  deriving DecidableEq, Repr, Inhabited

structure ResolutionPrecinctGrid where
  columns : ℕ
  rows : ℕ
  deriving DecidableEq, Repr

def pow2U32 (exponent : ℕ) : Except String ℕ :=
  if exponent < 32 then .ok (1 <<< exponent)
  else .error "precinct exponent exceeds u32 shift width"

/-- `resolution_precinct_grid`. -/
def resolutionPrecinctGrid (imageWidth imageHeight numDecompositionLevels resolution
    horizontalExponent verticalExponent : ℕ) : Except String ResolutionPrecinctGrid :=
  if resolution > numDecompositionLevels then
    .error "resolution exceeds decomposition level count"
  else do
    let resolutionScale ← pow2U32 (numDecompositionLevels - resolution)
    let resolutionColumns := divCeil imageWidth resolutionScale
    let resolutionRows := divCeil imageHeight resolutionScale
    let horizontalPrecinctSpan ← pow2U32 horizontalExponent
    let verticalPrecinctSpan ← pow2U32 verticalExponent
    .ok ⟨divCeil resolutionColumns horizontalPrecinctSpan,
      divCeil resolutionRows verticalPrecinctSpan⟩

/-- `precinct_exponents_for_resolution`. -/
def precinctExponentsForResolution (precinctExponents : List (ℕ × ℕ)) (resolution : ℕ) :
    Except String (ℕ × ℕ) :=
  match precinctExponents[resolution]? with
  | some e => .ok e
  | none => .error "missing precinct exponents for resolution"

/-- `split_prepared_resolution_packet_by_precinct`. -/
def splitPreparedResolutionPacketByPrecinct (r : EncodeRequest)
    (packet : PreparedResolutionPacket) : Except String (List PreparedResolutionPacket) := do
  let (horizontalExponent, verticalExponent) ←
    precinctExponentsForResolution r.precinctExponents packet.resolution
  let grid ← resolutionPrecinctGrid r.width r.height r.numDecompositionLevels packet.resolution
    horizontalExponent verticalExponent
  .ok ((List.range grid.rows).map fun precinctRow =>
    (List.range grid.columns).map fun precinctColumn =>
      { packet with precinct := precinctRow * grid.columns + precinctColumn }).flatten

/-- `split_component_resolution_packets_by_precinct`. -/
def splitComponentResolutionPacketsByPrecinct (r : EncodeRequest)
    (componentResolutionPackets : List (List PreparedResolutionPacket)) :
    Except String (List (List PreparedResolutionPacket)) :=
  if r.precinctExponents.isEmpty then .ok componentResolutionPackets
  else componentResolutionPackets.mapM fun componentPackets => do
    .ok (← componentPackets.mapM (splitPreparedResolutionPacketByPrecinct r)).flatten

/-! ## Descriptors -/

/-- `prepare_component_packets`: the LL packet, then one packet per level. -/
def componentPackets (r : EncodeRequest) (component : ℕ) : List PreparedResolutionPacket :=
  (List.range (r.numDecompositionLevels + 1)).map fun resolution => ⟨component, resolution, 0⟩

/-- `ordered_prepared_resolution_packets`. -/
def orderedPreparedResolutionPackets (order : PacketizationProgressionOrder)
    (componentResolutionPackets : List (List PreparedResolutionPacket)) :
    List PreparedResolutionPacket :=
  let packets := componentResolutionPackets.flatten
  match order with
  | .lrcp | .rlcp | .rpcl => sortByKey (fun p => [p.resolution, p.component, p.precinct]) packets
  | .pcrl | .cprl => sortByKey (fun p => [p.component, p.resolution, p.precinct]) packets

/-- The descriptors of the prepared packets, every layer of a packet after the other. -/
def packetDescriptors (numLayers : ℕ) (packets : List PreparedResolutionPacket) :
    List PacketDescriptor :=
  packets.zipIdx.flatMap fun (packet, stateIndex) => (List.range numLayers).map fun layer =>
    ⟨stateIndex * numLayers + layer, stateIndex, layer, packet.resolution, packet.component,
      packet.precinct⟩

/-- The packet descriptors of a request in the order in which the packets are written. -/
def packetDescriptorsForOrder (r : EncodeRequest) : Except String (List PacketDescriptor) := do
  let components := (List.range r.componentSampling.length).map (componentPackets r)
  let split ← splitComponentResolutionPacketsByPrecinct r components
  let packets := orderedPreparedResolutionPackets r.progressionOrder split
  .ok (sortPacketDescriptorsForProgression (packetDescriptors r.numLayers packets)
    r.progressionOrder)

/-! ## Decoder's view of the request -/

/-- The progression order that the COD marker names. -/
def PacketizationProgressionOrder.toDecoder : PacketizationProgressionOrder → ProgressionOrder
  | .lrcp => .layerResolutionComponentPosition
  | .rlcp => .resolutionLayerComponentPosition
  | .rpcl => .resolutionPositionComponentLayer
  | .pcrl => .positionComponentResolutionLayer
  | .cprl => .componentPositionResolutionLayer

/-- Coding parameters as parsed from the COD marker; without precincts they default to
the largest exponents. -/
def codParameters (r : EncodeRequest) : CodingStyleParameters :=
  { numDecompositionLevels := r.numDecompositionLevels
    numResolutionLevels := r.numDecompositionLevels + 1
    codeBlockWidth := r.codeBlockWidthExp + 2
    codeBlockHeight := r.codeBlockHeightExp + 2
    precinctExponents := if r.precinctExponents.isEmpty then
      List.replicate (r.numDecompositionLevels + 1) (15, 15) else r.precinctExponents }

/-- The tile that the decoder builds from the main header of the request. -/
def decoderTile (r : EncodeRequest) : Tile :=
  { rect := tileRect ⟨r.width, r.height, 0, 0, r.width, r.height, 0, 0⟩ 0
    componentInfos := r.componentSampling.map fun s => ⟨⟨s.1, s.2⟩, codParameters r⟩
    progressionOrder := r.progressionOrder.toDecoder
    progressionChanges := []
    numLayers := r.numLayers }

def PacketDescriptor.data (d : PacketDescriptor) : ProgressionData :=
  ⟨d.layer, d.resolution, d.component, d.precinct⟩

/-! ## Packets of a request -/

theorem pow2U32_ok {e n : ℕ} (h : pow2U32 e = .ok n) : n = 2 ^ e := by
  unfold pow2U32 at h
  split_ifs at h
  cases h
  exact Nat.one_shiftLeft e

/-- The precinct grid that the encoder gives a resolution of every component. -/
def precinctGrid (r : EncodeRequest) (resolution : ℕ) : ResolutionPrecinctGrid :=
  if r.precinctExponents.isEmpty then ⟨1, 1⟩
  else
    let e := r.precinctExponents.getD resolution (0, 0)
    let scale := 2 ^ (r.numDecompositionLevels - resolution)
    ⟨divCeil (divCeil r.width scale) (2 ^ e.1), divCeil (divCeil r.height scale) (2 ^ e.2)⟩

def precinctCount (r : EncodeRequest) (resolution : ℕ) : ℕ :=
  (precinctGrid r resolution).columns * (precinctGrid r resolution).rows

theorem resolutionPrecinctGrid_ok {w h n resolution ex ey : ℕ} {grid : ResolutionPrecinctGrid}
    (hgrid : resolutionPrecinctGrid w h n resolution ex ey = .ok grid) :
    grid = ⟨divCeil (divCeil w (2 ^ (n - resolution))) (2 ^ ex),
      divCeil (divCeil h (2 ^ (n - resolution))) (2 ^ ey)⟩ := by
  unfold resolutionPrecinctGrid at hgrid
  split_ifs at hgrid
  obtain ⟨scale, hscale, hgrid⟩ := bind_eq_ok.mp hgrid
  obtain ⟨spanX, hspanX, hgrid⟩ := bind_eq_ok.mp hgrid
  obtain ⟨spanY, hspanY, hgrid⟩ := bind_eq_ok.mp hgrid
  rw [pow2U32_ok hscale, pow2U32_ok hspanX, pow2U32_ok hspanY] at hgrid
  cases hgrid
  rfl

theorem precinctGrid_eq {r : EncodeRequest} {resolution : ℕ} {e : ℕ × ℕ}
    {grid : ResolutionPrecinctGrid} (hne : ¬ r.precinctExponents.isEmpty)
    (he : precinctExponentsForResolution r.precinctExponents resolution = .ok e)
    (hgrid : resolutionPrecinctGrid r.width r.height r.numDecompositionLevels resolution e.1 e.2 =
      .ok grid) :
    precinctGrid r resolution = grid ∧ r.precinctExponents.getD resolution (0, 0) = e := by
  unfold precinctExponentsForResolution at he
  split at he
  · rename_i e' he'
    cases he
    have hgetD : r.precinctExponents.getD resolution (0, 0) = e := by
      rw [List.getD_eq_getElem?_getD, he', Option.getD_some]
    refine ⟨?_, hgetD⟩
    unfold precinctGrid
    rw [if_neg hne, hgetD, resolutionPrecinctGrid_ok hgrid]
  · cases he

theorem splitPreparedResolutionPacketByPrecinct_ok {r : EncodeRequest}
    {packet : PreparedResolutionPacket} {packets : List PreparedResolutionPacket}
    (hne : ¬ r.precinctExponents.isEmpty)
    (h : splitPreparedResolutionPacketByPrecinct r packet = .ok packets) :
    packets = (List.range (precinctCount r packet.resolution)).map fun i =>
      { packet with precinct := i } := by
  unfold splitPreparedResolutionPacketByPrecinct at h
  obtain ⟨e, he, h⟩ := bind_eq_ok.mp h
  obtain ⟨grid, hgrid, h⟩ := bind_eq_ok.mp h
  cases h
  have heq := (precinctGrid_eq hne he hgrid).1
  rw [range_mul_flatMap, precinctCount, heq]
  refine List.map_congr_left fun i _ => ?_
  rw [Nat.div_add_mod']

/-- The packets of all components, split by precinct. -/
def splitPackets (r : EncodeRequest) : List PreparedResolutionPacket :=
  (List.range r.componentSampling.length).flatMap fun component =>
    (List.range (r.numDecompositionLevels + 1)).flatMap fun resolution =>
      (List.range (precinctCount r resolution)).map fun precinct =>
        ⟨component, resolution, precinct⟩

theorem splitComponentResolutionPacketsByPrecinct_ok {r : EncodeRequest}
    {split : List (List PreparedResolutionPacket)}
    (h : splitComponentResolutionPacketsByPrecinct r
      ((List.range r.componentSampling.length).map (componentPackets r)) = .ok split) :
    split.flatten = splitPackets r := by
  unfold splitComponentResolutionPacketsByPrecinct at h
  split_ifs at h with hempty
  · cases h
    have hcount (resolution : ℕ) : precinctCount r resolution = 1 := by
      simp [precinctCount, precinctGrid, hempty]
    unfold splitPackets componentPackets
    simp only [hcount, List.range_one, List.map_singleton, ← List.map_eq_flatMap]
    rw [List.flatMap_def]
  · have hsplit := mapM_eq_ok (g := fun packets => packets.flatMap fun packet =>
      (List.range (precinctCount r packet.resolution)).map fun i =>
        { packet with precinct := i }) (fun packets _ l hl => ?_) h
    · rw [hsplit, List.map_map, ← List.flatMap_def]
      unfold splitPackets componentPackets
      simp only [Function.comp_def, List.flatMap_map]
    · obtain ⟨parts, hparts, hl⟩ := bind_eq_ok.mp hl
      cases hl
      rw [mapM_eq_ok (fun packet _ l hl => splitPreparedResolutionPacketByPrecinct_ok hempty hl) hparts]
      rfl

theorem mem_splitPackets {r : EncodeRequest} {p : PreparedResolutionPacket} :
    p ∈ splitPackets r ↔ p.resolution < r.numDecompositionLevels + 1 ∧
      p.component < r.componentSampling.length ∧ p.precinct < precinctCount r p.resolution := by
  obtain ⟨c, res, i⟩ := p
  simp [splitPackets]
  tauto

theorem splitPackets_enumerated (r : EncodeRequest) :
    Enumerated (fun p : PreparedResolutionPacket => [p.component, p.resolution, p.precinct])
      (splitPackets r) := by
  refine enumerated_flatMap_range (k := fun p => [p.resolution, p.precinct]) (by grind)
    (fun c => ?_) _
  refine enumerated_flatMap_range (k := fun p => [p.precinct]) (by grind) (fun res => ?_) _
  exact enumerated_map_range (fun _ => rfl) _

theorem splitPackets_nodup (r : EncodeRequest) : (splitPackets r).Nodup :=
  (splitPackets_enumerated r).nodup

theorem ordered_perm (order : PacketizationProgressionOrder)
    (packets : List (List PreparedResolutionPacket)) :
    (orderedPreparedResolutionPackets order packets).Perm packets.flatten := by
  cases order <;> exact List.perm_insertionSort _ _

theorem packetDescriptors_data (numLayers : ℕ) (packets : List PreparedResolutionPacket) :
    (packetDescriptors numLayers packets).map PacketDescriptor.data = packets.flatMap fun packet =>
      (List.range numLayers).map fun layer =>
        ⟨layer, packet.resolution, packet.component, packet.precinct⟩ := by
  unfold packetDescriptors
  rw [List.map_flatMap]
  simp only [List.map_map]
  conv_rhs => rw [← List.zipIdx_map_fst 0 packets, List.flatMap_map]
  rfl

/-- Packets of `layers` layers, `resolutions` resolutions and `components` components, with
`n` precincts to a component and resolution. -/
def IsPacket (layers resolutions components : ℕ) (n : ℕ → ℕ → ℕ) (d : ProgressionData) : Prop :=
  d.layerNum < layers ∧ d.resolution < resolutions ∧ d.component < components ∧
    d.precinct < n d.component d.resolution

def allPackets (layers resolutions components : ℕ) (n : ℕ → ℕ → ℕ) : List ProgressionData :=
  (List.range layers).flatMap fun layer => (List.range resolutions).flatMap fun resolution =>
    (List.range components).flatMap fun component =>
      (List.range (n component resolution)).map fun precinct =>
        ⟨layer, resolution, component, precinct⟩

theorem mem_allPackets {layers resolutions components : ℕ} {n : ℕ → ℕ → ℕ} {d : ProgressionData} :
    d ∈ allPackets layers resolutions components n ↔ IsPacket layers resolutions components n d := by
  obtain ⟨l, r, c, p⟩ := d
  simp [allPackets, IsPacket]

theorem allPackets_nodup (layers resolutions components : ℕ) (n : ℕ → ℕ → ℕ) :
    (allPackets layers resolutions components n).Nodup := by
  have h : Enumerated layerResolutionKey (allPackets layers resolutions components n) := by
    refine enumerated_flatMap_range (k := fun d => [d.resolution, d.component, d.precinct])
      (by grind [layerResolutionKey]) (fun l => ?_) _
    refine enumerated_flatMap_range (k := fun d => [d.component, d.precinct])
      (by grind) (fun r => ?_) _
    refine enumerated_flatMap_range (k := fun d => [d.precinct]) (by grind) (fun c => ?_) _
    exact enumerated_map_range (fun _ => rfl) _
  exact h.nodup

/-- The fields that a progression order sorts by, on what the decoder sees of a packet. -/
def orderKey (order : PacketizationProgressionOrder) (d : ProgressionData) : List ℕ :=
  match order with
  | .lrcp => layerResolutionKey d
  | .rlcp => resolutionLayerKey d
  | .rpcl => [d.resolution, d.precinct, d.component, d.layerNum]
  | .pcrl => [d.precinct, d.component, d.resolution, d.layerNum]
  | .cprl => [d.component, d.precinct, d.resolution, d.layerNum]

theorem orderKey_data (order : PacketizationProgressionOrder) (d : PacketDescriptor) :
    orderKey order d.data = progressionKey order d := by
  cases order <;> rfl

theorem orderKey_injective (order : PacketizationProgressionOrder) :
    Function.Injective (orderKey order) := by
  rintro ⟨l, r, c, p⟩ ⟨l', r', c', p'⟩ h
  cases order <;> simp [orderKey, layerResolutionKey, resolutionLayerKey] at h <;> simp [h]

/-- The packets of an accepted request are written once each, in the order of the key. -/
theorem packetDescriptorsForOrder_spec {r : EncodeRequest} {ds : List PacketDescriptor}
    (h : packetDescriptorsForOrder r = .ok ds) :
    Enumerated (orderKey r.progressionOrder) (ds.map PacketDescriptor.data) ∧
      ∀ d, d ∈ ds.map PacketDescriptor.data ↔
        IsPacket r.numLayers (r.numDecompositionLevels + 1) r.componentSampling.length
          (fun _ resolution => precinctCount r resolution) d := by
  unfold packetDescriptorsForOrder at h
  obtain ⟨split, hsplit, h⟩ := bind_eq_ok.mp h
  cases h
  have hperm := ordered_perm r.progressionOrder split
  rw [splitComponentResolutionPacketsByPrecinct_ok hsplit] at hperm
  generalize orderedPreparedResolutionPackets r.progressionOrder split = packets at hperm ⊢
  have hnodup : ((packetDescriptors r.numLayers packets).map PacketDescriptor.data).Nodup := by
    rw [packetDescriptors_data]
    refine List.nodup_flatMap.mpr ⟨fun p _ => ?_, (hperm.nodup_iff.mpr (splitPackets_nodup r)).imp ?_⟩
    · refine List.nodup_range.map fun a b hab => ?_
      simpa using hab
    · intro p q hpq d hp hq
      obtain ⟨l, -, rfl⟩ := List.mem_map.mp hp
      obtain ⟨l', -, heq⟩ := List.mem_map.mp hq
      injection heq with _ h2 h3 h4
      exact hpq (by cases p; cases q; simp_all)
  have hkeys : ((packetDescriptors r.numLayers packets).map
      (progressionKey r.progressionOrder)).Nodup := by
    have h := hnodup.map (orderKey_injective r.progressionOrder)
    rw [List.map_map] at h
    simpa only [Function.comp_def, orderKey_data] using h
  constructor
  · refine List.pairwise_map.mpr ((sortByKey_enumerated hkeys).imp ?_)
    intro a b hab
    rwa [orderKey_data, orderKey_data]
  · intro d
    have hmem : d ∈ (sortPacketDescriptorsForProgression (packetDescriptors r.numLayers packets)
        r.progressionOrder).map PacketDescriptor.data ↔
        d ∈ (packetDescriptors r.numLayers packets).map PacketDescriptor.data := by
      simp only [List.mem_map, sortPacketDescriptorsForProgression, mem_sortByKey]
    rw [hmem, packetDescriptors_data]
    obtain ⟨l, res, c, i⟩ := d
    simp only [List.mem_flatMap, hperm.mem_iff, mem_splitPackets, List.mem_map, List.mem_range]
    constructor
    · rintro ⟨p, ⟨hres, hc, hi⟩, l, hl, heq⟩
      injection heq with h1 h2 h3 h4
      subst h1 h2 h3 h4
      exact ⟨hl, hres, hc, hi⟩
    · rintro ⟨hl, hres, hc, hi⟩
      exact ⟨⟨c, res, i⟩, ⟨hres, hc, hi⟩, l, hl, rfl⟩

end J2kNative.PacketPlan
