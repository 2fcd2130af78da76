import J2kNative.CountingProgressions
import J2kNative.PositionProgressions

/-!
# Packet iteration of a tile

Which tiles and orders the decoder's packet iterator serves. The prescribed order is
that of the fields of the progression, a precinct standing by its position on the
reference grid in the three progressions by position. Tiles whose headers carry no
progression changes.
-/
namespace J2kNative.PacketIteration
open KeyedLists SlotWalks TileTree PacketProgression CountingProgressions PositionProgressions

/-- The fields that a progression compares, in its order. -/
def packetKey (progressionOrder : ProgressionOrder) (input : IteratorInput) (d : ProgressionData) :
    List ℕ :=
  let { precinctY, precinctX, .. } := storeOf input d
  match progressionOrder with
  | .layerResolutionComponentPosition => layerResolutionKey d
  | .resolutionLayerComponentPosition => resolutionLayerKey d
  | .resolutionPositionComponentLayer =>
      [d.resolution, precinctY, precinctX, d.component, d.precinct, d.layerNum]
  | .positionComponentResolutionLayer =>
      [precinctY, precinctX, d.component, d.resolution, d.precinct, d.layerNum]
  | .componentPositionResolutionLayer =>
      [d.component, precinctY, precinctX, d.resolution, d.precinct, d.layerNum]

/-- The packets in bounds, each once, in the order of the progression. -/
structure Prescribed (progressionOrder : ProgressionOrder) (input : IteratorInput)
    (l : List ProgressionData) : Prop where
  enumerated : Enumerated (packetKey progressionOrder input) l
  mem_iff : ∀ d, d ∈ l ↔ input.Within d

/-- What an iterator needs of its bounds to yield the packets in them. -/
def Walks (progressionOrder : ProgressionOrder) (input : IteratorInput) : Prop :=
  match progressionOrder with
  | .layerResolutionComponentPosition => LayerResolutionWalks input
  | .resolutionLayerComponentPosition => input.resolutions.1 <
      (input.componentInfo input.components.1).parameters.numResolutionLevels
  | _ => PrecinctsFormed input

section
variable {progressionOrder : ProgressionOrder} {input : IteratorInput} {fuel : ℕ}
variable {l : List ProgressionData}

theorem positionProgression_spec (hv : input.Valid) (hg : TileOnGrid input.tile)
    (sort : PrecinctStore → List ℕ) (hinj : Function.Injective sort)
    (hlen : ∀ e, (sort e).length = 5)
    (hkey : ∀ d, packetKey progressionOrder input d = sort (storeOf input d) ++ [d.layerNum])
    (hwalks : PrecinctsFormed input) :
    ∃ l, Prescribed progressionOrder input l ∧ positionProgressionCommon input sort = some l := by
  obtain ⟨l, hrun, hl, hmem⟩ := positionProgressionCommon_eq hv hg hinj hlen hwalks
  exact ⟨l, ⟨by rwa [funext hkey], hmem⟩, hrun⟩

/-- The iterator yields the prescribed packets. -/
theorem progressionIteratorForOrder_spec (hv : input.Valid) (hg : TileOnGrid input.tile)
    (h : Walks progressionOrder input) : ∃ l, Prescribed progressionOrder input l ∧
      ∀ fuel, l.length < fuel → progressionIteratorForOrder fuel progressionOrder input = some l := by
  cases progressionOrder with
  | layerResolutionComponentPosition =>
      have hl := @counterPackets_enumerated layerResolutionKey layerResolutionSlot
        (fun _ _ => rfl) (slotCount input) input.layers
        (input.resolutions.1, input.maxResolution input.components.1) input.components
      have hmem (d : ProgressionData) := within_iff_layerResolution h (d := d)
      exact ⟨_, ⟨hl, hmem⟩, fun _ hfuel => layerResolution_spec hv h hl hmem hfuel⟩
  | resolutionLayerComponentPosition =>
      have hl := @counterPackets_enumerated resolutionLayerKey resolutionLayerSlot
        (fun _ _ => rfl) (existingCount input) input.resolutions input.layers input.components
      have hmem (d : ProgressionData) := @within_iff_resolutionLayer input d
      exact ⟨_, ⟨hl, hmem⟩, fun _ hfuel => resolutionLayer_spec hv h hl hmem hfuel⟩
  | resolutionPositionComponentLayer =>
      obtain ⟨l, hl, hrun⟩ := @positionProgression_spec .resolutionPositionComponentLayer input hv hg
        (fun p => [p.resolution, p.precinctY, p.precinctX, p.componentIdx, p.precinctIdx])
        (fun a b hab => by cases a; cases b; simp_all) (fun _ => rfl) (fun _ => rfl) h
      exact ⟨l, hl, fun _ _ => hrun⟩
  | positionComponentResolutionLayer =>
      obtain ⟨l, hl, hrun⟩ := @positionProgression_spec .positionComponentResolutionLayer input hv hg
        (fun p => [p.precinctY, p.precinctX, p.componentIdx, p.resolution, p.precinctIdx])
        (fun a b hab => by cases a; cases b; simp_all) (fun _ => rfl) (fun _ => rfl) h
      exact ⟨l, hl, fun _ _ => hrun⟩
  | componentPositionResolutionLayer =>
      obtain ⟨l, hl, hrun⟩ := @positionProgression_spec .componentPositionResolutionLayer input hv hg
        (fun p => [p.componentIdx, p.precinctY, p.precinctX, p.resolution, p.precinctIdx])
        (fun a b hab => by cases a; cases b; simp_all) (fun _ => rfl) (fun _ => rfl) h
      exact ⟨l, hl, fun _ _ => hrun⟩

theorem precinctsFormed_of_run (hv : input.Valid) {sort : PrecinctStore → List ℕ}
    (hrun : positionProgressionCommon input sort = some l) : PrecinctsFormed input := by
  by_contra h
  rw [positionProgressionCommon_eq_none hv sort h] at hrun
  cases hrun

/-- It yields them only then. -/
theorem walks_of_run (hv : input.Valid)
    (hrun : progressionIteratorForOrder fuel progressionOrder input = some l)
    (hl : Prescribed progressionOrder input l) : Walks progressionOrder input := by
  cases progressionOrder with
  | layerResolutionComponentPosition => exact layerResolution_walks hv hrun hl.mem_iff
  | resolutionLayerComponentPosition => exact ((resolutionLayer_run hv).mp hrun).1
  | resolutionPositionComponentLayer => exact precinctsFormed_of_run hv hrun
  | positionComponentResolutionLayer => exact precinctsFormed_of_run hv hrun
  | componentPositionResolutionLayer => exact precinctsFormed_of_run hv hrun

end

/-! ## The whole tile -/

/-- What the parser guarantees of a tile: the checks of SIZ, COD and COC. -/
structure Accepted (tile : Tile) : Prop where
  layers : 0 < tile.numLayers ∧ tile.numLayers ≤ 32
  components : 0 < tile.componentInfos.length ∧ tile.componentInfos.length ≤ 16384
  levels : ∀ info ∈ tile.componentInfos, info.parameters.numDecompositionLevels ≤ 32 ∧
    info.parameters.numResolutionLevels = info.parameters.numDecompositionLevels + 1
  exponents : ∀ info ∈ tile.componentInfos,
    info.parameters.precinctExponents.length = info.parameters.numResolutionLevels ∧
      ∀ e ∈ info.parameters.precinctExponents, e.1 < 16 ∧ e.2 < 16
  sampling : ∀ info ∈ tile.componentInfos,
    (0 < info.sizeInfo.horizontalResolution ∧ info.sizeInfo.horizontalResolution < 256) ∧
      0 < info.sizeInfo.verticalResolution ∧ info.sizeInfo.verticalResolution < 256
  width : tile.rect.x0 < tile.rect.x1 ∧ tile.rect.x1 ≤ u32Max
  height : tile.rect.y0 < tile.rect.y1 ∧ tile.rect.y1 ≤ u32Max

/-- Resolution levels of a component. -/
def levelsOf (tile : Tile) (c : ℕ) : ℕ :=
  (tile.componentInfos.getD c default).parameters.numResolutionLevels

def resolutionTileOf (tile : Tile) (c r : ℕ) : ResolutionTile :=
  ResolutionTile.new (ComponentTile.new tile.rect (tile.componentInfos.getD c default)) r

/-- The packets of a tile. -/
structure IsTilePacket (tile : Tile) (d : ProgressionData) : Prop where
  layer : d.layerNum < tile.numLayers
  component : d.component < tile.componentInfos.length
  resolution : d.resolution < levelsOf tile d.component
  precinct : d.precinct < (resolutionTileOf tile d.component d.resolution).numPrecincts

def maxResolutionOf (tile : Tile) : ℕ :=
  (tile.componentInfos.map fun c => c.parameters.numResolutionLevels).foldr max 0

/-- The bounds of the whole tile. -/
def tileInput (tile : Tile) : IteratorInput :=
  ⟨(0, tile.numLayers), tile, (0, maxResolutionOf tile), (0, tile.componentInfos.length)⟩

section
variable {tile : Tile}

theorem le_maxResolutionOf {info : ComponentInfo} (h : info ∈ tile.componentInfos) :
    info.parameters.numResolutionLevels ≤ maxResolutionOf tile := by
  unfold maxResolutionOf
  generalize tile.componentInfos = infos at h
  induction infos with
  | nil => cases h
  | cons a infos ih =>
      rw [List.map_cons, List.foldr_cons]
      rcases List.mem_cons.mp h with rfl | h
      · exact Nat.le_max_left _ _
      · exact (ih h).trans (Nat.le_max_right _ _)

theorem maxResolutionOf_le (h : Accepted tile) : maxResolutionOf tile ≤ 33 := by
  unfold maxResolutionOf
  have hlevels := h.levels
  generalize tile.componentInfos = infos at hlevels
  induction infos with
  | nil => exact Nat.zero_le _
  | cons a infos ih =>
      obtain ⟨ha, hrest⟩ := List.forall_mem_cons.mp hlevels
      rw [List.map_cons, List.foldr_cons]
      refine Nat.max_le.mpr ⟨?_, ih hrest⟩
      omega

theorem info_mem {c : ℕ} (hc : c < tile.componentInfos.length) :
    tile.componentInfos.getD c default ∈ tile.componentInfos := by
  rw [List.getD_eq_getElem?_getD, List.getElem?_eq_getElem hc, Option.getD_some]
  exact List.getElem_mem _

theorem levelsOf_pos (h : Accepted tile) {c : ℕ} (hc : c < tile.componentInfos.length) :
    0 < levelsOf tile c := by
  have := (h.levels _ (info_mem hc)).2
  unfold levelsOf
  omega

theorem tileInput_valid (h : Accepted tile) : (tileInput tile).Valid where
  layers := h.layers.1
  resolutions := (levelsOf_pos h h.components.1).trans_le
    (le_maxResolutionOf (info_mem h.components.1))
  components := h.components.1
  componentCount := le_rfl

theorem tileInput_eq (h : Accepted tile) : IteratorInput.new tile = some (tileInput tile) := by
  have hv := tileInput_valid h
  have hmax := maxResolutionOf_le h
  have h1 := h.layers
  have h2 := h.components
  have hpos : 0 < maxResolutionOf tile := hv.resolutions
  unfold IteratorInput.new IteratorInput.tryNewWithCustomBounds
  dsimp only
  rw [show (tile.componentInfos.map fun c => c.parameters.numResolutionLevels).foldr max 0 =
      maxResolutionOf tile from rfl, Nat.min_eq_right (by omega : maxResolutionOf tile ≤ 255),
    Nat.min_eq_right (by omega : tile.numLayers ≤ 255),
    Nat.min_eq_right (by omega : tile.componentInfos.length ≤ 65535), if_neg (by omega),
    if_neg (by omega)]
  rfl

theorem tileOnGrid (h : Accepted tile) : TileOnGrid tile where
  sampling info hinfo := ⟨(h.sampling info hinfo).1.1, (h.sampling info hinfo).2.1⟩
  x0 := h.width.1.le.trans h.width.2
  y0 := h.height.1.le.trans h.height.2

theorem tileInput_maxResolution {c : ℕ} (hc : c < tile.componentInfos.length) :
    (tileInput tile).maxResolution c = levelsOf tile c :=
  Nat.min_eq_right (le_maxResolutionOf (info_mem hc))

theorem within_tileInput_iff {d : ProgressionData} :
    (tileInput tile).Within d ↔ IsTilePacket tile d := by
  constructor
  · intro hd
    exact ⟨hd.layer.2, hd.component.2,
      (tileInput_maxResolution hd.component.2) ▸ hd.resolution.2, hd.precinct⟩
  · intro hd
    exact ⟨⟨Nat.zero_le _, hd.layer⟩,
      ⟨Nat.zero_le _, (tileInput_maxResolution hd.component).symm ▸ hd.resolution⟩,
      ⟨Nat.zero_le _, hd.component⟩, hd.precinct⟩

/-- The condition on a tile under which its packets are iterated. -/
def Iterates (tile : Tile) : Prop :=
  match tile.progressionOrder with
  | .layerResolutionComponentPosition => ∀ c < tile.componentInfos.length,
      levelsOf tile 0 ≤ levelsOf tile c ∧ ∀ r < levelsOf tile c, levelsOf tile 0 ≤ r →
        (resolutionTileOf tile c r).numPrecincts = 0
  | .resolutionLayerComponentPosition => True
  | _ => ∀ c < tile.componentInfos.length, ∀ r < levelsOf tile c,
      (resolutionTileOf tile c r).PrecinctsFormed

theorem precinctsFormed_tileInput_iff : PrecinctsFormed (tileInput tile) ↔
    ∀ c < tile.componentInfos.length, ∀ r < levelsOf tile c,
      (resolutionTileOf tile c r).PrecinctsFormed := by
  constructor
  · exact fun h c hc r hr => h c (Nat.zero_le _) hc r (Nat.zero_le _)
      ((tileInput_maxResolution hc).symm ▸ hr)
  · exact fun h c _ hc r _ hr => h c hc r ((tileInput_maxResolution hc) ▸ hr)

theorem walks_tileInput_iff (h : Accepted tile) :
    Walks tile.progressionOrder (tileInput tile) ↔ Iterates tile := by
  have hlevels := levelsOf_pos h h.components.1
  have hzero := @tileInput_maxResolution tile 0 h.components.1
  unfold Walks Iterates
  cases tile.progressionOrder with
  | layerResolutionComponentPosition =>
      constructor
      · intro hw c hc
        have hle := hw.levels c (Nat.zero_le _) hc
        refine ⟨hzero ▸ hle, fun r hr hr' => ?_⟩
        exact hw.beyond c (Nat.zero_le _) hc r (hzero.symm ▸ hr')
          ((tileInput_maxResolution hc).symm ▸ hr)
      · intro hall
        refine ⟨hlevels, hzero.symm ▸ hlevels, rfl, fun c _ hc => ?_, fun c _ hc r hr hr' => ?_⟩
        · exact hzero.symm ▸ (hall c hc).1
        · exact (hall c hc).2 r ((tileInput_maxResolution hc) ▸ hr') (hzero ▸ hr)
  | resolutionLayerComponentPosition => exact iff_of_true hlevels trivial
  | resolutionPositionComponentLayer => exact precinctsFormed_tileInput_iff
  | positionComponentResolutionLayer => exact precinctsFormed_tileInput_iff
  | componentPositionResolutionLayer => exact precinctsFormed_tileInput_iff

theorem progressionIterator_eq (h : Accepted tile) (hnil : tile.progressionChanges = [])
    (fuel : ℕ) : progressionIterator fuel tile =
      progressionIteratorForOrder fuel tile.progressionOrder (tileInput tile) := by
  unfold progressionIterator
  rw [if_pos (by rw [hnil]; rfl), tileInput_eq h]
  rfl

/-- The iterator of a tile without progression changes ends and yields every packet of the
tile once, in the order of the progression, exactly when `Iterates` holds of the tile. -/
theorem packet_iteration_iff (h : Accepted tile) (hnil : tile.progressionChanges = []) :
    (∃ fuel l, progressionIterator fuel tile = some l ∧ (∀ d, d ∈ l ↔ IsTilePacket tile d) ∧
      Enumerated (packetKey tile.progressionOrder (tileInput tile)) l) ↔ Iterates tile := by
  rw [← walks_tileInput_iff h]
  constructor
  · rintro ⟨fuel, l, hrun, hmem, hl⟩
    rw [progressionIterator_eq h hnil] at hrun
    exact walks_of_run (tileInput_valid h) hrun
      ⟨hl, fun d => (hmem d).trans within_tileInput_iff.symm⟩
  · intro hw
    obtain ⟨l, hl, hrun⟩ := progressionIteratorForOrder_spec (tileInput_valid h) (tileOnGrid h) hw
    refine ⟨l.length + 1, l, ?_, fun d => (hl.mem_iff d).trans within_tileInput_iff, hl.enumerated⟩
    rw [progressionIterator_eq h hnil]
    exact hrun _ (Nat.lt_succ_self _)

end

/-- An 8 by 8 tile of two components with their own numbers of decomposition levels. -/
def unevenTile (progressionOrder : ProgressionOrder) (first second : ℕ) : Tile where
  rect := ⟨0, 0, 8, 8⟩
  componentInfos := [first, second].map fun levels =>
    ⟨⟨1, 1⟩, ⟨levels, levels + 1, 6, 6, List.replicate (levels + 1) (15, 15)⟩⟩
  progressionOrder := progressionOrder
  progressionChanges := []
  numLayers := 1

theorem unevenTile_accepted (progressionOrder : ProgressionOrder) {first second : ℕ}
    (hfirst : first ≤ 32) (hsecond : second ≤ 32) :
    Accepted (unevenTile progressionOrder first second) := by
  constructor
  case levels => simp [unevenTile, hfirst, hsecond]
  all_goals simp [unevenTile, u32Max]

theorem packet_iteration_uneven_levels : ∃ fuel l,
    progressionIterator fuel (unevenTile .resolutionLayerComponentPosition 1 0) = some l ∧
      (∀ d, d ∈ l ↔ IsTilePacket (unevenTile .resolutionLayerComponentPosition 1 0) d) ∧
      Enumerated (packetKey .resolutionLayerComponentPosition
        (tileInput (unevenTile .resolutionLayerComponentPosition 1 0))) l :=
  (packet_iteration_iff (unevenTile_accepted _ (by decide) (by decide)) rfl).mpr trivial

/-- In the layer-resolution order the iterator panics where the second component has fewer
levels than the first, and leaves out the second's upper resolution where it has more. -/
theorem packet_iteration_fails :
    (∀ fuel, progressionIterator fuel (unevenTile .layerResolutionComponentPosition 1 0) = none) ∧
    (∃ l, progressionIterator 3 (unevenTile .layerResolutionComponentPosition 0 1) = some l ∧
      IsTilePacket (unevenTile .layerResolutionComponentPosition 0 1) ⟨0, 1, 1, 0⟩ ∧
      ⟨0, 1, 1, 0⟩ ∉ l) := by
  constructor
  · intro fuel
    have h := unevenTile_accepted .layerResolutionComponentPosition
      (by decide : 1 ≤ 32) (by decide : 0 ≤ 32)
    refine Option.eq_none_iff_forall_ne_some.mpr fun l hrun => ?_
    rw [progressionIterator_eq h rfl] at hrun
    obtain ⟨n, -, henter, -⟩ := (layerResolution_run (tileInput_valid h) (by decide)).mp hrun
    exact henter (0, 1, 1) (by decide) (by decide)
  · exact ⟨[⟨0, 0, 0, 0⟩, ⟨0, 0, 1, 0⟩], by decide,
      ⟨by decide, by decide, by decide, by decide⟩, by decide⟩

end J2kNative.PacketIteration
