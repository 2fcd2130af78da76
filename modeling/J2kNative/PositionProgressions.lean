import J2kNative.Fallible
import J2kNative.PacketProgression

/-!
# Position progressions

The three progressions by position enumerate the packets in bounds by the
reference-grid positions of their precincts, unless a precinct iterator is refused.
-/
namespace J2kNative.PositionProgressions
open KeyedLists SlotWalks TileTree PacketProgression

theorem mapM_eq_some {α β : Type*} {l : List α} {f : α → Option β} {g : α → β}
    (h : ∀ a ∈ l, f a = some (g a)) : l.mapM f = some (l.map g) := by
  induction l with
  | nil => rfl
  | cons a l ih =>
      rw [List.mapM_cons, h a (by simp), ih fun b hb => h b (by simp [hb])]
      rfl

theorem mapM_eq_none {α β : Type*} {l : List α} {f : α → Option β} {a : α} (ha : a ∈ l)
    (h : f a = none) : l.mapM f = none := by
  induction l with
  | nil => cases ha
  | cons b l ih =>
      rw [List.mapM_cons]
      rcases List.mem_cons.mp ha with rfl | ha
      · rw [h]
        rfl
      · rw [ih ha]
        cases f b <;> rfl

/-- `enumerate().skip(a).take(b - a)`. -/
theorem zipIdx_counter {α : Type*} (l : List α) (d : α) (a b : ℕ) :
    (l.zipIdx.drop a).take (b - a) =
      (counter (a, min b l.length)).map fun i => (l.getD i d, i) := by
  refine List.ext_getElem (by simp [counter]; omega) fun i h _ => ?_
  simp at h
  simp [counter, List.getElem_range']
  rw [List.getElem?_eq_getElem (by omega)]
  simp

/-- The precinct of a packet, as it is sorted. -/
def storeOf (input : IteratorInput) (d : ProgressionData) : PrecinctStore :=
  let tile := input.resolutionTile d.component d.resolution
  ⟨d.resolution, tile.precinctY (d.precinct / tile.numPrecinctsX),
    tile.precinctX (d.precinct % tile.numPrecinctsX), d.component, d.precinct⟩

/-- The precincts of one resolution. -/
def storesOf (input : IteratorInput) (c r : ℕ) : List PrecinctStore :=
  (List.range (input.resolutionTile c r).numPrecincts).map fun i => storeOf input ⟨0, r, c, i⟩

/-- The precincts in bounds before they are sorted. -/
def allStores (input : IteratorInput) : List PrecinctStore :=
  (counter input.components).flatMap fun c =>
    (counter (input.resolutions.1, input.maxResolution c)).flatMap fun r => storesOf input c r

/-- The components sample the grid, on which the tile lies. -/
structure TileOnGrid (tile : Tile) : Prop where
  sampling : ∀ info ∈ tile.componentInfos,
    0 < info.sizeInfo.horizontalResolution ∧ 0 < info.sizeInfo.verticalResolution
  x0 : tile.rect.x0 ≤ u32Max
  y0 : tile.rect.y0 ≤ u32Max

/-- No precinct iterator of the resolutions in bounds is refused. -/
def PrecinctsFormed (input : IteratorInput) : Prop :=
  ∀ c, input.components.1 ≤ c → c < input.components.2 → ∀ r, input.resolutions.1 ≤ r →
    r < input.maxResolution c → (input.resolutionTile c r).PrecinctsFormed

section
variable {input : IteratorInput} {fuel : ℕ} {l : List ProgressionData}

theorem componentInfo_mem (hv : input.Valid) {c : ℕ} (hc : c < input.components.2) :
    input.componentInfo c ∈ input.tile.componentInfos := by
  have := hv.componentCount
  unfold IteratorInput.componentInfo
  rw [List.getD_eq_getElem?_getD, List.getElem?_eq_getElem (by omega), Option.getD_some]
  exact List.getElem_mem _

theorem resolutionTile_cut (hv : input.Valid) (hg : TileOnGrid input.tile) {c : ℕ}
    (hc : c < input.components.2) (r : ℕ) : (input.resolutionTile c r).Cut := by
  obtain ⟨hx, hy⟩ := hg.sampling _ (componentInfo_mem hv hc)
  exact ResolutionTile.cut_new hx hy hg.x0 hg.y0 r

theorem resolutionStores_eq {c r : ℕ} (hcut : (input.resolutionTile c r).Cut)
    (h : (input.resolutionTile c r).PrecinctsFormed) :
    resolutionStores c r (input.resolutionTile c r) = some (storesOf input c r) := by
  unfold resolutionStores
  rw [ResolutionTile.precincts_eq hcut h, Option.map_some, List.map_map]
  rfl

theorem componentStores_eq_mapM (input : IteratorInput) (c : ℕ) :
    componentStores input c (input.componentInfo c) =
      ((counter (input.resolutions.1, input.maxResolution c)).mapM fun r =>
        resolutionStores c r (input.resolutionTile c r)).map List.flatten := by
  have htile : ∀ r ∈ counter (input.resolutions.1, input.maxResolution c),
      ((List.range (input.componentInfo c).parameters.numResolutionLevels).map
        (ResolutionTile.new (input.componentTile c))).getD r
          (ResolutionTile.new (input.componentTile c) 0) = input.resolutionTile c r := by
    intro r hr
    have := (lt_maxResolution_iff.mp (mem_counter.mp hr).2).2
    simp [IteratorInput.resolutionTile, this]
  unfold componentStores
  dsimp only
  rw [zipIdx_counter _ (ResolutionTile.new (input.componentTile c) 0), List.length_map,
    List.length_range, List.mapM_map]
  refine congrArg (Option.map List.flatten) (Fallible.mapM_congr fun r hr => ?_)
  rw [Function.comp_apply]
  exact congrArg (resolutionStores c r) (htile r hr)

theorem components_eq (hv : input.Valid) :
    (input.tile.componentInfos.zipIdx.drop input.components.1).take
        (input.components.2 - input.components.1) =
      (counter input.components).map fun c => (input.componentInfo c, c) := by
  rw [zipIdx_counter _ default, Nat.min_eq_left hv.componentCount]
  rfl

theorem mem_allStores {e : PrecinctStore} : e ∈ allStores input ↔ ∃ d : ProgressionData,
    e = storeOf input d ∧ (input.components.1 ≤ d.component ∧ d.component < input.components.2) ∧
      (input.resolutions.1 ≤ d.resolution ∧ d.resolution < input.maxResolution d.component) ∧
      d.precinct < (input.resolutionTile d.component d.resolution).numPrecincts := by
  simp only [allStores, storesOf, List.mem_flatMap, mem_counter, List.mem_range, List.mem_map]
  constructor
  · rintro ⟨c, hc, r, hr, i, hi, rfl⟩
    exact ⟨⟨0, r, c, i⟩, rfl, hc, hr, hi⟩
  · rintro ⟨d, rfl, hc, hr, hi⟩
    exact ⟨d.component, hc, d.resolution, hr, d.precinct, hi, rfl⟩

theorem allStores_nodup (input : IteratorInput) : (allStores input).Nodup := by
  have h : Enumerated (fun e : PrecinctStore => [e.componentIdx, e.resolution, e.precinctIdx])
      (allStores input) := by
    refine enumerated_flatMap (k := fun e => [e.resolution, e.precinctIdx]) (counter_pairwise _)
      (by grind [storesOf, storeOf]) (fun c => ?_)
    refine enumerated_flatMap (k := fun e => [e.precinctIdx]) (counter_pairwise _)
      (by grind [storesOf, storeOf]) (fun r => ?_)
    exact enumerated_map List.pairwise_lt_range (fun _ => rfl)
  exact h.nodup

theorem componentStores_mapM (hv : input.Valid) (hg : TileOnGrid input.tile)
    (hformed : PrecinctsFormed input) :
    ((input.tile.componentInfos.zipIdx.drop input.components.1).take
      (input.components.2 - input.components.1)).mapM
        (fun (info, componentIdx) => componentStores input componentIdx info) =
      some ((counter input.components).map fun c =>
        (counter (input.resolutions.1, input.maxResolution c)).flatMap fun r =>
          storesOf input c r) := by
  rw [components_eq hv, List.mapM_map]
  refine mapM_eq_some fun c hc => ?_
  obtain ⟨hc, hc'⟩ := mem_counter.mp hc
  rw [Function.comp_apply]
  dsimp only
  have hstores : ∀ r ∈ counter (input.resolutions.1, input.maxResolution c),
      resolutionStores c r (input.resolutionTile c r) = some (storesOf input c r) := by
    intro r hr
    obtain ⟨hr, hr'⟩ := mem_counter.mp hr
    exact resolutionStores_eq (resolutionTile_cut hv hg hc' r) (hformed c hc hc' r hr hr')
  rw [componentStores_eq_mapM, mapM_eq_some hstores]
  rfl

/-- A position progression lists the packets by the sorted key, the layer last. -/
theorem positionProgressionCommon_eq (hv : input.Valid) (hg : TileOnGrid input.tile)
    {sort : PrecinctStore → List ℕ} (hinj : Function.Injective sort)
    (hlen : ∀ e, (sort e).length = 5) (hformed : PrecinctsFormed input) :
    ∃ l, positionProgressionCommon input sort = some l ∧
      Enumerated (fun d => sort (storeOf input d) ++ [d.layerNum]) l ∧
      ∀ d, d ∈ l ↔ input.Within d := by
  have hrun : positionProgressionCommon input sort =
      some ((sortByKey sort (allStores input)).flatMap fun e =>
        (counter input.layers).map fun layer =>
          ⟨layer, e.resolution, e.componentIdx, e.precinctIdx⟩) := by
    unfold positionProgressionCommon
    rw [componentStores_mapM hv hg hformed]
    rfl
  have hsorted := sortByKey_enumerated ((allStores_nodup input).map hinj)
  have hstore {e : PrecinctStore} (he : e ∈ sortByKey sort (allStores input)) (layer : ℕ) :
      storeOf input ⟨layer, e.resolution, e.componentIdx, e.precinctIdx⟩ = e := by
    obtain ⟨d, rfl, -⟩ := mem_allStores.mp (mem_sortByKey.mp he)
    rfl
  refine ⟨_, hrun, ?_, ?_⟩
  · refine List.pairwise_flatMap.mpr ⟨fun e he => ?_, hsorted.imp_of_mem ?_⟩
    · refine List.pairwise_map.mpr ((counter_pairwise input.layers).imp ?_)
      intro a b hab
      dsimp only
      rw [hstore he, hstore he]
      exact (append_lt_append_iff rfl).mpr (.inr ⟨rfl, List.cons_lt_cons_iff.mpr (.inl hab)⟩)
    · intro a b ha hb hab x hx y hy
      obtain ⟨la, -, rfl⟩ := List.mem_map.mp hx
      obtain ⟨lb, -, rfl⟩ := List.mem_map.mp hy
      dsimp only
      rw [hstore ha, hstore hb]
      exact (append_lt_append_iff ((hlen a).trans (hlen b).symm)).mpr (.inl hab)
  · intro d
    simp only [List.mem_flatMap, mem_sortByKey, mem_allStores, List.mem_map, mem_counter]
    constructor
    · rintro ⟨e, ⟨d', rfl, hc, hr, hi⟩, layer, hl, rfl⟩
      exact ⟨hl, hr, hc, hi⟩
    · intro hd
      exact ⟨storeOf input d, ⟨d, rfl, hd.component, hd.resolution, hd.precinct⟩, d.layerNum,
        hd.layer, rfl⟩

/-- A resolution whose precinct iterator is refused fails the whole progression. -/
theorem positionProgressionCommon_eq_none (hv : input.Valid) (sort : PrecinctStore → List ℕ)
    (hformed : ¬ PrecinctsFormed input) : positionProgressionCommon input sort = none := by
  unfold PrecinctsFormed at hformed
  push Not at hformed
  obtain ⟨c, hc, hc', r, hr, hr', hno⟩ := hformed
  have hstores : resolutionStores c r (input.resolutionTile c r) = none := by
    unfold resolutionStores
    rw [ResolutionTile.precincts_eq_none hno, Option.map_none]
  have hr'' : r ∈ counter (input.resolutions.1, input.maxResolution c) := mem_counter.mpr ⟨hr, hr'⟩
  have hcomponent : componentStores input c (input.componentInfo c) = none := by
    rw [componentStores_eq_mapM, mapM_eq_none hr'' hstores, Option.map_none]
  have hmem : (input.componentInfo c, c) ∈
      (counter input.components).map fun c => (input.componentInfo c, c) :=
    List.mem_map.mpr ⟨c, mem_counter.mpr ⟨hc, hc'⟩, rfl⟩
  unfold positionProgressionCommon
  rw [components_eq hv, mapM_eq_none hmem hcomponent]
  rfl

end

end J2kNative.PositionProgressions
