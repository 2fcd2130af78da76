import J2kNative.PacketInclusion

/-!
# Progression changes

A tile with progression changes runs one iterator for each change, within its bounds,
and keeps the first occurrence of every packet. Nothing is lost or repeated as long
as the iterators yield the packets in their bounds.
-/
namespace J2kNative.ProgressionChanges
open TileTree PacketProgression CountingProgressions PositionProgressions PacketIteration
open PacketInclusion

/-- The sequence that a change's iterator yields is that of its progression and bounds. -/
def ChangeSequence (fuel : ℕ) (tile : Tile) (change : ProgressionChange)
    (l : List ProgressionData) : Prop :=
  ∃ input, changeInput tile change = some input ∧
    progressionIteratorForOrder fuel change.progressionOrder input = some l ∧
    Prescribed change.progressionOrder input l

/-- What a tile with progression changes promises of its packet sequence. -/
structure LosesNothing (fuel : ℕ) (tile : Tile) (l : List ProgressionData) : Prop where
  sequences : ∃ sequences, List.Forall₂ (ChangeSequence fuel tile) tile.progressionChanges sequences ∧
    l = emitNew [] sequences.flatten
  nodup : l.Nodup
  complete : ∀ d, d ∈ l ↔ ∃ change ∈ tile.progressionChanges, ∃ input,
    changeInput tile change = some input ∧ input.Within d
  slots : ∀ m, PacketInclusionMap.new tile = some m → ∀ d d', IsTilePacket tile d →
    IsTilePacket tile d' → m.packetOffset d = m.packetOffset d' → d = d'

/-- The condition on a tile's changes: their bounds are not empty, their iterators walk
through them, and the inclusion map fits. -/
def ChangesWalk (tile : Tile) : Prop :=
  inclusionBytes tile ≤ defaultMaxDecodeBytes ∧ ∀ change ∈ tile.progressionChanges,
    ∃ input, changeInput tile change = some input ∧ Walks change.progressionOrder input

section
variable {tile : Tile} {change : ProgressionChange} {input : IteratorInput}

theorem changeInput_spec (h : changeInput tile change = some input) :
    input.Valid ∧ input.tile = tile ∧ input.layers.2 ≤ tile.numLayers := by
  unfold changeInput IteratorInput.tryNewWithCustomBounds at h
  dsimp only at h
  split_ifs at h with h1 h2
  cases h
  refine ⟨⟨by dsimp only; omega, by dsimp only; omega, by dsimp only; omega, ?_⟩, rfl, ?_⟩
  · exact Nat.min_le_right _ _
  · exact Nat.min_le_right _ _

theorem isTilePacket_of_within (h : changeInput tile change = some input) {d : ProgressionData}
    (hd : input.Within d) : IsTilePacket tile d := by
  obtain ⟨hv, rfl, hl⟩ := changeInput_spec h
  exact ⟨hd.layer.2.trans_le hl, hd.component.2.trans_le hv.componentCount,
    (lt_maxResolution_iff.mp hd.resolution.2).2, hd.precinct⟩

/-- The iterator of a change yields the sequence of its progression and bounds. -/
theorem changeSequence_of_walks (ht : Accepted tile) (h : changeInput tile change = some input)
    (hw : Walks change.progressionOrder input) :
    ∃ l, ∀ fuel, l.length < fuel → ChangeSequence fuel tile change l := by
  obtain ⟨hv, htile, -⟩ := changeInput_spec h
  obtain ⟨l, hl, hrun⟩ := progressionIteratorForOrder_spec hv
    (by rw [htile]; exact tileOnGrid ht) hw
  exact ⟨l, fun fuel hfuel => ⟨input, h, hrun fuel hfuel, hl⟩⟩

end

section
variable {tile : Tile} {fuel : ℕ} {changes : List ProgressionChange}
variable {sequences : List (List ProgressionData)}

/-- The iterators of several changes, with fuel enough for each. -/
theorem changeSequences_of_walks (ht : Accepted tile)
    (hw : ∀ change ∈ changes, ∃ input, changeInput tile change = some input ∧
      Walks change.progressionOrder input) :
    ∃ bound sequences, ∀ fuel, bound < fuel →
      List.Forall₂ (ChangeSequence fuel tile) changes sequences := by
  induction changes with
  | nil => exact ⟨0, [], fun _ _ => .nil⟩
  | cons change changes ih =>
      obtain ⟨⟨input, hinput, hwalks⟩, hrest⟩ := List.forall_mem_cons.mp hw
      obtain ⟨l, hl⟩ := changeSequence_of_walks ht hinput hwalks
      obtain ⟨bound, sequences, hall⟩ := ih hrest
      refine ⟨max l.length bound, l :: sequences, fun fuel hfuel => ?_⟩
      exact .cons (hl fuel ((Nat.le_max_left _ _).trans_lt hfuel))
        (hall fuel ((Nat.le_max_right _ _).trans_lt hfuel))

/-- The iterators that `progression_iterator` collects. -/
theorem mapM_of_changeSequences (h : List.Forall₂ (ChangeSequence fuel tile) changes sequences) :
    changes.mapM (fun change => do
      let input ← changeInput tile change
      progressionIteratorForOrder fuel change.progressionOrder input) = some sequences := by
  induction h with
  | nil => rfl
  | @cons change l _ _ hchange _ ih =>
      obtain ⟨input, hinput, hrun, -⟩ := hchange
      have hturn : (do
          let input ← changeInput tile change
          progressionIteratorForOrder fuel change.progressionOrder input) = some l := by
        rw [hinput]
        exact hrun
      rw [List.mapM_cons, hturn, ih]
      rfl

theorem mem_sequences (h : List.Forall₂ (ChangeSequence fuel tile) changes sequences)
    {d : ProgressionData} : d ∈ sequences.flatten ↔ ∃ change ∈ changes, ∃ input,
      changeInput tile change = some input ∧ input.Within d := by
  induction h with
  | nil => simp
  | cons hchange _ ih =>
      obtain ⟨input, hinput, -, hl⟩ := hchange
      rw [List.flatten_cons, List.mem_append, ih, hl.mem_iff, List.exists_mem_cons_iff]
      refine or_congr ⟨fun hd => ⟨input, hinput, hd⟩, ?_⟩ Iff.rfl
      rintro ⟨input', hinput', hd⟩
      rwa [Option.some.inj (hinput.symm.trans hinput')]

/-- The tile's iterator, its changes' sequences given. -/
theorem progressionIterator_changes (ht : Accepted tile) (hne : tile.progressionChanges ≠ [])
    (hall : List.Forall₂ (ChangeSequence fuel tile) tile.progressionChanges sequences)
    {m : PacketInclusionMap} (hm : PacketInclusionMap.new tile = some m) :
    progressionIterator fuel tile = some (emitNew [] sequences.flatten) := by
  have hnumbers := (new_numbers ht hm).1
  have hpackets : ∀ d ∈ sequences.flatten, IsTilePacket tile d := by
    intro d hd
    obtain ⟨change, -, input, hinput, hd⟩ := (mem_sequences hall).mp hd
    exact isTilePacket_of_within hinput hd
  unfold progressionIterator
  rw [if_neg (by simpa using hne), mapM_of_changeSequences hall, Option.bind_eq_bind,
    Option.bind_some, hm, Option.bind_eq_bind, Option.bind_some,
    filter_eq hnumbers hnumbers.holds hpackets]

/-- The decoder's packet sequence is that of the changes in turn, without what was emitted
before, exactly when the iterators of the changes walk through their bounds. -/
theorem progression_changes_iff (ht : Accepted tile) (hne : tile.progressionChanges ≠ []) :
    (∃ fuel l, progressionIterator fuel tile = some l ∧ LosesNothing fuel tile l) ↔
      ChangesWalk tile := by
  constructor
  · rintro ⟨fuel, l, hrun, hl⟩
    constructor
    · unfold progressionIterator at hrun
      rw [if_neg (by simpa using hne)] at hrun
      obtain ⟨_, -, hrun⟩ := Option.bind_eq_some_iff.mp hrun
      obtain ⟨m, hm, -⟩ := Option.bind_eq_some_iff.mp hrun
      exact (new_numbers ht hm).2
    · obtain ⟨sequences, hall, -⟩ := hl.sequences
      intro change hchange
      obtain ⟨k, hk, rfl⟩ := List.mem_iff_getElem.mp hchange
      have hlen := hall.length_eq
      obtain ⟨input, hinput, hrun, hprescribed⟩ := hall.get hk (hlen ▸ hk)
      exact ⟨input, hinput, walks_of_run (changeInput_spec hinput).1 hrun hprescribed⟩
  · rintro ⟨hfit, hwalks⟩
    obtain ⟨m, hm⟩ := new_total ht hfit
    obtain ⟨bound, sequences, hall⟩ := changeSequences_of_walks ht hwalks
    have hall := hall (bound + 1) (Nat.lt_succ_self _)
    refine ⟨bound + 1, _, progressionIterator_changes ht hne hall hm, ⟨sequences, hall, rfl⟩,
      emitNew_nodup _ _, fun d => ?_, fun m' hm' d d' hd hd' heq => ?_⟩
    · rw [mem_emitNew, mem_sequences hall]
      simp
    · exact (new_numbers ht hm').1.inj d d' hd hd' heq

end

/-- The tile of two components with changes in place of its own progression. -/
def changedTile (first second : ℕ) (changes : List ProgressionChange) : Tile :=
  { unevenTile .layerResolutionComponentPosition first second with progressionChanges := changes }

theorem changedTile_accepted {first second : ℕ} (hfirst : first ≤ 32) (hsecond : second ≤ 32)
    (changes : List ProgressionChange) : Accepted (changedTile first second changes) :=
  let h := unevenTile_accepted .layerResolutionComponentPosition hfirst hsecond
  ⟨h.layers, h.components, h.levels, h.exponents, h.sampling, h.width, h.height⟩

/-- Every resolution, then the first component again. -/
def overlappingChanges : List ProgressionChange :=
  [⟨0, 0, 1, 2, 2, .resolutionLayerComponentPosition⟩,
    ⟨0, 0, 1, 2, 1, .layerResolutionComponentPosition⟩]

theorem progression_changes_overlapping : ∃ fuel l,
    progressionIterator fuel (changedTile 1 0 overlappingChanges) = some l ∧
      LosesNothing fuel (changedTile 1 0 overlappingChanges) l := by
  refine (progression_changes_iff (changedTile_accepted (by decide) (by decide) _)
    (List.cons_ne_nil _ _)).mpr ⟨by decide, fun change hchange => ?_⟩
  rcases List.mem_pair.mp hchange with rfl | rfl
  · exact ⟨_, rfl, Nat.zero_lt_succ _⟩
  · exact ⟨_, rfl, by decide, by decide, by decide, by decide, by decide⟩

/-- A change in the layer-resolution order panics where the second component has fewer levels
than the first, and skips the second's upper resolution where it has more. -/
theorem progression_changes_lose :
    (∀ fuel, progressionIterator fuel (changedTile 1 0
      [⟨0, 0, 1, 2, 2, .layerResolutionComponentPosition⟩]) = none) ∧
    ∃ l, progressionIterator 3 (changedTile 0 1
        [⟨0, 0, 1, 2, 2, .layerResolutionComponentPosition⟩]) = some l ∧
      ⟨0, 1, 1, 0⟩ ∉ l ∧ ∃ input, changeInput (changedTile 0 1
          [⟨0, 0, 1, 2, 2, .layerResolutionComponentPosition⟩])
        ⟨0, 0, 1, 2, 2, .layerResolutionComponentPosition⟩ = some input ∧
          input.Within ⟨0, 1, 1, 0⟩ := by
  constructor
  · intro fuel
    refine Option.eq_none_iff_forall_ne_some.mpr fun l hrun => ?_
    obtain ⟨sequences, hsequences, -⟩ := Option.bind_eq_some_iff.mp hrun
    rw [show (changedTile 1 0 [⟨0, 0, 1, 2, 2, .layerResolutionComponentPosition⟩]).progressionChanges
      = [⟨0, 0, 1, 2, 2, .layerResolutionComponentPosition⟩] from rfl, List.mapM_cons] at hsequences
    obtain ⟨_, hchange, -⟩ := Option.bind_eq_some_iff.mp hsequences
    obtain ⟨input, hinput, hchange⟩ := Option.bind_eq_some_iff.mp hchange
    have hv := (changeInput_spec hinput).1
    obtain rfl := Option.some.inj hinput
    obtain ⟨n, -, henter, -⟩ := (layerResolution_run hv (by decide)).mp hchange
    exact henter (0, 1, 1) (by decide) (by decide)
  · exact ⟨[⟨0, 0, 0, 0⟩, ⟨0, 0, 1, 0⟩], by decide, by decide, _, rfl, by decide, by decide,
      by decide, by decide⟩

end J2kNative.ProgressionChanges
