import J2kNative.PacketProgression

/-!
# Counting progressions

What the nested counters of the layer and resolution progressions walk through. The
resolution-layer progression passes over resolutions that a component lacks. The
layer-resolution progression takes the first component's number of resolutions for
that of all: where another component has fewer it panics, where one has more it
leaves packets out.
-/
namespace J2kNative.CountingProgressions
open KeyedLists SlotWalks TileTree PacketProgression

section
variable {input : IteratorInput} {fuel : ℕ} {l : List ProgressionData}

theorem enter_eq_some_iff {s : PacketSlot} {n : ℕ} : input.enter s = some n ↔
    s.resolution < (input.componentInfo s.componentIdx).parameters.numResolutionLevels ∧
      n = (input.resolutionTile s.componentIdx s.resolution).numPrecincts := by
  have hinfo : (input.componentTile s.componentIdx).componentInfo =
      input.componentInfo s.componentIdx := rfl
  unfold IteratorInput.enter ResolutionTile.tryNew
  rw [hinfo]
  split_ifs with h
  · simp [IteratorInput.resolutionTile, h, eq_comm]
  · simpa using fun h' => absurd h' h

theorem enter_ne_none_iff {s : PacketSlot} : input.enter s ≠ none ↔
    s.resolution < (input.componentInfo s.componentIdx).parameters.numResolutionLevels := by
  rw [Option.ne_none_iff_exists']
  simp [enter_eq_some_iff]

theorem ends_eq_false {s : PacketSlot} (hl : s.layer < input.layers.2)
    (hr : s.resolution < input.resolutions.2) : input.ends s = false := by
  unfold IteratorInput.ends
  exact decide_eq_false (by omega)

/-- The slots of the layer-resolution order. -/
def layerResolutionSlot (s : ℕ × ℕ × ℕ) : PacketSlot := ⟨s.1, s.2.1, s.2.2⟩

/-- The slots of the resolution-layer order. -/
def resolutionLayerSlot (s : ℕ × ℕ × ℕ) : PacketSlot := ⟨s.2.1, s.1, s.2.2⟩

theorem layerResolutionTurn_eq (input : IteratorInput) (s : ℕ × ℕ × ℕ) (p n : ℕ) :
    layerResolutionTurn input ⟨layerResolutionSlot s, p, n⟩ =
      match successor input.layers (input.resolutions.1, input.maxResolution input.components.1)
        input.components s with
      | none => .exhausted
      | some t => arrive input.enter (layerResolutionSlot t) := by
  unfold layerResolutionTurn successor layerResolutionSlot
  dsimp only
  split_ifs <;> rfl

theorem resolutionLayerTurn_eq (input : IteratorInput) (s : ℕ × ℕ × ℕ) (p n : ℕ) :
    resolutionLayerTurn input ⟨resolutionLayerSlot s, p, n⟩ =
      match successor input.resolutions input.layers input.components s with
      | none => .exhausted
      | some t => arrive input.enterExisting (resolutionLayerSlot t) := by
  unfold resolutionLayerTurn successor resolutionLayerSlot
  dsimp only
  split_ifs <;> rfl

theorem counters_length (A B C : ℕ × ℕ) :
    (counters A B C).length = (A.2 - A.1) * (B.2 - B.1) * (C.2 - C.1) := by
  simp [counters, counter, List.length_flatMap, Nat.mul_assoc]

/-- The packets of the slots that three counters lead through, with `count` precincts in
each. -/
def counterPackets (slot : ℕ × ℕ × ℕ → PacketSlot) (count : PacketSlot → ℕ) (A B C : ℕ × ℕ) :
    List ProgressionData :=
  (counters A B C).flatMap fun s => itemsFrom PacketSlot.packet (slot s) 0 (count (slot s))

/-- A counting progression from the counters' first values: the first slot counts as it
was entered, the others are entered in turn. -/
theorem countingProgression_iff {turn : Cursor PacketSlot → Outcome (Cursor PacketSlot)}
    {enter : PacketSlot → Option ℕ} {slot : ℕ × ℕ × ℕ → PacketSlot} {A B C : ℕ × ℕ}
    (hA : A.1 < A.2) (hB : B.1 < B.2) (hC : C.1 < C.2)
    (hends : ∀ s : ℕ × ℕ × ℕ, s.1 < A.2 ∧ s.2.1 < B.2 ∧ s.2.2 < C.2 →
      input.ends (slot s) = false)
    (hturn : ∀ s p n, turn ⟨slot s, p, n⟩ = match successor A B C s with
      | none => .exhausted
      | some t => arrive enter (slot t))
    (hturns : (counters A B C).length ≤ input.turns) {first : Option ℕ} :
    countingProgression fuel input turn (slot (A.1, B.1, C.1)) first = some l ↔
      ∃ n, first = some n ∧
        (∀ s ∈ countersAfter A B C (A.1, B.1, C.1), enter (slot s) ≠ none) ∧
        l = itemsFrom PacketSlot.packet (slot (A.1, B.1, C.1)) 0 n ++
          (countersAfter A B C (A.1, B.1, C.1)).flatMap (fun s =>
            itemsFrom PacketSlot.packet (slot s) 0 ((enter (slot s)).getD 0)) ∧
        l.length < fuel := by
  have hfollows := follows_counters hB hC hends hturn (s := (A.1, B.1, C.1)) ⟨hA, hB, hC⟩
  rw [counters_cons hA hB hC, List.length_cons] at hturns
  unfold countingProgression
  rw [Option.bind_eq_some_iff]
  refine exists_congr fun n => and_congr_right fun _ => ?_
  rw [collect_nextItem_iff (by rw [List.length_map]; omega) (Nat.zero_le n) hfollows,
    Option.map_eq_some_iff]
  simp only [slotItems_eq_some_iff, List.forall_mem_map, List.flatMap_map]
  constructor
  · rintro ⟨⟨_, ⟨hall, rfl⟩, rfl⟩, hfuel⟩
    exact ⟨hall, rfl, hfuel⟩
  · rintro ⟨hall, rfl, hfuel⟩
    exact ⟨⟨_, ⟨hall, rfl⟩, rfl⟩, hfuel⟩

theorem counters_enumerated (A B C : ℕ × ℕ) :
    Enumerated (fun s : ℕ × ℕ × ℕ => [s.1, s.2.1, s.2.2]) (counters A B C) := by
  refine enumerated_flatMap (k := fun s => [s.2.1, s.2.2]) (counter_pairwise A) (by grind)
    fun o => ?_
  refine enumerated_flatMap (k := fun s => [s.2.2]) (counter_pairwise B) (by grind) fun m => ?_
  exact enumerated_map (counter_pairwise C) fun _ => rfl

theorem counterPackets_enumerated {key : ProgressionData → List ℕ}
    {slot : ℕ × ℕ × ℕ → PacketSlot} (hkey : ∀ s p, key ((slot s).packet p) = [s.1, s.2.1, s.2.2, p])
    (count : PacketSlot → ℕ) (A B C : ℕ × ℕ) :
    Enumerated key (counterPackets slot count A B C) := by
  refine List.pairwise_flatMap.mpr ⟨fun s _ => ?_, (counters_enumerated A B C).imp ?_⟩
  · refine List.pairwise_map.mpr (List.Pairwise.imp ?_ (List.pairwise_lt_range' (s := 0)))
    intro p q hpq
    rw [hkey, hkey]
    exact (append_lt_append_iff (s := [s.1, s.2.1, s.2.2]) rfl).mpr
      (.inr ⟨rfl, List.cons_lt_cons_iff.mpr (.inl hpq)⟩)
  · intro s t hst a ha b hb
    obtain ⟨p, -, rfl⟩ := List.mem_map.mp ha
    obtain ⟨q, -, rfl⟩ := List.mem_map.mp hb
    rw [hkey, hkey]
    exact (append_lt_append_iff (s := [s.1, s.2.1, s.2.2]) (t := [t.1, t.2.1, t.2.2]) rfl).mpr
      (.inl hst)

theorem mem_itemsFrom {s : PacketSlot} {n : ℕ} {d : ProgressionData} :
    d ∈ itemsFrom PacketSlot.packet s 0 n ↔
      s = ⟨d.layerNum, d.resolution, d.component⟩ ∧ d.precinct < n := by
  obtain ⟨la, r, c, p⟩ := d
  obtain ⟨la', r', c'⟩ := s
  simp only [itemsFrom, PacketSlot.packet, Nat.sub_zero, List.mem_map, List.mem_range'_1,
    ProgressionData.mk.injEq, PacketSlot.mk.injEq]
  constructor
  · rintro ⟨q, hq, rfl, rfl, rfl, rfl⟩
    exact ⟨⟨rfl, rfl, rfl⟩, by omega⟩
  · rintro ⟨⟨rfl, rfl, rfl⟩, hp⟩
    exact ⟨p, by omega, rfl, rfl, rfl, rfl⟩

theorem mem_counterPackets {slot : ℕ × ℕ × ℕ → PacketSlot} {count : PacketSlot → ℕ}
    {A B C : ℕ × ℕ} {d : ProgressionData} : d ∈ counterPackets slot count A B C ↔
      ∃ s ∈ counters A B C, slot s = ⟨d.layerNum, d.resolution, d.component⟩ ∧
        d.precinct < count (slot s) := by
  simp only [counterPackets, List.mem_flatMap, mem_itemsFrom]

/-- Precincts of a slot. -/
def slotCount (input : IteratorInput) (s : PacketSlot) : ℕ :=
  (input.resolutionTile s.componentIdx s.resolution).numPrecincts

theorem enter_eq {s : PacketSlot}
    (h : s.resolution < (input.componentInfo s.componentIdx).parameters.numResolutionLevels) :
    input.enter s = some (slotCount input s) :=
  enter_eq_some_iff.mpr ⟨h, rfl⟩

theorem turns_le (hv : input.Valid) : input.components.2 - input.components.1 < input.turns := by
  have hl := hv.layers
  have hr := hv.resolutions
  have hpos : 0 < (input.layers.2 - input.layers.1) * (input.resolutions.2 - input.resolutions.1) :=
    Nat.mul_pos (by omega) (by omega)
  exact Nat.lt_succ_of_le (Nat.le_mul_of_pos_left _ hpos)

theorem counters_length_le (input : IteratorInput) {R : ℕ} (hR : R ≤ input.resolutions.2) :
    (counters input.layers (input.resolutions.1, R) input.components).length ≤ input.turns ∧
      (counters (input.resolutions.1, R) input.layers input.components).length ≤ input.turns := by
  have hle : R - input.resolutions.1 ≤ input.resolutions.2 - input.resolutions.1 := by omega
  have hprod := Nat.mul_le_mul_right (input.components.2 - input.components.1)
    (Nat.mul_le_mul_left (input.layers.2 - input.layers.1) hle)
  rw [counters_length, counters_length, Nat.mul_comm (R - input.resolutions.1)]
  exact ⟨hprod.trans (Nat.le_succ _), hprod.trans (Nat.le_succ _)⟩

/-! ## Layer, resolution, component, position -/

/-- The bounds and levels under which the layer-resolution progression yields the packets
in bounds. The walk takes the first component's number of resolutions for that of all, and
the precincts of the very first slot from the tile's first component. -/
structure LayerResolutionWalks (input : IteratorInput) : Prop where
  firstTile : input.resolutions.1 < (input.componentInfo 0).parameters.numResolutionLevels
  first : input.resolutions.1 < input.maxResolution input.components.1
  firstCount : (input.resolutionTile 0 input.resolutions.1).numPrecincts =
    (input.resolutionTile input.components.1 input.resolutions.1).numPrecincts
  levels : ∀ c, input.components.1 ≤ c → c < input.components.2 →
    input.maxResolution input.components.1 ≤
      (input.componentInfo c).parameters.numResolutionLevels
  beyond : ∀ c, input.components.1 ≤ c → c < input.components.2 → ∀ r,
    input.maxResolution input.components.1 ≤ r → r < input.maxResolution c →
      (input.resolutionTile c r).numPrecincts = 0

theorem layerResolution_run (hv : input.Valid)
    (hfirst : input.resolutions.1 < input.maxResolution input.components.1) :
    layerResolutionComponentPositionProgression fuel input = some l ↔
      ∃ n, input.enter ⟨input.layers.1, input.resolutions.1, 0⟩ = some n ∧
        (∀ s ∈ countersAfter input.layers
            (input.resolutions.1, input.maxResolution input.components.1) input.components
            (input.layers.1, input.resolutions.1, input.components.1),
          input.enter (layerResolutionSlot s) ≠ none) ∧
        l = itemsFrom PacketSlot.packet
            ⟨input.layers.1, input.resolutions.1, input.components.1⟩ 0 n ++
          (countersAfter input.layers
            (input.resolutions.1, input.maxResolution input.components.1) input.components
            (input.layers.1, input.resolutions.1, input.components.1)).flatMap (fun s =>
              itemsFrom PacketSlot.packet (layerResolutionSlot s) 0
                ((input.enter (layerResolutionSlot s)).getD 0)) ∧
        l.length < fuel :=
  @countingProgression_iff _ _ _ _ _ layerResolutionSlot _ _ _ hv.layers hfirst hv.components
    (fun _ hs => ends_eq_false hs.1 (hs.2.1.trans_le (maxResolution_le _ _)))
    (layerResolutionTurn_eq input) (counters_length_le input (maxResolution_le _ _)).1 _

/-- Where the first component of the bounds lacks the lowest resolution, the walk runs on to
the next resolution and panics there. -/
theorem layerResolution_panics (hv : input.Valid)
    (hfirst : input.maxResolution input.components.1 ≤ input.resolutions.1) :
    layerResolutionComponentPositionProgression fuel input = none := by
  have hr := hv.resolutions
  have hlacks : ¬ input.resolutions.1 + 1 <
      (input.componentInfo input.components.1).parameters.numResolutionLevels := by
    have := (@lt_maxResolution_iff input input.components.1 input.resolutions.1)
    omega
  have hpanic : input.enter ⟨input.layers.1, input.resolutions.1 + 1, input.components.1⟩ = none :=
    not_not.mp fun h => hlacks (enter_ne_none_iff.mp h)
  have hends (c : ℕ) : input.ends ⟨input.layers.1, input.resolutions.1, c⟩ = false :=
    ends_eq_false hv.layers hr
  have hfollows (k c : ℕ) (hk : c + k + 1 = input.components.2) :
      Follows input.ends (layerResolutionTurn input) input.enter
        ⟨input.layers.1, input.resolutions.1, c⟩
        ((List.range' (c + 1) k).map (fun c => ⟨input.layers.1, input.resolutions.1, c⟩) ++
          [⟨input.layers.1, input.resolutions.1 + 1, input.components.1⟩]) := by
    induction k generalizing c with
    | zero =>
        refine ⟨hends c, fun p n => ?_, fun h => absurd hpanic h⟩
        unfold layerResolutionTurn
        dsimp only
        rw [if_pos (by omega), if_neg (by omega)]
    | succ k ih =>
        rw [List.range'_succ, List.map_cons, List.cons_append]
        refine ⟨hends c, fun p n => ?_, fun _ => ih (c + 1) (by omega)⟩
        unfold layerResolutionTurn
        dsimp only
        rw [if_neg (by omega)]
  have hc := hv.components
  have hturns := turns_le hv
  refine Option.eq_none_iff_forall_ne_some.mpr fun l hl => ?_
  obtain ⟨n, -, hl⟩ := Option.bind_eq_some_iff.mp hl
  rw [collect_nextItem_iff (by
      rw [List.length_append, List.length_map, List.length_range']
      exact (show _ = input.components.2 - input.components.1 by
        rw [List.length_singleton]; omega).trans_lt hturns)
    (Nat.zero_le n) (hfollows (input.components.2 - input.components.1 - 1) _ (by omega)),
    Option.map_eq_some_iff] at hl
  obtain ⟨⟨items, hitems, -⟩, -⟩ := hl
  exact (slotItems_eq_some_iff.mp hitems).1 _ (by simp) hpanic

theorem within_iff_layerResolution (h : LayerResolutionWalks input) {d : ProgressionData} :
    d ∈ counterPackets layerResolutionSlot (slotCount input) input.layers
        (input.resolutions.1, input.maxResolution input.components.1) input.components ↔
      input.Within d := by
  rw [mem_counterPackets]
  constructor
  · rintro ⟨⟨la, r, c⟩, hs, hslot, hp⟩
    obtain ⟨rfl, rfl, rfl⟩ := PacketSlot.mk.inj hslot
    obtain ⟨hl, hr, hc⟩ := mem_counters.mp hs
    have hlevels := h.levels _ hc.1 hc.2
    exact ⟨hl, ⟨hr.1, lt_maxResolution_iff.mpr
      ⟨hr.2.trans_le (maxResolution_le _ _), hr.2.trans_le hlevels⟩⟩, hc, hp⟩
  · intro hd
    refine ⟨(d.layerNum, d.resolution, d.component), mem_counters.mpr ⟨hd.layer,
      ⟨hd.resolution.1, not_le.mp fun hle => ?_⟩, hd.component⟩, rfl, hd.precinct⟩
    have hzero := h.beyond _ hd.component.1 hd.component.2 _ hle hd.resolution.2
    have hp := hd.precinct
    omega

/-- The packets in bounds, in the layer-resolution-component-position order. -/
theorem layerResolution_spec (hv : input.Valid) (h : LayerResolutionWalks input)
    (hl : Enumerated layerResolutionKey l) (hmem : ∀ d, d ∈ l ↔ input.Within d)
    (hfuel : l.length < fuel) :
    layerResolutionComponentPositionProgression fuel input = some l := by
  have hpackets : l = counterPackets layerResolutionSlot (slotCount input) input.layers
      (input.resolutions.1, input.maxResolution input.components.1) input.components :=
    hl.eq_of_mem_iff (counterPackets_enumerated (fun _ _ => rfl) _ _ _ _)
      fun d => (hmem d).trans (within_iff_layerResolution h).symm
  have henter : ∀ s ∈ counters input.layers
      (input.resolutions.1, input.maxResolution input.components.1) input.components,
      input.enter (layerResolutionSlot s) = some (slotCount input (layerResolutionSlot s)) := by
    rintro ⟨la, r, c⟩ hs
    obtain ⟨-, hr, hc⟩ := mem_counters.mp hs
    exact enter_eq (hr.2.trans_le (h.levels c hc.1 hc.2))
  rw [counters_cons hv.layers h.first hv.components] at henter
  refine (layerResolution_run hv h.first).mpr
    ⟨_, enter_eq h.firstTile, fun s hs => ?_, ?_, hfuel⟩
  · rw [henter s (List.mem_cons_of_mem _ hs)]
    simp
  · rw [hpackets, counterPackets, counters_cons hv.layers h.first hv.components,
      List.flatMap_cons]
    refine congrArg₂ _ ?_ (List.flatMap_congr fun s hs => ?_)
    · rw [show slotCount input ⟨input.layers.1, input.resolutions.1, 0⟩ = _ from h.firstCount]
      rfl
    · rw [henter s (List.mem_cons_of_mem _ hs), Option.getD_some]

/-- It yields the packets in bounds only if the walk meets them. -/
theorem layerResolution_walks (hv : input.Valid)
    (hrun : layerResolutionComponentPositionProgression fuel input = some l)
    (hmem : ∀ d, d ∈ l ↔ input.Within d) : LayerResolutionWalks input := by
  have hfirst : input.resolutions.1 < input.maxResolution input.components.1 := by
    refine not_le.mp fun hle => ?_
    rw [layerResolution_panics hv hle] at hrun
    cases hrun
  obtain ⟨n, hn, henter, hl, -⟩ := (layerResolution_run hv hfirst).mp hrun
  obtain ⟨hfirstTile, hcount⟩ := enter_eq_some_iff.mp hn
  have hcons := counters_cons
    (B := (input.resolutions.1, input.maxResolution input.components.1)) hv.layers hfirst
    hv.components
  have hnodup := (counters_enumerated input.layers
    (input.resolutions.1, input.maxResolution input.components.1) input.components).nodup
  rw [hcons] at hnodup
  -- the slots of the packets are those of the counters
  have hslot (d : ProgressionData) (hd : d ∈ l) : (d.layerNum, d.resolution, d.component) ∈
      counters input.layers (input.resolutions.1, input.maxResolution input.components.1)
        input.components := by
    rw [hl] at hd
    rw [hcons]
    rcases List.mem_append.mp hd with hd | hd
    · obtain ⟨hs, -⟩ := mem_itemsFrom.mp hd
      obtain ⟨h1, h2, h3⟩ := PacketSlot.mk.inj hs
      rw [← h1, ← h2, ← h3]
      exact List.mem_cons_self
    · obtain ⟨s, hs, hd⟩ := List.mem_flatMap.mp hd
      obtain ⟨h1, h2, h3⟩ := PacketSlot.mk.inj (mem_itemsFrom.mp hd).1
      rw [← h1, ← h2, ← h3]
      exact List.mem_cons_of_mem _ hs
  refine ⟨hfirstTile, hfirst, ?_, fun c hc hc' => ?_, fun c hc hc' r hr hr' => ?_⟩
  · -- the packets of the first slot
    have hiff (p : ℕ) : p < n ↔
        p < (input.resolutionTile input.components.1 input.resolutions.1).numPrecincts := by
      have hwithin : input.Within ⟨input.layers.1, input.resolutions.1, input.components.1, p⟩ ↔
          p < (input.resolutionTile input.components.1 input.resolutions.1).numPrecincts :=
        ⟨fun h => h.precinct, fun h => ⟨⟨le_rfl, hv.layers⟩, ⟨le_rfl, hfirst⟩,
          ⟨le_rfl, hv.components⟩, h⟩⟩
      rw [← hwithin, ← hmem, hl, List.mem_append, mem_itemsFrom]
      constructor
      · exact fun hp => .inl ⟨rfl, hp⟩
      · rintro (⟨-, hp⟩ | hd)
        · exact hp
        · obtain ⟨s, hs, hd⟩ := List.mem_flatMap.mp hd
          obtain ⟨h1, h2, h3⟩ := PacketSlot.mk.inj (mem_itemsFrom.mp hd).1
          have hfirst' : s = (input.layers.1, input.resolutions.1, input.components.1) :=
            Prod.ext h1 (Prod.ext h2 h3)
          exact absurd (hfirst' ▸ hs) (List.nodup_cons.mp hnodup).1
    have h1 := hiff n
    have h2 := hiff (input.resolutionTile input.components.1 input.resolutions.1).numPrecincts
    dsimp only at hcount
    omega
  · rcases Nat.eq_or_lt_of_le hc with rfl | hlt
    · exact Nat.min_le_right _ _
    · have hmem' : (input.layers.1, input.maxResolution input.components.1 - 1, c) ∈
          counters input.layers (input.resolutions.1, input.maxResolution input.components.1)
            input.components :=
        mem_counters.mpr ⟨⟨le_rfl, hv.layers⟩, by dsimp only; omega, hc, hc'⟩
      rw [hcons] at hmem'
      rcases List.mem_cons.mp hmem' with heq | hmem'
      · simp only [Prod.mk.injEq] at heq
        omega
      · have := enter_ne_none_iff.mp (henter _ hmem')
        dsimp only [layerResolutionSlot] at this
        omega
  · by_contra hpos
    have hd : ⟨input.layers.1, r, c, 0⟩ ∈ l := (hmem _).mpr
      ⟨⟨le_rfl, hv.layers⟩, ⟨hfirst.le.trans hr, hr'⟩, ⟨hc, hc'⟩, Nat.pos_of_ne_zero hpos⟩
    have := (mem_counters.mp (hslot _ hd)).2.1.2
    dsimp only at this
    omega

/-! ## Resolution, layer, component, position -/

/-- Precincts of a slot, none where the component lacks its resolution. -/
def existingCount (input : IteratorInput) (s : PacketSlot) : ℕ :=
  if s.resolution < input.maxResolution s.componentIdx then slotCount input s else 0

theorem existingCount_eq {s : PacketSlot} (h : s.resolution < input.maxResolution s.componentIdx) :
    existingCount input s = slotCount input s := if_pos h

theorem enterExisting_eq (input : IteratorInput) (s : PacketSlot) :
    input.enterExisting s = some (existingCount input s) := by
  unfold IteratorInput.enterExisting existingCount
  by_cases hlt : s.resolution < input.maxResolution s.componentIdx
  · rw [if_neg (not_le.mpr hlt), if_pos hlt, enter_eq (lt_maxResolution_iff.mp hlt).2]
  · rw [if_pos (not_lt.mp hlt), if_neg hlt]

theorem resolutionLayer_run (hv : input.Valid) :
    resolutionLayerComponentPositionProgression fuel input = some l ↔
      input.resolutions.1 < (input.componentInfo input.components.1).parameters.numResolutionLevels ∧
        l = counterPackets resolutionLayerSlot (existingCount input) input.resolutions input.layers
          input.components ∧ l.length < fuel := by
  have hrun := @countingProgression_iff input fuel l (resolutionLayerTurn input)
    input.enterExisting resolutionLayerSlot input.resolutions input.layers input.components
    hv.resolutions hv.layers hv.components
    (fun _ hs => ends_eq_false hs.2.1 hs.1) (resolutionLayerTurn_eq input)
    (counters_length_le input le_rfl).2
    (input.enter ⟨input.layers.1, input.resolutions.1, input.components.1⟩)
  simp only [enterExisting_eq, Option.getD_some, ne_eq, reduceCtorEq, not_false_eq_true,
    implies_true, true_and] at hrun
  have hfirst (h : input.resolutions.1 <
      (input.componentInfo input.components.1).parameters.numResolutionLevels) :
      existingCount input
        (resolutionLayerSlot (input.resolutions.1, input.layers.1, input.components.1)) =
          slotCount input ⟨input.layers.1, input.resolutions.1, input.components.1⟩ :=
    existingCount_eq (lt_maxResolution_iff.mpr ⟨hv.resolutions, h⟩)
  refine hrun.trans ?_
  rw [counterPackets, counters_cons hv.resolutions hv.layers hv.components, List.flatMap_cons]
  constructor
  · rintro ⟨n, hn, hl, hfuel⟩
    obtain ⟨hlevels, rfl⟩ := enter_eq_some_iff.mp hn
    refine ⟨hlevels, ?_, hfuel⟩
    rw [hfirst hlevels]
    exact hl
  · rintro ⟨hlevels, hl, hfuel⟩
    rw [hfirst hlevels] at hl
    exact ⟨_, enter_eq hlevels, hl, hfuel⟩

theorem within_iff_resolutionLayer {d : ProgressionData} :
    d ∈ counterPackets resolutionLayerSlot (existingCount input) input.resolutions input.layers
        input.components ↔ input.Within d := by
  rw [mem_counterPackets]
  constructor
  · rintro ⟨⟨r, la, c⟩, hs, hslot, hp⟩
    obtain ⟨rfl, rfl, rfl⟩ := PacketSlot.mk.inj hslot
    obtain ⟨hr, hl, hc⟩ := mem_counters.mp hs
    unfold existingCount at hp
    split_ifs at hp with hlt
    · exact ⟨hl, ⟨hr.1, hlt⟩, hc, hp⟩
    · exact absurd hp (Nat.not_lt_zero _)
  · intro hd
    refine ⟨(d.resolution, d.layerNum, d.component), mem_counters.mpr ⟨⟨hd.resolution.1,
      hd.resolution.2.trans_le (maxResolution_le _ _)⟩, hd.layer, hd.component⟩, rfl, ?_⟩
    rw [existingCount_eq hd.resolution.2]
    exact hd.precinct

/-- The packets in bounds, in the resolution-layer-component-position order. -/
theorem resolutionLayer_spec (hv : input.Valid)
    (h : input.resolutions.1 <
      (input.componentInfo input.components.1).parameters.numResolutionLevels)
    (hl : Enumerated resolutionLayerKey l) (hmem : ∀ d, d ∈ l ↔ input.Within d)
    (hfuel : l.length < fuel) :
    resolutionLayerComponentPositionProgression fuel input = some l := by
  refine (resolutionLayer_run hv).mpr ⟨h, ?_, hfuel⟩
  exact hl.eq_of_mem_iff (counterPackets_enumerated (fun _ _ => rfl) _ _ _ _)
    fun d => (hmem d).trans within_iff_resolutionLayer.symm

end

end J2kNative.CountingProgressions
