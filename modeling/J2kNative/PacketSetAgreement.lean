import J2kNative.PacketSets

/-!
# When encoder and decoder form the same packets

The precincts of the decoder, band by band, against the shares that the encoder hands
out, and the condition on the request under which they are the same.
-/
namespace J2kNative.PacketSetAgreement
open Fallible CellGrids TileGeometry TileTree PacketProgression CountingProgressions
open PositionProgressions KeyedLists PacketPlan ProgressionAgreement
open ForwardDwt DwtRoundTrip CountedLoops PacketContents PrecinctBlocks DecodedBlocks PacketSets

section
variable {r : EncodeRequest} {c res : ℕ}

/-! ## Exponents of a request -/

theorem exponents_of_validate (hvalid : validateRequest r = .ok ()) :
    r.codeBlockWidthExp ≤ 8 ∧ r.codeBlockHeightExp ≤ 8 ∧
      (r.precinctExponents.isEmpty ∨ ∀ res < r.numDecompositionLevels + 1,
        minimumExponent r.codeBlockWidthExp res ≤ (r.precinctExponents.getD res (0, 0)).1 ∧
          minimumExponent r.codeBlockHeightExp res ≤ (r.precinctExponents.getD res (0, 0)).2) := by
  unfold validateRequest at hvalid
  split_ifs at hvalid
  unfold validatePrecinctExponentsForOptions at hvalid
  obtain ⟨_, hblocks, hvalid⟩ := bind_eq_ok.mp hvalid
  unfold validateCodeBlockGeometry at hblocks
  split_ifs at hblocks with hw hh
  refine ⟨by omega, by omega, ?_⟩
  split_ifs at hvalid with hempty hlen h15 hmin
  · exact .inl hempty
  · refine .inr fun res hres => ?_
    have hlt : res < r.precinctExponents.length := by omega
    simp only [List.any_eq_true, not_exists, not_and, Bool.or_eq_true, decide_eq_true_eq] at hmin
    have h := hmin (r.precinctExponents[res], res)
      (List.mk_mem_zipIdx_iff_getElem?.mpr (by simp [hlt]))
    rw [List.getD_eq_getElem?_getD, List.getElem?_eq_getElem hlt, Option.getD_some]
    dsimp only at h
    omega

/-- The decoder's exponents of a resolution. -/
theorem precinctExponents_eq (hc : c < r.componentSampling.length)
    (hres : res < r.numDecompositionLevels + 1) :
    (resolutionTile r c res).precinctExponents =
      if r.precinctExponents.isEmpty then (15, 15) else r.precinctExponents.getD res (0, 0) := by
  unfold ResolutionTile.precinctExponents
  rw [resolutionTile_levels hc]
  show (codParameters r).precinctExponents.getD res (0, 0) = _
  unfold codParameters
  dsimp only
  split_ifs
  · simp [hres]
  · rfl

theorem minimumExponent_le (hvalid : validateRequest r = .ok ())
    (hc : c < r.componentSampling.length) (hres : res < r.numDecompositionLevels + 1) :
    minimumExponent r.codeBlockWidthExp res ≤ (resolutionTile r c res).precinctExponentX ∧
      minimumExponent r.codeBlockHeightExp res ≤ (resolutionTile r c res).precinctExponentY := by
  obtain ⟨hw, hh, hexp⟩ := exponents_of_validate hvalid
  unfold ResolutionTile.precinctExponentX ResolutionTile.precinctExponentY
  rw [precinctExponents_eq hc hres]
  split_ifs with hempty
  · unfold minimumExponent
    constructor <;> dsimp only <;> split_ifs <;> omega
  · exact hexp.resolve_left hempty res hres

/-- The decoder does not reduce the code blocks of an accepted request. -/
theorem codeBlockWidth_eq (hvalid : validateRequest r = .ok ())
    (hc : c < r.componentSampling.length) (hres : res < r.numDecompositionLevels + 1) :
    (resolutionTile r c res).codeBlockWidth = 2 ^ (r.codeBlockWidthExp + 2) ∧
      (resolutionTile r c res).codeBlockHeight = 2 ^ (r.codeBlockHeightExp + 2) := by
  obtain ⟨hX, hY⟩ := minimumExponent_le hvalid hc hres
  unfold minimumExponent at hX hY
  have hresolution : (resolutionTile r c res).resolution = res := rfl
  unfold ResolutionTile.codeBlockWidth ResolutionTile.codeBlockHeight
  rw [resolutionTile_levels hc, hresolution]
  have hcodW : (codParameters r).codeBlockWidth = r.codeBlockWidthExp + 2 := rfl
  have hcodH : (codParameters r).codeBlockHeight = r.codeBlockHeightExp + 2 := rfl
  dsimp only
  rw [hcodW, hcodH]
  split_ifs at hX hY ⊢ <;> constructor <;> congr 1 <;> omega

/-- Spacing of the decoder's precincts in sub-bands, in code blocks. -/
theorem decoderSpan_eq (hvalid : validateRequest r = .ok ())
    (hc : c < r.componentSampling.length) (hres : res < r.numDecompositionLevels + 1) :
    ∃ q t, 0 < q ∧ 0 < t ∧
      2 ^ bandExponent res (resolutionTile r c res).precinctExponentX =
        q * (resolutionTile r c res).codeBlockWidth ∧
      2 ^ bandExponent res (resolutionTile r c res).precinctExponentY =
        t * (resolutionTile r c res).codeBlockHeight := by
  obtain ⟨hX, hY⟩ := minimumExponent_le hvalid hc hres
  obtain ⟨hw, hh⟩ := codeBlockWidth_eq hvalid hc hres
  have hmultiple {e cb : ℕ} (h : minimumExponent cb res ≤ e) :
      2 ^ bandExponent res e = 2 ^ (bandExponent res e - (cb + 2)) * 2 ^ (cb + 2) := by
    rw [← pow_add]
    congr 1
    unfold minimumExponent at h
    unfold bandExponent
    split_ifs at h ⊢ <;> omega
  rw [hw, hh]
  exact ⟨_, _, Nat.two_pow_pos _, Nat.two_pow_pos _, hmultiple hX, hmultiple hY⟩

/-! ## Precincts inside the sub-bands -/

theorem numPrecincts_axes (h : Accepted r) (hc : c < r.componentSampling.length) (res : ℕ) :
    (resolutionTile r c res).numPrecinctsX =
        divCeil (lowExtent^[r.numDecompositionLevels - res] (componentWidth r c))
          (2 ^ (resolutionTile r c res).precinctExponentX) ∧
      (resolutionTile r c res).numPrecinctsY =
        divCeil (lowExtent^[r.numDecompositionLevels - res] (componentHeight r c))
          (2 ^ (resolutionTile r c res).precinctExponentY) := by
  rw [numPrecinctsX_eq h hc, numPrecinctsY_eq h hc, iterate_lowExtent_eq (componentWidth_le h hc),
    iterate_lowExtent_eq (componentHeight_le h hc)]
  unfold componentWidth componentHeight
  rw [getD_sampling hc]
  exact ⟨rfl, rfl⟩

/-- A precinct of a resolution starts inside every sub-band or at its end. -/
theorem start_le_bandExtent {n res e extent i : ℕ} (he : 0 < res → 0 < e)
    (hi : i < divCeil (lowExtent^[n - res] extent) (2 ^ e)) {high : Bool}
    (hhigh : res = 0 → high = false) :
    i * 2 ^ bandExponent res e ≤ bandExtent n res high extent := by
  have hlt := (lt_divCeil_iff (Nat.two_pow_pos e)).mp hi
  unfold bandExponent bandExtent
  rcases Nat.eq_zero_or_pos res with rfl | hpos
  · rw [if_neg (lt_irrefl 0), if_pos rfl]
    rw [Nat.sub_zero] at hlt
    exact hlt.le
  · obtain ⟨e, rfl⟩ := Nat.exists_eq_succ_of_ne_zero (he hpos).ne'
    rw [if_pos hpos, if_neg hpos.ne', Nat.succ_sub_one]
    rw [Nat.pow_succ, ← Nat.mul_assoc] at hlt
    unfold lowExtent at hlt ⊢
    split_ifs <;> omega

theorem bandExtent_le {n res extent : ℕ} (hn : 0 < n) (hextent : extent ≤ 2 ^ 32) (high : Bool) :
    bandExtent n res high extent ≤ 2 ^ 31 := by
  have hlow := iterate_lowExtent_le extent (n - res)
  unfold bandExtent
  split_ifs
  · have h : lowExtent^[n] extent ≤ extent / 2 + extent % 2 := iterate_lowExtent_anti extent hn
    omega
  · omega
  · unfold lowExtent at hlow ⊢
    omega

theorem blocksEnd_le_of_extent {extent span cb : ℕ} (hcb : 0 < cb) (i : ℕ)
    (h : extent + cb ≤ 2 ^ 32) : blocksEnd extent span cb i ≤ u32Max := by
  have hlt := (divCeil_bounds hcb (min (i * span + span) extent)).2
  unfold blocksEnd u32Max
  omega

theorem blocksEnd_le_of_span {extent q cb i : ℕ} (hcb : 0 < cb)
    (h : i * (q * cb) + q * cb ≤ u32Max) : blocksEnd extent (q * cb) cb i ≤ u32Max := by
  have hle : divCeil (min (i * (q * cb) + q * cb) extent) cb ≤ i * q + q := by
    refine (divCeil_le_iff hcb).mpr ((min_le_left _ _).trans ?_)
    rw [Nat.add_mul, Nat.mul_assoc]
  calc blocksEnd extent (q * cb) cb i ≤ (i * q + q) * cb := Nat.mul_le_mul_right cb hle
    _ = i * (q * cb) + q * cb := by rw [Nat.add_mul, Nat.mul_assoc]
    _ ≤ u32Max := h

/-! ## The decoder's precincts -/

/-- The far ends of a precinct's code blocks in a sub-band are formed in `u32`. -/
def EndsFit (r : EncodeRequest) (c res : ℕ) (t : SubBandType) : Prop :=
  let tile := resolutionTile r c res
  ∀ p < tile.numPrecincts,
    blocksEnd (tile.subBandRect t).width (2 ^ bandExponent res tile.precinctExponentX)
        tile.codeBlockWidth (p % tile.numPrecinctsX) ≤ u32Max ∧
      blocksEnd (tile.subBandRect t).height (2 ^ bandExponent res tile.precinctExponentY)
        tile.codeBlockHeight (p / tile.numPrecinctsX) ≤ u32Max

/-- What the decoder makes of precinct `p` of a sub-band. -/
structure PrecinctOf (r : EncodeRequest) (c res : ℕ) (t : SubBandType) (p : ℕ)
    (precinct : Precinct) : Prop where
  columns : precinct.columns = blockCount ((resolutionTile r c res).subBandRect t).width
    (2 ^ bandExponent res (resolutionTile r c res).precinctExponentX)
    (resolutionTile r c res).codeBlockWidth (p % (resolutionTile r c res).numPrecinctsX)
  rows : precinct.rows = blockCount ((resolutionTile r c res).subBandRect t).height
    (2 ^ bandExponent res (resolutionTile r c res).precinctExponentY)
    (resolutionTile r c res).codeBlockHeight (p / (resolutionTile r c res).numPrecinctsX)
  codeBlocks : precinct.codeBlocks.map CodeBlock.rect =
    precinctBlocks ((resolutionTile r c res).subBandRect t).width
      ((resolutionTile r c res).subBandRect t).height
      (2 ^ bandExponent res (resolutionTile r c res).precinctExponentX)
      (2 ^ bandExponent res (resolutionTile r c res).precinctExponentY)
      (resolutionTile r c res).codeBlockWidth (resolutionTile r c res).codeBlockHeight
      (p % (resolutionTile r c res).numPrecinctsX) (p / (resolutionTile r c res).numPrecinctsX)

theorem precinctRect_eq (h : Accepted r) (hc : c < r.componentSampling.length) (i j : ℕ) :
    (resolutionTile r c res).precinctRect i j =
      .fromXywh (i * 2 ^ bandExponent res (resolutionTile r c res).precinctExponentX)
        (j * 2 ^ bandExponent res (resolutionTile r c res).precinctExponentY)
        (2 ^ bandExponent res (resolutionTile r c res).precinctExponentX)
        (2 ^ bandExponent res (resolutionTile r c res).precinctExponentY) := by
  unfold ResolutionTile.precinctRect
  rw [resolutionTile_rect_eq h hc]
  unfold originRect
  simp only [Nat.zero_div, Nat.zero_mul, ite_self, Nat.add_zero]
  rfl

theorem buildPrecincts_eq (hvalid : validateRequest r = .ok ())
    (hc : c < r.componentSampling.length) (hres : res < r.numDecompositionLevels + 1)
    (hfit : StepsFit r) {t : SubBandType} (ht : t ∈ subBandTypes res) (hends : EndsFit r c res t) :
    ∃ precinct : ℕ → Precinct,
      buildPrecincts (resolutionTile r c res) ((resolutionTile r c res).subBandRect t) =
        .ok ((List.range (resolutionTile r c res).numPrecincts).map precinct) ∧
      ∀ p < (resolutionTile r c res).numPrecincts, PrecinctOf r c res t p (precinct p) := by
  have h := accepted_of_validate hvalid
  have hv := wholeInput_valid h
  have hformed := (precinctsFormed_iff h).mpr hfit c (Nat.zero_le _) hc res (Nat.zero_le _)
    (by rwa [wholeInput_maxResolution hc])
  have hprecincts := ResolutionTile.precincts_eq
    (resolutionTile_cut hv (decoderTile_onGrid h) hc res) hformed
  rw [show (wholeInput r).resolutionTile c res = resolutionTile r c res from rfl] at hprecincts
  obtain ⟨hw, hh⟩ := codeBlockWidth_eq hvalid hc hres
  have hcw : 0 < (resolutionTile r c res).codeBlockWidth := by
    rw [hw]
    exact Nat.two_pow_pos _
  have hch : 0 < (resolutionTile r c res).codeBlockHeight := by
    rw [hh]
    exact Nat.two_pow_pos _
  obtain ⟨q, s, -, -, hq, hs⟩ := decoderSpan_eq hvalid hc hres
  obtain ⟨hX, hY⟩ := mem_subBandTypes ht
  obtain ⟨hnX, hnY⟩ := numPrecincts_axes h hc res
  have hexp := exponents_pos h hc hres
  have hrect := subBandRect_eq h hc hres ht
  have hprecinct (p : ℕ) (hp : p < (resolutionTile r c res).numPrecincts) :
      ∃ precinct : Precinct, PrecinctOf r c res t p precinct ∧ (do
        let grid ← codeBlockGrid (resolutionTile r c res)
          ((resolutionTile r c res).subBandRect t) ((resolutionTile r c res).precinctRect
            (p % (resolutionTile r c res).numPrecinctsX) (p / (resolutionTile r c res).numPrecinctsX))
        let blocks ← buildCodeBlocks (resolutionTile r c res)
          ((resolutionTile r c res).subBandRect t) grid
        .ok ⟨blocks, grid.columns, grid.rows⟩) = (.ok precinct : Except BuildError Precinct) := by
    have hpos : 0 < (resolutionTile r c res).numPrecinctsX :=
      Nat.pos_of_mul_pos_right (Nat.zero_lt_of_lt hp)
    have hi : p % (resolutionTile r c res).numPrecinctsX *
        2 ^ bandExponent res (resolutionTile r c res).precinctExponentX ≤
          ((resolutionTile r c res).subBandRect t).width := by
      rw [hrect]
      refine start_le_bandExtent (fun _ => hexp.1) ?_ hX
      rw [← hnX]
      exact Nat.mod_lt _ hpos
    have hj : p / (resolutionTile r c res).numPrecinctsX *
        2 ^ bandExponent res (resolutionTile r c res).precinctExponentY ≤
          ((resolutionTile r c res).subBandRect t).height := by
      rw [hrect]
      refine start_le_bandExtent (fun _ => hexp.2) ?_ hY
      rw [← hnY]
      exact Nat.div_lt_of_lt_mul hp
    obtain ⟨hendX, hendY⟩ := hends p hp
    rw [precinctRect_eq h hc]
    rw [hq] at hi hendX ⊢
    rw [hs] at hj hendY ⊢
    have horigin : (resolutionTile r c res).subBandRect t = originRect
        ((resolutionTile r c res).subBandRect t).width
        ((resolutionTile r c res).subBandRect t).height := by
      rw [hrect]
      rfl
    obtain ⟨blocks, hblocks, hrects⟩ := buildCodeBlocks_eq hcw hch hi hj hendX hendY
      (blocksEnd ((resolutionTile r c res).subBandRect t).width
        (q * (resolutionTile r c res).codeBlockWidth) (resolutionTile r c res).codeBlockWidth
        (p % (resolutionTile r c res).numPrecinctsX))
      (blocksEnd ((resolutionTile r c res).subBandRect t).height
        (s * (resolutionTile r c res).codeBlockHeight) (resolutionTile r c res).codeBlockHeight
        (p / (resolutionTile r c res).numPrecinctsX))
    have hgrid := codeBlockGrid_eq hcw hch hi hj hendX hendY
    rw [← horigin] at hblocks hgrid
    rw [hgrid, ok_bind, hblocks, ok_bind]
    exact ⟨_, ⟨by rw [hq], by rw [hs], by rw [hq, hs]; exact hrects⟩, rfl⟩
  choose! precinct hof hrun using hprecinct
  refine ⟨precinct, ?_, hof⟩
  unfold buildPrecincts
  rw [hprecincts]
  dsimp only
  rw [List.mapM_map]
  exact mapM_ok fun p hp => hrun p (List.mem_range.mp hp)

/-! ## The packets that the decoder enumerates -/

theorem counting_spec {fuel : ℕ} (hfuel : packetCount r < fuel)
    {key : ProgressionData → List ℕ} (hinj : Function.Injective key)
    {progression : Option (List ProgressionData)}
    (hrun : ∀ l, Enumerated key l → (∀ d, d ∈ l ↔ (wholeInput r).Within d) → l.length < fuel →
      progression = some l) :
    ∃ l, progression = some l ∧ ∀ d, d ∈ l ↔ IsPacket r.numLayers (r.numDecompositionLevels + 1)
      r.componentSampling.length (fun c res => (resolutionTile r c res).numPrecincts) d := by
  have hnodup := allPackets_nodup r.numLayers (r.numDecompositionLevels + 1)
    r.componentSampling.length fun c res => (resolutionTile r c res).numPrecincts
  have hmem (d : ProgressionData) : d ∈ sortByKey key (allPackets r.numLayers
      (r.numDecompositionLevels + 1) r.componentSampling.length
      fun c res => (resolutionTile r c res).numPrecincts) ↔ _ := mem_sortByKey.trans mem_allPackets
  refine ⟨_, hrun _ (sortByKey_enumerated (hnodup.map hinj))
    (fun d => (hmem d).trans within_iff.symm) ?_, hmem⟩
  exact (List.length_insertionSort _ _).trans_lt hfuel

theorem position_spec (h : Accepted r) {f : PrecinctStore → List ℕ}
    (hinj : Function.Injective f) (hlen : ∀ e, (f e).length = 5) (hfit : StepsFit r) :
    ∃ l, positionProgressionCommon (wholeInput r) f = some l ∧
      ∀ d, d ∈ l ↔ IsPacket r.numLayers (r.numDecompositionLevels + 1)
        r.componentSampling.length (fun c res => (resolutionTile r c res).numPrecincts) d := by
  obtain ⟨l, hrun, -, hmem⟩ := positionProgressionCommon_eq (wholeInput_valid h)
    (decoderTile_onGrid h) hinj hlen ((precinctsFormed_iff h).mpr hfit)
  exact ⟨l, hrun, fun d => (hmem d).trans within_iff⟩

/-- The decoder enumerates every packet of its tile, in any order. -/
theorem progressionIterator_spec (h : Accepted r) (hfit : StepsFit r) {fuel : ℕ}
    (hfuel : packetCount r < fuel) :
    ∃ l, progressionIterator fuel (decoderTile r) = some l ∧
      ∀ d, d ∈ l ↔ IsPacket r.numLayers (r.numDecompositionLevels + 1)
        r.componentSampling.length (fun c res => (resolutionTile r c res).numPrecincts) d := by
  have hv := wholeInput_valid h
  have horder : (decoderTile r).progressionOrder = r.progressionOrder.toDecoder := rfl
  unfold progressionIterator progressionIteratorForOrder
  rw [if_pos (show (decoderTile r).progressionChanges.isEmpty from rfl), iteratorInput_new h,
    Option.bind_eq_bind, Option.bind_some, horder]
  cases r.progressionOrder with
  | lrcp =>
      exact counting_spec hfuel (orderKey_injective .lrcp) fun l hl hmem hlen =>
        layerResolution_spec hv (wholeInput_walks h) hl hmem hlen
  | rlcp =>
      exact counting_spec hfuel (orderKey_injective .rlcp) fun l hl hmem hlen =>
        resolutionLayer_spec hv (wholeInput_walks h).firstTile hl hmem hlen
  | rpcl => exact position_spec h (fun a b hab => by cases a; cases b; simp_all) (fun _ => rfl) hfit
  | pcrl => exact position_spec h (fun a b hab => by cases a; cases b; simp_all) (fun _ => rfl) hfit
  | cprl => exact position_spec h (fun a b hab => by cases a; cases b; simp_all) (fun _ => rfl) hfit

/-! ## The condition -/

/-- Every component has the precinct columns and rows of the whole image; without
exponents it fits in one precinct of the largest size. -/
def PrecinctsMatch (r : EncodeRequest) : Prop :=
  ∀ s ∈ r.componentSampling,
    if r.precinctExponents.isEmpty then
      divCeil r.width s.1 ≤ 2 ^ 15 ∧ divCeil r.height s.2 ≤ 2 ^ 15
    else ∀ res < r.numDecompositionLevels + 1,
      let e := r.precinctExponents.getD res (0, 0)
      let scale := 2 ^ (r.numDecompositionLevels - res)
      divCeil r.width (s.1 * scale * 2 ^ e.1) = divCeil r.width (scale * 2 ^ e.1) ∧
        divCeil r.height (s.2 * scale * 2 ^ e.2) = divCeil r.height (scale * 2 ^ e.2)

theorem precinctExponentX_eq (hc : c < r.componentSampling.length)
    (hres : res < r.numDecompositionLevels + 1) (hne : ¬ r.precinctExponents.isEmpty) :
    (resolutionTile r c res).precinctExponentX = (r.precinctExponents.getD res (0, 0)).1 ∧
      (resolutionTile r c res).precinctExponentY = (r.precinctExponents.getD res (0, 0)).2 := by
  unfold ResolutionTile.precinctExponentX ResolutionTile.precinctExponentY
  rw [precinctExponents_eq hc hres, if_neg hne]
  exact ⟨rfl, rfl⟩

theorem precinctExponentX_default (hc : c < r.componentSampling.length)
    (hres : res < r.numDecompositionLevels + 1) (hempty : r.precinctExponents.isEmpty) :
    (resolutionTile r c res).precinctExponentX = 15 ∧
      (resolutionTile r c res).precinctExponentY = 15 := by
  unfold ResolutionTile.precinctExponentX ResolutionTile.precinctExponentY
  rw [precinctExponents_eq hc hres, if_pos hempty]
  exact ⟨rfl, rfl⟩

/-- The precincts of a component's resolution, counted on the image. -/
theorem numPrecincts_image (h : Accepted r) (hc : c < r.componentSampling.length) (res : ℕ) :
    (resolutionTile r c res).numPrecinctsX =
        divCeil r.width (r.componentSampling[c].1 * 2 ^ (r.numDecompositionLevels - res) *
          2 ^ (resolutionTile r c res).precinctExponentX) ∧
      (resolutionTile r c res).numPrecinctsY =
        divCeil r.height (r.componentSampling[c].2 * 2 ^ (r.numDecompositionLevels - res) *
          2 ^ (resolutionTile r c res).precinctExponentY) := by
  obtain ⟨hdx, hdy⟩ := h.sampling _ (List.getElem_mem hc)
  have hp := Nat.two_pow_pos (r.numDecompositionLevels - res)
  rw [numPrecinctsX_eq h hc, numPrecinctsY_eq h hc,
    ceilDiv_eq _ ((divCeil_le hdx).trans r.width_lt.le),
    ceilDiv_eq _ ((divCeil_le hdy).trans r.height_lt.le), divCeil_divCeil _ hdx hp,
    divCeil_divCeil _ hdy hp, divCeil_divCeil _ (Nat.mul_pos hdx hp) (Nat.two_pow_pos _),
    divCeil_divCeil _ (Nat.mul_pos hdy hp) (Nat.two_pow_pos _)]
  exact ⟨rfl, rfl⟩

/-- Equal products of ordered factors. -/
theorem factors_eq {a b A B : ℕ} (ha : a ≤ A) (hb : b ≤ B) (hb0 : 0 < b) (hA : 0 < A)
    (h : A * B = a * b) : a = A ∧ b = B := by
  have hab : a = A := by
    rcases Nat.eq_or_lt_of_le ha with heq | hlt
    · exact heq
    · have := Nat.mul_lt_mul_of_lt_of_le hlt hb (hb0.trans_le hb)
      omega
  subst hab
  exact ⟨rfl, Nat.eq_of_mul_eq_mul_left hA h.symm⟩

theorem divCeil_anti (n : ℕ) {d d' : ℕ} (hd : 0 < d) (h : d ≤ d') : divCeil n d' ≤ divCeil n d := by
  refine (divCeil_le_iff (hd.trans_le h)).mpr (((divCeil_le_iff hd).mp le_rfl).trans ?_)
  exact Nat.mul_le_mul_left _ h

theorem numPrecinctsX_pos (h : Accepted r) (hc : c < r.componentSampling.length) (res : ℕ) :
    0 < (resolutionTile r c res).numPrecinctsX ∧ 0 < (resolutionTile r c res).numPrecinctsY := by
  have hpos := numPrecincts_pos h hc res
  exact ⟨Nat.pos_of_mul_pos_right hpos, Nat.pos_of_mul_pos_left hpos⟩

/-- The encoder's precinct grid is that of a component. -/
def SameGrids (r : EncodeRequest) : Prop :=
  ∀ c < r.componentSampling.length, ∀ res < r.numDecompositionLevels + 1,
    (precinctGrid r res).columns = (resolutionTile r c res).numPrecinctsX ∧
      (precinctGrid r res).rows = (resolutionTile r c res).numPrecinctsY

theorem precinctGrid_image (hne : ¬ r.precinctExponents.isEmpty) (res : ℕ) : precinctGrid r res =
    ⟨divCeil r.width (2 ^ (r.numDecompositionLevels - res) *
        2 ^ (r.precinctExponents.getD res (0, 0)).1),
      divCeil r.height (2 ^ (r.numDecompositionLevels - res) *
        2 ^ (r.precinctExponents.getD res (0, 0)).2)⟩ := by
  unfold precinctGrid
  rw [if_neg hne]
  dsimp only
  rw [divCeil_divCeil _ (Nat.two_pow_pos _) (Nat.two_pow_pos _),
    divCeil_divCeil _ (Nat.two_pow_pos _) (Nat.two_pow_pos _)]

/-- Equal numbers of precincts are equal grids. -/
theorem sameCounts_iff (h : Accepted r) : SameCounts r ↔ SameGrids r := by
  constructor
  · intro hcounts c hc res hres
    have hcount : (precinctGrid r res).columns * (precinctGrid r res).rows =
        (resolutionTile r c res).numPrecinctsX * (resolutionTile r c res).numPrecinctsY :=
      hcounts c hc res hres
    have hpos := numPrecinctsX_pos h hc res
    by_cases hempty : r.precinctExponents.isEmpty
    · have hgrid : precinctGrid r res = ⟨1, 1⟩ := if_pos hempty
      rw [hgrid] at hcount ⊢
      exact ⟨(Nat.eq_one_of_mul_eq_one_right hcount.symm).symm,
        (Nat.eq_one_of_mul_eq_one_left hcount.symm).symm⟩
    · have hgrid := precinctGrid_pos h res
      obtain ⟨hdx, hdy⟩ := h.sampling _ (List.getElem_mem hc)
      have hle : (resolutionTile r c res).numPrecinctsX ≤ (precinctGrid r res).columns ∧
          (resolutionTile r c res).numPrecinctsY ≤ (precinctGrid r res).rows := by
        obtain ⟨hx, hy⟩ := numPrecincts_image h hc res
        obtain ⟨hex, hey⟩ := precinctExponentX_eq hc hres hempty
        rw [hx, hy, precinctGrid_image hempty, hex, hey]
        constructor
        · refine divCeil_anti _ (Nat.mul_pos (Nat.two_pow_pos _) (Nat.two_pow_pos _)) ?_
          rw [Nat.mul_assoc]
          exact Nat.le_mul_of_pos_left _ hdx
        · refine divCeil_anti _ (Nat.mul_pos (Nat.two_pow_pos _) (Nat.two_pow_pos _)) ?_
          rw [Nat.mul_assoc]
          exact Nat.le_mul_of_pos_left _ hdy
      obtain ⟨hx, hy⟩ := factors_eq hle.1 hle.2 hpos.2 hgrid.1 hcount
      exact ⟨hx.symm, hy.symm⟩
  · intro hgrids c hc res hres
    obtain ⟨hx, hy⟩ := hgrids c hc res hres
    unfold precinctCount ResolutionTile.numPrecincts
    rw [hx, hy]

theorem one_precinct_iff {n d k e : ℕ} (hd : 0 < d) (hn : 0 < n) :
    divCeil n (d * 2 ^ k * 2 ^ e) = 1 ↔ n ≤ d * 2 ^ k * 2 ^ e := by
  have hpos : 0 < d * 2 ^ k * 2 ^ e :=
    Nat.mul_pos (Nat.mul_pos hd (Nat.two_pow_pos k)) (Nat.two_pow_pos e)
  have h1 := @divCeil_le_iff n _ 1 hpos
  have h2 := divCeil_pos hn hpos
  rw [Nat.one_mul] at h1
  omega

theorem precinctsMatch_iff (h : Accepted r) : PrecinctsMatch r ↔ SameGrids r := by
  by_cases hempty : r.precinctExponents.isEmpty
  · have hgrid (res : ℕ) : precinctGrid r res = ⟨1, 1⟩ := if_pos hempty
    have haxis {d n k : ℕ} (hd : 0 < d) (h : divCeil n d ≤ 2 ^ 15) : n ≤ d * 2 ^ k * 2 ^ 15 := by
      have h1 := (divCeil_le_iff hd).mp h
      have h2 := Nat.le_mul_of_pos_right (2 ^ 15 * d) (Nat.two_pow_pos k)
      calc n ≤ 2 ^ 15 * d * 2 ^ k := h1.trans h2
        _ = d * 2 ^ k * 2 ^ 15 := by ring
    constructor
    · intro hmatch c hc res hres
      obtain ⟨hdx, hdy⟩ := h.sampling _ (List.getElem_mem hc)
      have hone := hmatch _ (List.getElem_mem hc)
      rw [if_pos hempty] at hone
      obtain ⟨hx, hy⟩ := numPrecincts_image h hc res
      obtain ⟨hex, hey⟩ := precinctExponentX_default hc hres hempty
      rw [hgrid, hx, hy, hex, hey]
      exact ⟨((one_precinct_iff hdx h.width_pos).mpr (haxis hdx hone.1)).symm,
        ((one_precinct_iff hdy h.height_pos).mpr (haxis hdy hone.2)).symm⟩
    · intro hgrids s hs
      obtain ⟨c, hc, rfl⟩ := List.mem_iff_getElem.mp hs
      obtain ⟨hdx, hdy⟩ := h.sampling _ (List.getElem_mem hc)
      have htop : r.numDecompositionLevels < r.numDecompositionLevels + 1 := Nat.lt_succ_self _
      obtain ⟨h1, h2⟩ := hgrids c hc r.numDecompositionLevels htop
      obtain ⟨hx, hy⟩ := numPrecincts_image h hc r.numDecompositionLevels
      obtain ⟨hex, hey⟩ := precinctExponentX_default hc htop hempty
      rw [hgrid, hx, hex] at h1
      rw [hgrid, hy, hey] at h2
      rw [if_pos hempty, divCeil_le_iff hdx, divCeil_le_iff hdy]
      have hx := (one_precinct_iff hdx h.width_pos).mp h1.symm
      have hy := (one_precinct_iff hdy h.height_pos).mp h2.symm
      rw [Nat.sub_self, pow_zero, Nat.mul_one, Nat.mul_comm] at hx hy
      exact ⟨hx, hy⟩
  · have hiff (c : ℕ) (hc : c < r.componentSampling.length) (res : ℕ)
        (hres : res < r.numDecompositionLevels + 1) :
        (divCeil r.width (r.componentSampling[c].1 * 2 ^ (r.numDecompositionLevels - res) *
            2 ^ (r.precinctExponents.getD res (0, 0)).1) =
          divCeil r.width (2 ^ (r.numDecompositionLevels - res) *
            2 ^ (r.precinctExponents.getD res (0, 0)).1) ∧
        divCeil r.height (r.componentSampling[c].2 * 2 ^ (r.numDecompositionLevels - res) *
            2 ^ (r.precinctExponents.getD res (0, 0)).2) =
          divCeil r.height (2 ^ (r.numDecompositionLevels - res) *
            2 ^ (r.precinctExponents.getD res (0, 0)).2)) ↔
        (precinctGrid r res).columns = (resolutionTile r c res).numPrecinctsX ∧
          (precinctGrid r res).rows = (resolutionTile r c res).numPrecinctsY := by
      obtain ⟨hx, hy⟩ := numPrecincts_image h hc res
      obtain ⟨hex, hey⟩ := precinctExponentX_eq hc hres hempty
      rw [hx, hy, precinctGrid_image hempty, hex, hey]
      exact and_congr eq_comm eq_comm
    constructor
    · intro hmatch c hc res hres
      have hall := hmatch _ (List.getElem_mem hc)
      rw [if_neg hempty] at hall
      exact (hiff c hc res hres).mp (hall res hres)
    · intro hgrids s hs
      obtain ⟨c, hc, rfl⟩ := List.mem_iff_getElem.mp hs
      rw [if_neg hempty]
      exact fun res hres => (hiff c hc res hres).mpr (hgrids c hc res hres)

/-! ## Agreement -/

/-- A sub-band of packet `p` has the decoder's grid and code blocks. -/
def SameBlocks (p : ℕ) (band : PreparedEncodeSubband) (subBand : SubBand) : Prop :=
  band.subBandType = subBand.subBandType ∧ ∃ precinct, subBand.precincts[p]? = some precinct ∧
    SameGrid band.numCbsX band.numCbsY precinct.columns precinct.rows ∧
      band.codeBlocks = precinct.codeBlocks.map CodeBlock.rect

/-- The sub-bands of a component's resolution. -/
def subBandsOf (decompositions : List (List (List SubBand))) (c res : ℕ) : List SubBand :=
  (decompositions.getD c []).getD res []

/-- The code blocks that the packets of a component's resolution hold of a sub-band. -/
def packetBlocks (packets : List PreparedPacket) (c res : ℕ) (t : SubBandType) : List IntRect :=
  (packets.filter fun p => p.component = c ∧ p.resolution = res).flatMap fun p =>
    blocksOfType t p.subbands

/-- The code blocks of a sub-band. -/
def codeBlocksOf (tile : ResolutionTile) (t : SubBandType) : List IntRect :=
  let rect := tile.subBandRect t
  cells 0 (divCeil rect.width tile.codeBlockWidth) 0 (divCeil rect.height tile.codeBlockHeight)
    (codeBlockAt rect.width rect.height tile.codeBlockWidth tile.codeBlockHeight)

/-- The prepared packets are those that the decoder enumerates, each with the decoder's
code blocks in every sub-band, and together they hold every code block once. -/
def PacketsAgree (fuel : ℕ) (r : EncodeRequest) (packets : List PreparedPacket) : Prop :=
  let triples := packets.map PreparedPacket.toPreparedResolutionPacket
  ∃ progression decompositions, progressionIterator fuel (decoderTile r) = some progression ∧
    buildDecompositions (decoderTile r) = .ok decompositions ∧
    triples.Nodup ∧
    (∀ c res p, ⟨c, res, p⟩ ∈ triples ↔ ∃ layer, ⟨layer, res, c, p⟩ ∈ progression) ∧
    (∀ packet ∈ packets, List.Forall₂ (SameBlocks packet.precinct) packet.subbands
      (subBandsOf decompositions packet.component packet.resolution)) ∧
    ∀ c < r.componentSampling.length, ∀ res < r.numDecompositionLevels + 1,
      ∀ t ∈ subBandTypes res,
        (packetBlocks packets c res t).Perm (codeBlocksOf (resolutionTile r c res) t)

theorem codeBlocksOf_band (hvalid : validateRequest r = .ok ())
    (hc : c < r.componentSampling.length) (hres : res < r.numDecompositionLevels + 1)
    {t : SubBandType} (ht : t ∈ subBandTypes res) {band : PreparedEncodeSubband}
    (hband : BandOf r c res t band) :
    band.codeBlocks = codeBlocksOf (resolutionTile r c res) t := by
  obtain ⟨hw, hh⟩ := codeBlockWidth_eq hvalid hc hres
  unfold codeBlocksOf
  rw [hband.blocked.codeBlocks_eq, hband.width, hband.height, hband.codeBlockWidth,
    hband.codeBlockHeight, hw, hh, subBandRect_eq (accepted_of_validate hvalid) hc hres ht]
  rfl

/-- The bands of a resolution hold the code blocks of every sub-band. -/
theorem blocksOfType_bands (hvalid : validateRequest r = .ok ())
    (hc : c < r.componentSampling.length) (hres : res < r.numDecompositionLevels + 1)
    {bands : List PreparedEncodeSubband}
    (hbands : List.Forall₂ (BandOf r c res) (subBandTypes res) bands) {t : SubBandType}
    (ht : t ∈ subBandTypes res) :
    blocksOfType t bands = codeBlocksOf (resolutionTile r c res) t := by
  have hblocks {t' : SubBandType} (ht' : t' ∈ subBandTypes res) {band : PreparedEncodeSubband}
      (hband : BandOf r c res t' band) : (if band.subBandType = t then band.codeBlocks else []) =
        if t' = t then codeBlocksOf (resolutionTile r c res) t else [] := by
    rw [hband.subBandType]
    split_ifs with heq
    · subst heq
      exact codeBlocksOf_band hvalid hc hres ht' hband
    · rfl
  have hnil : blocksOfType t [] = [] := rfl
  unfold subBandTypes at hblocks hbands ht
  split_ifs at hblocks hbands ht
  · cases hbands with
    | cons hll htail =>
      cases htail
      rw [List.mem_singleton] at ht
      subst ht
      rw [blocksOfType_cons, hblocks (by simp) hll, hnil, if_pos rfl, List.append_nil]
  · cases hbands with
    | cons hhl htail =>
      cases htail with
      | cons hlh htail =>
        cases htail with
        | cons hhh htail =>
          cases htail
          rw [blocksOfType_cons, blocksOfType_cons, blocksOfType_cons, hblocks (by simp) hhl,
            hblocks (by simp) hlh, hblocks (by simp) hhh, hnil]
          simp only [List.mem_cons, List.not_mem_nil, or_false] at ht
          rcases ht with rfl | rfl | rfl <;> simp

section
variable {packets : List PreparedPacket} {bands : ℕ → ℕ → List PreparedEncodeSubband}
  {shares : ℕ → ℕ → ℕ → List PreparedEncodeSubband}

theorem filter_splitPackets (hc : c < r.componentSampling.length)
    (hres : res < r.numDecompositionLevels + 1) :
    (splitPackets r).filter (fun q => q.component = c ∧ q.resolution = res) =
      (List.range (precinctCount r res)).map fun p => ⟨c, res, p⟩ := by
  refine ((splitPackets_enumerated r).filter _).eq_of_mem_iff ?_ fun q => ?_
  · refine List.pairwise_map.mpr (List.pairwise_lt_range.imp ?_)
    intro p p' hlt
    simpa [List.cons_lt_cons_iff] using hlt
  · obtain ⟨c', res', p⟩ := q
    simp only [List.mem_filter, mem_splitPackets, decide_eq_true_eq, List.mem_map, List.mem_range,
      PreparedResolutionPacket.mk.injEq]
    constructor
    · rintro ⟨⟨-, -, hp⟩, rfl, rfl⟩
      exact ⟨p, hp, rfl, rfl, rfl⟩
    · rintro ⟨p', hp, rfl, rfl, rfl⟩
      exact ⟨⟨hres, hc, hp⟩, rfl, rfl⟩

/-- Whatever the precincts, the packets hold every code block once. -/
theorem packetBlocks_perm (hvalid : validateRequest r = .ok ())
    (hcontents : Contents r packets bands shares) (hc : c < r.componentSampling.length)
    (hres : res < r.numDecompositionLevels + 1) {t : SubBandType} (ht : t ∈ subBandTypes res) :
    (packetBlocks packets c res t).Perm (codeBlocksOf (resolutionTile r c res) t) := by
  have honce := hcontents.once c hc res hres t
  rw [blocksOfType_bands hvalid hc hres (hcontents.bands_of c hc res hres) ht] at honce
  unfold packetBlocks
  rw [hcontents.packets_eq, List.filter_map]
  have hfilter := filter_splitPackets hc hres
  rw [show (splitPackets r).filter ((fun p : PreparedPacket =>
      decide (p.component = c ∧ p.resolution = res)) ∘ fun q =>
        ⟨q, shares q.component q.resolution q.precinct⟩) = _ from hfilter, List.map_map,
    List.flatMap_map]
  exact honce

theorem triples_eq (hcontents : Contents r packets bands shares) :
    packets.map PreparedPacket.toPreparedResolutionPacket = splitPackets r := by
  rw [hcontents.packets_eq, List.map_map]
  exact List.map_id _

/-- Under equal grids a packet's shares are those of the decoder's precincts. -/
theorem shares_of_holds (hvalid : validateRequest r = .ok ()) (hgrids : SameGrids r)
    (hc : c < r.componentSampling.length) (hres : res < r.numDecompositionLevels + 1) {p : ℕ}
    (hp : p < precinctCount r res) {bands shares : List PreparedEncodeSubband}
    (hbands : List.Forall₂ (BandOf r c res) (subBandTypes res) bands)
    (hholds : HoldsShares r res p bands shares) :
    List.Forall₂ (fun t share => ∃ band, BandOf r c res t band ∧
      ShareOf band (2 ^ bandExponent res (resolutionTile r c res).precinctExponentX)
        (2 ^ bandExponent res (resolutionTile r c res).precinctExponentY)
        (p % (resolutionTile r c res).numPrecinctsX) (p / (resolutionTile r c res).numPrecinctsX)
        share) (subBandTypes res) shares := by
  have h := accepted_of_validate hvalid
  obtain ⟨hX, hY⟩ := hgrids c hc res hres
  unfold HoldsShares at hholds
  split_ifs at hholds with hempty
  · -- one precinct, which is as large as the resolution
    subst hholds
    have hgrid : precinctGrid r res = ⟨1, 1⟩ := if_pos hempty
    rw [hgrid] at hX hY
    obtain ⟨hex, hey⟩ := precinctExponentX_default hc hres hempty
    obtain ⟨hnX, hnY⟩ := numPrecincts_axes h hc res
    rw [← hX, hex] at hnX
    rw [← hY, hey] at hnY
    have hp0 : p = 0 := by
      unfold precinctCount at hp
      rw [hgrid] at hp
      exact Nat.lt_one_iff.mp hp
    have hextent {extent : ℕ} (hR : 1 = divCeil (lowExtent^[r.numDecompositionLevels - res] extent)
        (2 ^ 15)) {high : Bool} (hhigh : res = 0 → high = false) :
        bandExtent r.numDecompositionLevels res high extent ≤ 2 ^ bandExponent res 15 := by
      have hle := (divCeil_le_iff (Nat.two_pow_pos 15)).mp hR.ge
      unfold bandExtent bandExponent
      rcases Nat.eq_zero_or_pos res with rfl | hpos
      · rw [if_pos rfl, if_neg (lt_irrefl 0)]
        rw [Nat.sub_zero] at hle
        omega
      · rw [if_neg hpos.ne', if_pos hpos]
        unfold lowExtent at hle ⊢
        split_ifs <;> omega
    refine forall₂_imp_mem hbands fun t ht band hband => ⟨band, hband, ?_⟩
    obtain ⟨htX, htY⟩ := mem_subBandTypes ht
    have hw := hextent hnX htX
    have hh := hextent hnY htY
    rw [← hband.width] at hw
    rw [← hband.height] at hh
    have hcount {extent span cb : ℕ} (hle : extent ≤ span) :
        blockCount extent span cb 0 = divCeil extent cb := by
      unfold blockCount
      rw [Nat.zero_mul, Nat.zero_add, Nat.zero_div, Nat.sub_zero, min_eq_right hle]
    rw [hp0, Nat.zero_mod, Nat.zero_div, hex, hey]
    refine ⟨rfl, ?_, ?_⟩
    · rw [hcount hw, hcount hh]
      exact hband.blocked.sameGrid
    · unfold precinctBlocks firstBlock
      rw [hcount hw, hcount hh, hband.blocked.codeBlocks_eq, Nat.zero_mul, Nat.zero_div,
        Nat.zero_div]
  · obtain ⟨hex, hey⟩ := precinctExponentX_eq hc hres hempty
    refine (forall₂_comp hbands hholds).imp fun t share hshare => ?_
    obtain ⟨band, hband, hshare, -⟩ := hshare
    refine ⟨band, hband, ?_⟩
    rw [hex, hey, ← hX]
    exact hshare

/-- The far ends of the decoder's code blocks fit because the encoder formed the packets. -/
theorem endsFit (hvalid : validateRequest r = .ok ()) (hgrids : SameGrids r)
    (hc : c < r.componentSampling.length) (hres : res < r.numDecompositionLevels + 1)
    {bands : List PreparedEncodeSubband} {shares : ℕ → List PreparedEncodeSubband}
    (hbands : List.Forall₂ (BandOf r c res) (subBandTypes res) bands)
    (hholds : ∀ p < precinctCount r res, HoldsShares r res p bands (shares p))
    {t : SubBandType} (ht : t ∈ subBandTypes res) : EndsFit r c res t := by
  have h := accepted_of_validate hvalid
  obtain ⟨hX, hY⟩ := hgrids c hc res hres
  obtain ⟨hw, hh⟩ := codeBlockWidth_eq hvalid hc hres
  obtain ⟨hcw, hch, -⟩ := exponents_of_validate hvalid
  have hwle : (2 : ℕ) ^ (r.codeBlockWidthExp + 2) ≤ 2 ^ 10 :=
    Nat.pow_le_pow_right two_pos (by omega)
  have hhle : (2 : ℕ) ^ (r.codeBlockHeightExp + 2) ≤ 2 ^ 10 :=
    Nat.pow_le_pow_right two_pos (by omega)
  intro p hp
  rw [subBandRect_eq h hc hres ht]
  rcases Nat.eq_zero_or_pos r.numDecompositionLevels with hn | hn
  · obtain rfl : res = 0 := by omega
    by_cases hempty : r.precinctExponents.isEmpty
    · -- the component is no wider than a precinct
      have hgrid : precinctGrid r 0 = ⟨1, 1⟩ := if_pos hempty
      rw [hgrid] at hX hY
      dsimp only at hX hY
      obtain ⟨hex, hey⟩ := precinctExponentX_default hc hres hempty
      obtain ⟨hnX, hnY⟩ := numPrecincts_axes h hc 0
      rw [← hX, hex] at hnX
      rw [← hY, hey] at hnY
      have hwidth := (divCeil_le_iff (Nat.two_pow_pos 15)).mp hnX.ge
      have hheight := (divCeil_le_iff (Nat.two_pow_pos 15)).mp hnY.ge
      rw [Nat.sub_zero] at hwidth hheight
      refine ⟨blocksEnd_le_of_extent (by rw [hw]; exact Nat.two_pow_pos _) _ ?_,
        blocksEnd_le_of_extent (by rw [hh]; exact Nat.two_pow_pos _) _ ?_⟩
      · rw [hw]
        show lowExtent^[r.numDecompositionLevels] _ + _ ≤ _
        omega
      · rw [hh]
        show lowExtent^[r.numDecompositionLevels] _ + _ ≤ _
        omega
    · -- the encoder formed the far corner of the precinct
      have hcount : precinctCount r 0 = (resolutionTile r c 0).numPrecincts :=
        (sameCounts_iff h).mpr hgrids c hc 0 hres
      have hholds := hholds p (by rwa [hcount])
      unfold HoldsShares at hholds
      rw [if_neg hempty] at hholds
      generalize shares p = share at hholds
      obtain ⟨hex, hey⟩ := precinctExponentX_eq hc hres hempty
      obtain ⟨q, s, -, -, hq, hs⟩ := decoderSpan_eq hvalid hc hres
      have hpos {extent : ℕ} (he : 0 < extent) : lowExtent^[r.numDecompositionLevels] extent ≠ 0 := by
        rw [hn]
        exact he.ne'
      obtain ⟨hdx, hdy⟩ := h.sampling _ (List.getElem_mem hc)
      cases hbands with
      | cons hll htail =>
        cases hholds with
        | cons hshare htail' =>
          have hspan := hshare.2
          unfold SpanFits at hspan
          rw [hll.width, hll.height] at hspan
          have hfit := hspan
            (hpos (by unfold componentWidth; rw [getD_sampling hc]; exact divCeil_pos h.width_pos hdx))
            (hpos (by unfold componentHeight; rw [getD_sampling hc]; exact divCeil_pos h.height_pos hdy))
          unfold spanX spanY at hfit
          rw [← hex, ← hey, hX, hq, hs] at hfit
          rw [hq, hs]
          exact ⟨blocksEnd_le_of_span (by rw [hw]; exact Nat.two_pow_pos _) hfit.1,
            blocksEnd_le_of_span (by rw [hh]; exact Nat.two_pow_pos _) hfit.2⟩
  · have hwidth := @bandExtent_le _ res _ hn (componentWidth_le h hc) (isHighX t)
    have hheight := @bandExtent_le _ res _ hn (componentHeight_le h hc) (isHighY t)
    refine ⟨blocksEnd_le_of_extent (by rw [hw]; exact Nat.two_pow_pos _) _ ?_,
      blocksEnd_le_of_extent (by rw [hh]; exact Nat.two_pow_pos _) _ ?_⟩
    · rw [hw]
      show bandExtent _ _ _ _ + _ ≤ _
      omega
    · rw [hh]
      show bandExtent _ _ _ _ + _ ≤ _
      omega

theorem decoderComponents (r : EncodeRequest) : (decoderTile r).componentInfos =
    (List.range r.componentSampling.length).map fun c =>
      (decoderTile r).componentInfos.getD c default := by
  refine List.ext_getElem (by simp [decoderTile]) fun c hc _ => ?_
  rw [List.getElem_map, List.getElem_range, List.getD_eq_getElem?_getD,
    List.getElem?_eq_getElem hc, Option.getD_some]

/-- The decoder's decompositions, component by component. -/
theorem buildDecompositions_eq (r : EncodeRequest) : buildDecompositions (decoderTile r) =
    (List.range r.componentSampling.length).mapM fun c =>
      (List.range (r.numDecompositionLevels + 1)).mapM fun res =>
        (subBandTypes res).mapM (buildSubBand (resolutionTile r c res)) := by
  unfold buildDecompositions
  rw [decoderComponents, List.mapM_map]
  refine mapM_congr fun c hc => ?_
  rw [Function.comp_apply, componentInfo_getD (List.mem_range.mp hc),
    ← componentInfo_getD (List.mem_range.mp hc)]
  rw [show ((decoderTile r).componentInfos.getD c default).parameters.numResolutionLevels =
    r.numDecompositionLevels + 1 by rw [componentInfo_getD (List.mem_range.mp hc)]; rfl]
  rfl

/-- The decoder forms its sub-bands only if no step between precincts leaves `u32`. -/
theorem stepsFit_of_build {decompositions : List (List (List SubBand))}
    (hbuild : buildDecompositions (decoderTile r) = .ok decompositions) : StepsFit r := by
  intro c hc res hres
  rw [buildDecompositions_eq] at hbuild
  obtain ⟨_, hcomponent⟩ := exists_of_mapM_ok hbuild (List.mem_range.mpr hc)
  obtain ⟨_, hresolution⟩ := exists_of_mapM_ok hcomponent (List.mem_range.mpr hres)
  obtain ⟨t, ht⟩ : ∃ t, t ∈ subBandTypes res := by
    unfold subBandTypes
    split_ifs
    · exact ⟨.lowLow, by simp⟩
    · exact ⟨.highLow, by simp⟩
  obtain ⟨_, hsubBand⟩ := exists_of_mapM_ok hresolution ht
  unfold buildSubBand at hsubBand
  obtain ⟨_, hprecincts, -⟩ := bind_eq_ok.mp hsubBand
  by_contra hfit
  have hnone : (resolutionTile r c res).precincts = none :=
    ResolutionTile.precincts_eq_none fun hformed => hfit hformed.steps
  unfold buildPrecincts at hprecincts
  rw [hnone] at hprecincts
  cases hprecincts

/-- The decoder's decompositions, when its steps fit and its code blocks do. -/
theorem buildDecompositions_ok (hvalid : validateRequest r = .ok ()) (hfit : StepsFit r)
    (hends : ∀ c < r.componentSampling.length, ∀ res < r.numDecompositionLevels + 1,
      ∀ t ∈ subBandTypes res, EndsFit r c res t) :
    ∃ decompositions, buildDecompositions (decoderTile r) = .ok decompositions ∧
      ∀ c < r.componentSampling.length, ∀ res < r.numDecompositionLevels + 1,
        List.Forall₂ (fun t subBand => subBand.subBandType = t ∧
          ∀ p < (resolutionTile r c res).numPrecincts, ∃ precinct,
            subBand.precincts[p]? = some precinct ∧ PrecinctOf r c res t p precinct)
          (subBandTypes res) (subBandsOf decompositions c res) := by
  have hprecincts (c : ℕ) (hc : c < r.componentSampling.length) (res : ℕ)
      (hres : res < r.numDecompositionLevels + 1) (t : SubBandType) (ht : t ∈ subBandTypes res) :=
    buildPrecincts_eq hvalid hc hres hfit ht (hends c hc res hres t ht)
  choose! precinct hbuild hof using hprecincts
  let subBand (c res : ℕ) (t : SubBandType) : SubBand :=
    ⟨t, (resolutionTile r c res).subBandRect t,
      (List.range (resolutionTile r c res).numPrecincts).map (precinct c res t)⟩
  refine ⟨(List.range r.componentSampling.length).map fun c =>
    (List.range (r.numDecompositionLevels + 1)).map fun res =>
      (subBandTypes res).map (subBand c res), ?_, fun c hc res hres => ?_⟩
  · rw [buildDecompositions_eq]
    refine mapM_ok fun c hc => mapM_ok fun res hres => mapM_ok fun t ht => ?_
    unfold buildSubBand
    dsimp only
    rw [hbuild c (List.mem_range.mp hc) res (List.mem_range.mp hres) t ht]
    rfl
  · have hsubBands : subBandsOf ((List.range r.componentSampling.length).map fun c =>
        (List.range (r.numDecompositionLevels + 1)).map fun res =>
          (subBandTypes res).map (subBand c res)) c res = (subBandTypes res).map (subBand c res) := by
      simp [subBandsOf, hc, hres]
    rw [hsubBands, List.forall₂_map_right_iff, List.forall₂_same]
    intro t ht
    refine ⟨rfl, fun p hp => ⟨precinct c res t p, ?_, hof c hc res hres t ht p hp⟩⟩
    simp [subBand, hp]

theorem sameBlocks_of_share (hvalid : validateRequest r = .ok ())
    (hc : c < r.componentSampling.length) (hres : res < r.numDecompositionLevels + 1)
    {t : SubBandType} (ht : t ∈ subBandTypes res) {p : ℕ} {band share : PreparedEncodeSubband}
    (hband : BandOf r c res t band)
    (hshare : ShareOf band (2 ^ bandExponent res (resolutionTile r c res).precinctExponentX)
      (2 ^ bandExponent res (resolutionTile r c res).precinctExponentY)
      (p % (resolutionTile r c res).numPrecinctsX) (p / (resolutionTile r c res).numPrecinctsX)
      share)
    {subBand : SubBand} (htype : subBand.subBandType = t) {precinct : Precinct}
    (hprecinct : subBand.precincts[p]? = some precinct) (hof : PrecinctOf r c res t p precinct) :
    SameBlocks p share subBand := by
  obtain ⟨hw, hh⟩ := codeBlockWidth_eq hvalid hc hres
  have hrect := subBandRect_eq (accepted_of_validate hvalid) hc hres ht
  have hgrid := hshare.grid
  have hblocks := hshare.codeBlocks
  rw [hband.width, hband.height, hband.codeBlockWidth, hband.codeBlockHeight] at hgrid hblocks
  refine ⟨hshare.subBandType.trans (hband.subBandType.trans htype.symm), precinct, hprecinct,
    ?_, ?_⟩
  · rw [hof.columns, hof.rows, hrect, hw, hh]
    exact hgrid
  · rw [hof.codeBlocks, hrect, hw, hh]
    exact hblocks

end

/-- **Packet sets.** For an accepted request the encoder's packets are the decoder's
exactly when its precincts match those of every component and the decoder's steps
between precincts fit. -/
theorem packet_sets_agree_iff {r : EncodeRequest} (hvalid : validateRequest r = .ok ())
    {planes : ℕ → Buffer ℤ} {packets : List (List PreparedPacket)}
    (hprepared : preparedPackets r planes = .ok packets) {fuel : ℕ} (hfuel : packetCount r < fuel) :
    PacketsAgree fuel r packets.flatten ↔ PrecinctsMatch r ∧ StepsFit r := by
  have h := accepted_of_validate hvalid
  obtain ⟨bands, shares, hcontents⟩ := preparedPackets_ok h hprepared
  generalize packets.flatten = packets at hcontents ⊢
  have htriples := triples_eq hcontents
  rw [precinctsMatch_iff h, ← sameCounts_iff h]
  constructor
  · rintro ⟨progression, decompositions, hprogression, hbuild, -, hmem, -, -⟩
    have hfit := stepsFit_of_build hbuild
    refine ⟨fun c hc res hres => ?_, hfit⟩
    obtain ⟨l, hl, hpackets⟩ := progressionIterator_spec h hfit hfuel
    obtain rfl : l = progression := Option.some.inj (hl.symm.trans hprogression)
    have hiff (p : ℕ) : p < precinctCount r res ↔ p < (resolutionTile r c res).numPrecincts := by
      have hp := hmem c res p
      rw [htriples, mem_splitPackets] at hp
      constructor
      · intro hlt
        obtain ⟨layer, hlayer⟩ := hp.mp ⟨hres, hc, hlt⟩
        exact ((hpackets _).mp hlayer).2.2.2
      · intro hlt
        exact (hp.mpr ⟨0, (hpackets _).mpr ⟨h.layers_pos, hres, hc, hlt⟩⟩).2.2
    have h₁ := hiff (precinctCount r res)
    have h₂ := hiff (resolutionTile r c res).numPrecincts
    omega
  · rintro ⟨hcounts, hfit⟩
    have hgrids := (sameCounts_iff h).mp hcounts
    obtain ⟨l, hl, hpackets⟩ := progressionIterator_spec h hfit hfuel
    obtain ⟨decompositions, hbuild, hsubBands⟩ := buildDecompositions_ok hvalid hfit
      fun c hc res hres t ht => endsFit hvalid hgrids hc hres
        (hcontents.bands_of c hc res hres) (hcontents.holds c hc res hres) ht
    refine ⟨l, decompositions, hl, hbuild, ?_, fun c res p => ?_, fun packet hpacket => ?_,
      fun c hc res hres t ht => packetBlocks_perm hvalid hcontents hc hres ht⟩
    · rw [htriples]
      exact splitPackets_nodup r
    · rw [htriples, mem_splitPackets]
      constructor
      · rintro ⟨hres, hc, hp⟩
        exact ⟨0, (hpackets _).mpr ⟨h.layers_pos, hres, hc, hp.trans_eq (hcounts c hc res hres)⟩⟩
      · rintro ⟨layer, hlayer⟩
        obtain ⟨-, hres, hc, hp⟩ := (hpackets _).mp hlayer
        exact ⟨hres, hc, hp.trans_eq (hcounts c hc res hres).symm⟩
    · rw [hcontents.packets_eq] at hpacket
      obtain ⟨⟨c, res, p⟩, hq, rfl⟩ := List.mem_map.mp hpacket
      obtain ⟨hres, hc, hp⟩ := mem_splitPackets.mp hq
      dsimp only at hres hc hp ⊢
      have hshares := shares_of_holds hvalid hgrids hc hres hp (hcontents.bands_of c hc res hres)
        (hcontents.holds c hc res hres p hp)
      have hmem := forall₂_imp_mem hshares fun t ht share hshare => And.intro ht hshare
      refine (forall₂_comp hmem.flip (hsubBands c hc res hres)).imp ?_
      rintro share subBand ⟨t, ⟨ht, band, hband, hshare⟩, htype, hprecincts⟩
      obtain ⟨precinct, hprecinct, hof⟩ := hprecincts p (hp.trans_eq (hcounts c hc res hres))
      exact sameBlocks_of_share hvalid hc hres ht hband hshare htype hprecinct hof

end

theorem exists_of_isOk {ε α : Type} {x : Except ε α} (h : x.isOk) : ∃ a, x = .ok a := by
  cases x with
  | ok a => exact ⟨a, rfl⟩
  | error e => cases h

/-- A strip in four packets, two of them with three sub-bands. -/
theorem packet_sets_agree_strip : ∃ packets,
    preparedPackets (strip 3) (fun _ _ => 0) = .ok packets ∧
      PacketsAgree 5 (strip 3) packets.flatten := by
  obtain ⟨packets, hpackets⟩ := exists_of_isOk
    (show (preparedPackets (strip 3) fun _ _ => 0).isOk by decide)
  refine ⟨packets, hpackets, ?_⟩
  refine (packet_sets_agree_iff (r := strip 3) rfl hpackets (by decide)).mpr ⟨?_, ?_⟩
  · unfold PrecinctsMatch
    decide
  · unfold StepsFit ResolutionTile.StepsFit
    decide

/-- One row of samples, one sample wider than the largest precinct. -/
def wideRow : EncodeRequest where
  width := 32769
  height := 1
  componentSampling := [(1, 1)]
  numDecompositionLevels := 0
  codeBlockWidthExp := 4
  codeBlockHeightExp := 4
  numLayers := 1
  precinctExponents := []
  progressionOrder := .lrcp
  width_lt := by decide
  height_lt := by decide
  levels_le := by decide

/-- The encoder writes one packet where the decoder expects two. -/
theorem packet_sets_differ : validateRequest wideRow = .ok () ∧ ∃ packets,
    preparedPackets wideRow (fun _ _ => 0) = .ok packets ∧
      packets.flatten.map PreparedPacket.toPreparedResolutionPacket = [⟨0, 0, 0⟩] ∧
      progressionIterator 3 (decoderTile wideRow) = some [⟨0, 0, 0, 0⟩, ⟨0, 0, 0, 1⟩] ∧
      ¬ PacketsAgree 3 wideRow packets.flatten := by
  have hvalid : validateRequest wideRow = .ok () := rfl
  obtain ⟨packets, hpackets⟩ := exists_of_isOk
    (show (preparedPackets wideRow fun _ _ => 0).isOk by decide)
  obtain ⟨bands, shares, hcontents⟩ := preparedPackets_ok (accepted_of_validate hvalid) hpackets
  have htriples : packets.flatten.map PreparedPacket.toPreparedResolutionPacket = [⟨0, 0, 0⟩] :=
    (triples_eq hcontents).trans (by decide)
  have hprogression : progressionIterator 3 (decoderTile wideRow) =
      some [⟨0, 0, 0, 0⟩, ⟨0, 0, 0, 1⟩] := by decide
  refine ⟨hvalid, packets, hpackets, htriples, hprogression, ?_⟩
  rintro ⟨progression, -, hrun, -, -, hmem, -, -⟩
  obtain rfl : _ = progression := Option.some.inj (hprogression.symm.trans hrun)
  have hsecond := (hmem 0 0 1).mpr ⟨0, by decide⟩
  rw [htriples] at hsecond
  revert hsecond
  decide

end J2kNative.PacketSetAgreement
