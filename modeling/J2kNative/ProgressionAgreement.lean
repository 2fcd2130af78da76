import J2kNative.CountingProgressions
import J2kNative.PacketPlan
import J2kNative.PositionProgressions

/-!
# Packet orders of encoder and decoder compared

The encoder sorts packets by precinct index where the decoder sorts precincts by
their position on the reference grid, and it partitions every component by the
precinct grid of the whole image. The two orders agree exactly when the precinct
counts do and, in a position progression, the precincts of any two resolutions
that the progression interleaves alternate on the reference grid as their indices
do.
-/
namespace J2kNative.ProgressionAgreement
open KeyedLists TileGeometry TileTree PacketProgression CountingProgressions PositionProgressions
open PacketPlan

/-! ## Position keys against index keys -/

section
variable {L R C : ℕ} {n : ℕ → ℕ → ℕ} {pos : ℕ → ℕ → ℕ → List ℕ} {A B : ℕ → ℕ → List ℕ}

/-- Fields before the precinct, the precinct, fields after it, the layer. -/
def indexKey (A B : ℕ → ℕ → List ℕ) (d : ProgressionData) : List ℕ :=
  A d.component d.resolution ++ d.precinct :: (B d.component d.resolution ++ [d.layerNum])

/-- The same with the precinct's position for its index, which comes last but one. -/
def positionKey (pos : ℕ → ℕ → ℕ → List ℕ) (A B : ℕ → ℕ → List ℕ) (d : ProgressionData) : List ℕ :=
  A d.component d.resolution ++ (pos d.component d.resolution d.precinct ++
    (B d.component d.resolution ++ [d.precinct, d.layerNum]))

/-- The precincts of one sequence lie before those of equal index of the other, and these
before its next. -/
def Alternate (p q : ℕ → List ℕ) (m n : ℕ) : Prop :=
  ∀ i < n, (i < m → p i ≤ q i) ∧ (i + 1 < m → q i < p (i + 1))

/-- Fields of fixed length that tell components and resolutions apart. -/
structure Separates (pos : ℕ → ℕ → ℕ → List ℕ) (A B : ℕ → ℕ → List ℕ) : Prop where
  prefix_length : ∀ c r c' r', (A c r).length = (A c' r').length
  suffix_length : ∀ c r c' r', (B c r).length = (B c' r').length
  pos_length : ∀ c r i c' r' i', (pos c r i).length = (pos c' r' i').length
  inj : ∀ c r c' r', A c r = A c' r' → B c r = B c' r' → c = c' ∧ r = r'

theorem indexKey_lt (h : Separates pos A B) {a b : ProgressionData} :
    indexKey A B a < indexKey A B b ↔
      A a.component a.resolution < A b.component b.resolution ∨
      A a.component a.resolution = A b.component b.resolution ∧
        (a.precinct < b.precinct ∨ a.precinct = b.precinct ∧
          (B a.component a.resolution < B b.component b.resolution ∨
            B a.component a.resolution = B b.component b.resolution ∧ a.layerNum < b.layerNum)) := by
  unfold indexKey
  rw [append_lt_append_iff (h.prefix_length _ _ _ _), List.cons_lt_cons_iff,
    append_lt_append_iff (h.suffix_length _ _ _ _)]
  simp [List.cons_lt_cons_iff]

theorem positionKey_lt (h : Separates pos A B) {a b : ProgressionData} :
    positionKey pos A B a < positionKey pos A B b ↔
      A a.component a.resolution < A b.component b.resolution ∨
      A a.component a.resolution = A b.component b.resolution ∧
        (pos a.component a.resolution a.precinct < pos b.component b.resolution b.precinct ∨
          pos a.component a.resolution a.precinct = pos b.component b.resolution b.precinct ∧
          (B a.component a.resolution < B b.component b.resolution ∨
            B a.component a.resolution = B b.component b.resolution ∧
              (a.precinct < b.precinct ∨ a.precinct = b.precinct ∧ a.layerNum < b.layerNum))) := by
  unfold positionKey
  rw [append_lt_append_iff (h.prefix_length _ _ _ _), append_lt_append_iff (h.pos_length _ _ _ _ _ _),
    append_lt_append_iff (h.suffix_length _ _ _ _)]
  simp [List.cons_lt_cons_iff]

/-- Two keys order the packets alike exactly when the precincts of any two resolutions
with equal leading fields alternate. -/
theorem keys_agree_iff (h : Separates pos A B) (hL : 0 < L)
    (hmono : ∀ c < C, ∀ r < R, ∀ i j, i < j → j < n c r → pos c r i < pos c r j) :
    (∀ a, IsPacket L R C n a → ∀ b, IsPacket L R C n b →
        indexKey A B a < indexKey A B b → positionKey pos A B a < positionKey pos A B b) ↔
      ∀ c < C, ∀ r < R, ∀ c' < C, ∀ r' < R, A c r = A c' r' → B c r < B c' r' →
        Alternate (pos c r) (pos c' r') (n c r) (n c' r') := by
  constructor
  · intro hkeys c hc r hr c' hc' r' hr' hA hB i hi
    constructor
    · intro hi'
      have hlt := hkeys ⟨0, r, c, i⟩ ⟨hL, hr, hc, hi'⟩ ⟨0, r', c', i⟩ ⟨hL, hr', hc', hi⟩
        ((indexKey_lt h).mpr (.inr ⟨hA, .inr ⟨rfl, .inl hB⟩⟩))
      rcases (positionKey_lt h).mp hlt with hlt | ⟨-, hlt | ⟨heq, -⟩⟩
      · exact absurd hlt (by rw [hA]; exact lt_irrefl _)
      · exact hlt.le
      · exact heq.le
    · intro hi'
      have hlt := hkeys ⟨0, r', c', i⟩ ⟨hL, hr', hc', hi⟩ ⟨0, r, c, i + 1⟩ ⟨hL, hr, hc, hi'⟩
        ((indexKey_lt h).mpr (.inr ⟨hA.symm, .inl (Nat.lt_succ_self i)⟩))
      rcases (positionKey_lt h).mp hlt with hlt | ⟨-, hlt | ⟨-, hlt | ⟨heq, -⟩⟩⟩
      · exact absurd hlt (by rw [hA]; exact lt_irrefl _)
      · exact hlt
      · exact absurd hB (lt_asymm hlt)
      · exact absurd hB (by rw [heq]; exact lt_irrefl _)
  · rintro halt ⟨la, r, c, i⟩ ⟨-, hr, hc, hi⟩ ⟨lb, r', c', j⟩ ⟨-, hr', hc', hj⟩ hlt
    dsimp only at hr hc hi hr' hc' hj
    refine (positionKey_lt h).mpr ?_
    rcases (indexKey_lt h).mp hlt with hA | ⟨hA, hlt⟩
    · exact .inl hA
    refine .inr ⟨hA, ?_⟩
    have hle : ∀ c < C, ∀ r < R, ∀ i j, i ≤ j → j < n c r → pos c r i ≤ pos c r j := by
      intro c hc r hr i j hij hj
      rcases Nat.eq_or_lt_of_le hij with rfl | hij
      · exact le_rfl
      · exact (hmono c hc r hr i j hij hj).le
    dsimp only at hA hlt ⊢
    rcases lt_trichotomy (B c r) (B c' r') with hB | hB | hB
    · -- equal or later index in the later sequence
      have hij : i ≤ j := by omega
      have hpos := ((halt c hc r hr c' hc' r' hr' hA hB i (by omega)).1 hi).trans
        (hle c' hc' r' hr' i j hij hj)
      rcases lt_or_eq_of_le hpos with hpos | hpos
      · exact .inl hpos
      · exact .inr ⟨hpos, .inl hB⟩
    · obtain ⟨rfl, rfl⟩ := h.inj c r c' r' hA hB
      rcases hlt with hij | ⟨rfl, hB' | ⟨-, hl⟩⟩
      · exact .inl (hmono c hc r hr i j hij hj)
      · exact absurd hB' (lt_irrefl _)
      · exact .inr ⟨rfl, .inr ⟨rfl, .inr ⟨rfl, hl⟩⟩⟩
    · have hij : i < j := by
        rcases hlt with hij | ⟨-, hB' | ⟨hB', -⟩⟩
        · exact hij
        · exact absurd hB (lt_asymm hB')
        · exact absurd hB (by rw [hB']; exact lt_irrefl _)
      have hnext := (halt c' hc' r' hr' c hc r hr hA.symm hB i hi).2 (by omega)
      exact .inl (hnext.trans_le (hle c' hc' r' hr' (i + 1) j hij hj))

end

/-! ## The decoder's tile -/

/-- What an accepted request satisfies. -/
structure Accepted (r : EncodeRequest) : Prop where
  width_pos : 0 < r.width
  height_pos : 0 < r.height
  components_pos : 0 < r.componentSampling.length
  components_le : r.componentSampling.length ≤ 16384
  sampling : ∀ s ∈ r.componentSampling, 0 < s.1 ∧ 0 < s.2
  layers_pos : 0 < r.numLayers
  layers_le : r.numLayers ≤ 32
  exponents : r.precinctExponents = [] ∨
    r.precinctExponents.length = r.numDecompositionLevels + 1 ∧
      ∀ e ∈ r.precinctExponents, 0 < e.1 ∧ 0 < e.2

theorem accepted_of_validate {r : EncodeRequest} (h : validateRequest r = .ok ()) : Accepted r := by
  unfold validateRequest at h
  split_ifs at h with h1 h2 h3 h4 h5 h6
  have hcomponents : r.componentSampling ≠ [] := by simpa using h2
  have hsampling : ∀ s ∈ r.componentSampling, 0 < s.1 ∧ 0 < s.2 := by
    intro s hs
    simp only [List.any_eq_true, not_exists, not_and, Bool.or_eq_true, decide_eq_true_eq] at h4
    have := h4 s hs
    omega
  refine ⟨by omega, by omega, List.length_pos_iff.mpr hcomponents, by omega, hsampling, by omega,
    by omega, ?_⟩
  unfold validatePrecinctExponentsForOptions at h
  obtain ⟨-, -, h⟩ := Fallible.bind_eq_ok.mp h
  split_ifs at h with g1 g2 g3 g4
  · exact .inl (by simpa using g1)
  · refine .inr ⟨not_not.mp g2, fun e he => ?_⟩
    obtain ⟨k, hk, rfl⟩ := List.mem_iff_getElem.mp he
    simp only [List.any_eq_true, not_exists, not_and, Bool.or_eq_true, decide_eq_true_eq] at g4
    have hmin := g4 (r.precinctExponents[k], k) (List.mk_mem_zipIdx_iff_getElem?.mpr (by simp [hk]))
    have hpos (exp : ℕ) : 0 < minimumExponent exp k := by
      unfold minimumExponent
      split_ifs <;> omega
    have := hpos r.codeBlockWidthExp
    have := hpos r.codeBlockHeightExp
    dsimp only at hmin
    omega

/-- The decoder's resolution of a component of the request. -/
def resolutionTile (r : EncodeRequest) (component resolution : ℕ) : ResolutionTile :=
  ResolutionTile.new (ComponentTile.new (decoderTile r).rect
    ((decoderTile r).componentInfos.getD component default)) resolution

/-- Reference-grid position of precinct `i`, row first. -/
def position (tile : ResolutionTile) (i : ℕ) : List ℕ :=
  [i / tile.numPrecinctsX * tile.precinctYStep, i % tile.numPrecinctsX * tile.precinctXStep]

theorem decoderTile_rect (r : EncodeRequest) : (decoderTile r).rect = ⟨0, 0, r.width, r.height⟩ := by
  have hw := r.width_lt
  have hh := r.height_lt
  unfold decoderTile tileRect saturatingAdd saturatingMul u32Max SizeData.tileXCoord
    SizeData.tileYCoord
  simp only [Nat.zero_mod, Nat.zero_div, Nat.zero_mul, Nat.zero_add, Nat.one_mul, IntRect.mk.injEq]
  omega

theorem componentInfo_getD {r : EncodeRequest} {c : ℕ} (hc : c < r.componentSampling.length) :
    (decoderTile r).componentInfos.getD c default =
      ⟨⟨r.componentSampling[c].1, r.componentSampling[c].2⟩, codParameters r⟩ := by
  simp [decoderTile, hc]

theorem maxResolution_eq {r : EncodeRequest} (h : Accepted r) :
    ((decoderTile r).componentInfos.map fun c => c.parameters.numResolutionLevels).foldr max 0 =
      r.numDecompositionLevels + 1 := by
  have hpos := h.components_pos
  have hconst : (decoderTile r).componentInfos.map (fun c => c.parameters.numResolutionLevels) =
      List.replicate r.componentSampling.length (r.numDecompositionLevels + 1) := by
    refine List.eq_replicate_iff.mpr ⟨by simp [decoderTile], fun n hn => ?_⟩
    simp only [decoderTile, List.map_map, List.mem_map] at hn
    obtain ⟨s, -, rfl⟩ := hn
    rfl
  rw [hconst]
  generalize r.componentSampling.length = n at hpos
  induction n with
  | zero => omega
  | succ n ih =>
      rw [List.replicate_succ, List.foldr_cons]
      cases n with
      | zero => simp
      | succ n => rw [ih (by omega), max_self]

/-- The iterator input of the decoder's tile. -/
def wholeInput (r : EncodeRequest) : IteratorInput :=
  ⟨(0, r.numLayers), decoderTile r, (0, r.numDecompositionLevels + 1),
    (0, r.componentSampling.length)⟩

theorem iteratorInput_new {r : EncodeRequest} (h : Accepted r) :
    IteratorInput.new (decoderTile r) = some (wholeInput r) := by
  have hlen : (decoderTile r).componentInfos.length = r.componentSampling.length := by
    simp [decoderTile]
  have := h.components_le
  have := h.components_pos
  have := h.layers_le
  have := h.layers_pos
  have := r.levels_le
  unfold IteratorInput.new IteratorInput.tryNewWithCustomBounds
  dsimp only
  rw [maxResolution_eq h, hlen, Nat.min_eq_right (by omega : r.numDecompositionLevels + 1 ≤ 255),
    Nat.min_eq_right (by omega : r.componentSampling.length ≤ 65535),
    Nat.min_eq_right (show (decoderTile r).numLayers ≤ 255 from (by omega : r.numLayers ≤ 255)),
    if_neg (by omega), if_neg]
  · rfl
  · show ¬ (r.numDecompositionLevels + 1 ≤ 0 ∨ r.numLayers ≤ 0 ∨ r.componentSampling.length ≤ 0)
    omega

theorem exponents_pos {r : EncodeRequest} (h : Accepted r) {c res : ℕ}
    (hc : c < r.componentSampling.length) (hres : res < r.numDecompositionLevels + 1) :
    0 < (resolutionTile r c res).precinctExponentX ∧
      0 < (resolutionTile r c res).precinctExponentY := by
  have hexps : (resolutionTile r c res).precinctExponents =
      (codParameters r).precinctExponents.getD res (0, 0) := by
    unfold resolutionTile
    rw [componentInfo_getD hc]
    unfold ComponentTile.new ResolutionTile.new ResolutionTile.precinctExponents
    rfl
  unfold ResolutionTile.precinctExponentX ResolutionTile.precinctExponentY
  rw [hexps]
  unfold codParameters
  rcases h.exponents with hnil | ⟨hlen, hall⟩
  · simp [hnil, hres]
  · have hne : ¬ r.precinctExponents.isEmpty := by
      rw [List.isEmpty_iff]
      intro h
      simp [h] at hlen
    have hres' : res < r.precinctExponents.length := by omega
    rw [if_neg hne, List.getD_eq_getElem?_getD, List.getElem?_eq_getElem hres', Option.getD_some]
    exact hall _ (List.getElem_mem hres')

theorem ceilDiv_pos {n k : ℕ} (hn : 0 < n) (hn' : n ≤ 2 ^ 32) : 0 < ceilDivByPowerOfTwo n k := by
  rw [ceilDiv_eq k hn']
  exact (lt_divCeil_iff (Nat.two_pow_pos k)).mpr (by omega)

theorem divCeil_pos {n d : ℕ} (hn : 0 < n) (hd : 0 < d) : 0 < divCeil n d :=
  (lt_divCeil_iff hd).mpr (by omega)

/-- A resolution of a component at the origin. -/
theorem resolutionTile_rect {r : EncodeRequest} (h : Accepted r) {c : ℕ}
    (hc : c < r.componentSampling.length) (res : ℕ) :
    (resolutionTile r c res).rect =
      ⟨0, 0, ceilDivByPowerOfTwo (divCeil r.width r.componentSampling[c].1)
          (r.numDecompositionLevels - res),
        ceilDivByPowerOfTwo (divCeil r.height r.componentSampling[c].2)
          (r.numDecompositionLevels - res)⟩ := by
  obtain ⟨hdx, hdy⟩ := h.sampling _ (List.getElem_mem hc)
  have hzero {d : ℕ} (hd : 0 < d) : divCeil 0 d = 0 :=
    Nat.le_zero.mp ((divCeil_le_iff hd).mpr (by omega))
  have hzero' (k : ℕ) : ceilDivByPowerOfTwo 0 k = 0 := by
    rw [ceilDiv_eq k (Nat.zero_le _), hzero (Nat.two_pow_pos k)]
  have hcomponent : (ComponentTile.new ⟨0, 0, r.width, r.height⟩
      ⟨⟨r.componentSampling[c].1, r.componentSampling[c].2⟩, codParameters r⟩).rect =
      ⟨0, 0, divCeil r.width r.componentSampling[c].1,
        divCeil r.height r.componentSampling[c].2⟩ := by
    unfold ComponentTile.new
    dsimp only
    split_ifs with h1
    · rw [h1.1, h1.2, divCeil_one, divCeil_one]
    · rw [hzero hdx, hzero hdy]
  unfold resolutionTile
  rw [componentInfo_getD hc, decoderTile_rect]
  unfold ResolutionTile.new
  dsimp only
  rw [hcomponent, hzero']
  rfl

theorem numPrecinctsX_eq {r : EncodeRequest} (h : Accepted r) {c : ℕ}
    (hc : c < r.componentSampling.length) (res : ℕ) :
    (resolutionTile r c res).numPrecinctsX = divCeil (ceilDivByPowerOfTwo
      (divCeil r.width r.componentSampling[c].1) (r.numDecompositionLevels - res))
      (2 ^ (resolutionTile r c res).precinctExponentX) := by
  obtain ⟨hdx, -⟩ := h.sampling _ (List.getElem_mem hc)
  have hpos := ceilDiv_pos (k := r.numDecompositionLevels - res) (divCeil_pos h.width_pos hdx)
    ((divCeil_le hdx).trans r.width_lt.le)
  unfold ResolutionTile.numPrecinctsX
  rw [resolutionTile_rect h hc]
  dsimp only
  rw [if_neg hpos.ne, Nat.zero_div, Nat.sub_zero]

theorem numPrecinctsY_eq {r : EncodeRequest} (h : Accepted r) {c : ℕ}
    (hc : c < r.componentSampling.length) (res : ℕ) :
    (resolutionTile r c res).numPrecinctsY = divCeil (ceilDivByPowerOfTwo
      (divCeil r.height r.componentSampling[c].2) (r.numDecompositionLevels - res))
      (2 ^ (resolutionTile r c res).precinctExponentY) := by
  obtain ⟨-, hdy⟩ := h.sampling _ (List.getElem_mem hc)
  have hpos := ceilDiv_pos (k := r.numDecompositionLevels - res) (divCeil_pos h.height_pos hdy)
    ((divCeil_le hdy).trans r.height_lt.le)
  unfold ResolutionTile.numPrecinctsY
  rw [resolutionTile_rect h hc]
  dsimp only
  rw [if_neg hpos.ne, Nat.zero_div, Nat.sub_zero]

/-- No resolution of an accepted request is without precincts. -/
theorem numPrecincts_pos {r : EncodeRequest} (h : Accepted r) {c : ℕ}
    (hc : c < r.componentSampling.length) (res : ℕ) :
    0 < (resolutionTile r c res).numPrecincts := by
  obtain ⟨hdx, hdy⟩ := h.sampling _ (List.getElem_mem hc)
  unfold ResolutionTile.numPrecincts
  rw [numPrecinctsX_eq h hc, numPrecinctsY_eq h hc]
  exact Nat.mul_pos
    (divCeil_pos (ceilDiv_pos (divCeil_pos h.width_pos hdx)
      ((divCeil_le hdx).trans r.width_lt.le)) (Nat.two_pow_pos _))
    (divCeil_pos (ceilDiv_pos (divCeil_pos h.height_pos hdy)
      ((divCeil_le hdy).trans r.height_lt.le)) (Nat.two_pow_pos _))

theorem numResolutionLevels_eq {r : EncodeRequest} {c : ℕ} (hc : c < r.componentSampling.length) :
    ((wholeInput r).componentInfo c).parameters.numResolutionLevels =
      r.numDecompositionLevels + 1 := by
  show ((decoderTile r).componentInfos.getD c default).parameters.numResolutionLevels = _
  rw [componentInfo_getD hc]
  rfl

theorem wholeInput_maxResolution {r : EncodeRequest} {c : ℕ}
    (hc : c < r.componentSampling.length) :
    (wholeInput r).maxResolution c = r.numDecompositionLevels + 1 := by
  unfold IteratorInput.maxResolution
  rw [numResolutionLevels_eq hc]
  exact min_self _

theorem wholeInput_valid {r : EncodeRequest} (h : Accepted r) : (wholeInput r).Valid where
  layers := h.layers_pos
  resolutions := Nat.succ_pos _
  components := h.components_pos
  componentCount := by simp [wholeInput, decoderTile]

theorem decoderTile_onGrid {r : EncodeRequest} (h : Accepted r) : TileOnGrid (decoderTile r) where
  sampling info hinfo := by
    obtain ⟨s, hs, rfl⟩ := List.mem_map.mp hinfo
    exact h.sampling s hs
  x0 := by
    rw [decoderTile_rect]
    exact Nat.zero_le _
  y0 := by
    rw [decoderTile_rect]
    exact Nat.zero_le _

/-- The components of a request have the same levels, and the walks meet them all. -/
theorem wholeInput_walks {r : EncodeRequest} (h : Accepted r) :
    LayerResolutionWalks (wholeInput r) where
  firstTile := by
    rw [numResolutionLevels_eq h.components_pos]
    exact Nat.succ_pos _
  first := by
    rw [show (wholeInput r).components.1 = 0 from rfl, wholeInput_maxResolution h.components_pos]
    exact Nat.succ_pos _
  firstCount := rfl
  levels c _ hc := by
    rw [show (wholeInput r).components.1 = 0 from rfl, wholeInput_maxResolution h.components_pos,
      numResolutionLevels_eq hc]
  beyond c _ hc res hres hres' := by
    rw [show (wholeInput r).components.1 = 0 from rfl,
      wholeInput_maxResolution h.components_pos] at hres
    rw [wholeInput_maxResolution hc] at hres'
    omega

/-- The packets of the request, as its iterator bounds them. -/
theorem within_iff {r : EncodeRequest} {d : ProgressionData} : (wholeInput r).Within d ↔
    IsPacket r.numLayers (r.numDecompositionLevels + 1) r.componentSampling.length
      (fun c res => (resolutionTile r c res).numPrecincts) d := by
  constructor
  · intro hd
    have hres := hd.resolution.2
    rw [wholeInput_maxResolution hd.component.2] at hres
    exact ⟨hd.layer.2, hres, hd.component.2, hd.precinct⟩
  · rintro ⟨hl, hres, hc, hp⟩
    exact ⟨⟨Nat.zero_le _, hl⟩, ⟨Nat.zero_le _, by rwa [wholeInput_maxResolution hc]⟩,
      ⟨Nat.zero_le _, hc⟩, hp⟩

theorem axisPosition_origin (grid step i : ℕ) : axisPosition 0 0 grid step i = i * step := by
  unfold axisPosition
  rw [if_neg (by simp), Nat.zero_div, Nat.zero_add]

theorem resolutionTile_tileRect (r : EncodeRequest) (c res : ℕ) :
    (resolutionTile r c res).componentTile.tileRect = ⟨0, 0, r.width, r.height⟩ :=
  decoderTile_rect r

theorem storeOf_eq {r : EncodeRequest} (h : Accepted r) {d : ProgressionData}
    (hc : d.component < r.componentSampling.length) : storeOf (wholeInput r) d =
      let tile := resolutionTile r d.component d.resolution
      ⟨d.resolution, d.precinct / tile.numPrecinctsX * tile.precinctYStep,
        d.precinct % tile.numPrecinctsX * tile.precinctXStep, d.component, d.precinct⟩ := by
  show (⟨_, (resolutionTile r d.component d.resolution).precinctY _,
    (resolutionTile r d.component d.resolution).precinctX _, _, _⟩ : PrecinctStore) = _
  unfold ResolutionTile.precinctX ResolutionTile.precinctY
  rw [resolutionTile_tileRect, resolutionTile_rect h hc]
  simp only [axisPosition_origin]
  rfl

/-! ## When the orders agree -/

/-- The precincts of two resolutions alternate on the reference grid. -/
def Interleaved (s t : ResolutionTile) : Prop :=
  Alternate (position s) (position t) s.numPrecincts t.numPrecincts

instance (s t : ResolutionTile) : Decidable (Interleaved s t) :=
  inferInstanceAs (Decidable (∀ i < t.numPrecincts,
    (i < s.numPrecincts → position s i ≤ position t i) ∧
      (i + 1 < s.numPrecincts → position t i < position s (i + 1))))

/-- The encoder's precinct grid has as many precincts as that of each component. -/
def SameCounts (r : EncodeRequest) : Prop :=
  ∀ c < r.componentSampling.length, ∀ res < r.numDecompositionLevels + 1,
    precinctCount r res = (resolutionTile r c res).numPrecincts

/-- No precinct step of the decoder leaves `u32`. -/
def StepsFit (r : EncodeRequest) : Prop :=
  ∀ c < r.componentSampling.length, ∀ res < r.numDecompositionLevels + 1,
    (resolutionTile r c res).StepsFit

/-- The condition on the request under which both sides order its packets alike. -/
def OrdersAgree (r : EncodeRequest) : Prop :=
  let tile := resolutionTile r
  let components := r.componentSampling.length
  let resolutions := r.numDecompositionLevels + 1
  SameCounts r ∧
  match r.progressionOrder with
  | .lrcp | .rlcp => True
  | .rpcl => StepsFit r ∧ ∀ res < resolutions, ∀ c' < components, ∀ c < c',
      Interleaved (tile c res) (tile c' res)
  | .pcrl => StepsFit r ∧ ∀ c < components, ∀ res < resolutions, ∀ c' < components,
      ∀ res' < resolutions, c < c' ∨ c = c' ∧ res < res' → Interleaved (tile c res) (tile c' res')
  | .cprl => StepsFit r ∧ ∀ c < components, ∀ res' < resolutions, ∀ res < res',
      Interleaved (tile c res) (tile c res')

theorem precinctsFormed_iff {r : EncodeRequest} (h : Accepted r) :
    PrecinctsFormed (wholeInput r) ↔ StepsFit r := by
  constructor
  · intro hformed c hc res hres
    exact (hformed c (Nat.zero_le _) hc res (Nat.zero_le _)
      (by rwa [wholeInput_maxResolution hc])).steps
  · intro hfit c _ hc res _ hres
    rw [wholeInput_maxResolution hc] at hres
    have hexp := exponents_pos h hc hres
    have htile := resolutionTile_tileRect r c res
    refine ⟨fun _ => ?_, hfit c hc res hres, fun hstart => ?_, fun hstart => ?_⟩
    · change ¬ ((resolutionTile r c res).precinctExponentX = 0 ∨
        (resolutionTile r c res).precinctExponentY = 0)
      omega
    · refine absurd ?_ hstart.1
      rw [show ((wholeInput r).resolutionTile c res).componentTile.tileRect = _ from htile]
      exact Nat.zero_mod _
    · refine absurd ?_ hstart.1
      rw [show ((wholeInput r).resolutionTile c res).componentTile.tileRect = _ from htile]
      exact Nat.zero_mod _

/-- Packets of the whole tile as the decoder counts them. -/
def packetCount (r : EncodeRequest) : ℕ :=
  (allPackets r.numLayers (r.numDecompositionLevels + 1) r.componentSampling.length
    fun c res => (resolutionTile r c res).numPrecincts).length

section
variable {r : EncodeRequest} {l : List ProgressionData}

/-- The packets of an accepted request are those of the decoder's tile. -/
theorem isPacket_iff (h : Accepted r) :
    (∀ d, IsPacket r.numLayers (r.numDecompositionLevels + 1) r.componentSampling.length
        (fun _ res => precinctCount r res) d ↔
      IsPacket r.numLayers (r.numDecompositionLevels + 1) r.componentSampling.length
        (fun c res => (resolutionTile r c res).numPrecincts) d) ↔ SameCounts r := by
  constructor
  · intro hpackets c hc res hres
    have hiff (i : ℕ) : i < precinctCount r res ↔ i < (resolutionTile r c res).numPrecincts := by
      have hi := hpackets ⟨0, res, c, i⟩
      constructor
      · exact fun hlt => (hi.mp ⟨h.layers_pos, hres, hc, hlt⟩).2.2.2
      · exact fun hlt => (hi.mpr ⟨h.layers_pos, hres, hc, hlt⟩).2.2.2
    have h₁ := hiff (precinctCount r res)
    have h₂ := hiff (resolutionTile r c res).numPrecincts
    omega
  · rintro hcounts ⟨la, res, c, i⟩
    constructor
    · rintro ⟨hl, hres, hc, hi⟩
      exact ⟨hl, hres, hc, hi.trans_eq (hcounts c hc res hres)⟩
    · rintro ⟨hl, hres, hc, hi⟩
      exact ⟨hl, hres, hc, hi.trans_eq (hcounts c hc res hres).symm⟩

/-- The packets written by the encoder, in any of its orders. -/
def Written (r : EncodeRequest) (l : List ProgressionData) : Prop :=
  Enumerated (orderKey r.progressionOrder) l ∧ ∀ d, d ∈ l ↔
    IsPacket r.numLayers (r.numDecompositionLevels + 1) r.componentSampling.length
      (fun _ res => precinctCount r res) d

/-- Under one key the orders agree when the packets do. -/
theorem counting_agrees_iff (h : Accepted r) (hwritten : Written r l)
    {progression : Option (List ProgressionData)}
    (hdecoder : ∀ l', Enumerated (orderKey r.progressionOrder) l' →
      (∀ d, d ∈ l' ↔ IsPacket r.numLayers (r.numDecompositionLevels + 1)
        r.componentSampling.length (fun c res => (resolutionTile r c res).numPrecincts) d) →
      l'.length = packetCount r → progression = some l') :
    progression = some l ↔ SameCounts r := by
  have hnodup := allPackets_nodup r.numLayers (r.numDecompositionLevels + 1)
    r.componentSampling.length fun c res => (resolutionTile r c res).numPrecincts
  have hsorted := sortByKey_enumerated (hnodup.map (orderKey_injective r.progressionOrder))
  rw [hdecoder _ hsorted (fun d => mem_sortByKey.trans mem_allPackets)
    (List.length_insertionSort _ _), Option.some.injEq, ← isPacket_iff h]
  constructor
  · intro heq d
    rw [← hwritten.2 d, ← heq, mem_sortByKey, mem_allPackets]
  · intro hpackets
    refine hsorted.eq_of_mem_iff hwritten.1 fun d => ?_
    rw [hwritten.2 d, hpackets d, mem_sortByKey, mem_allPackets]

theorem position_lt (tile : ResolutionTile) (hx : 0 < tile.precinctXStep)
    (hy : 0 < tile.precinctYStep) {i j : ℕ} (hij : i < j) (hj : j < tile.numPrecincts) :
    position tile i < position tile j := by
  have hpos : 0 < tile.numPrecinctsX := Nat.pos_of_mul_pos_right (Nat.zero_lt_of_lt hj)
  unfold position
  rw [List.cons_lt_cons_iff, List.cons_lt_cons_iff]
  rcases Nat.lt_or_ge (i / tile.numPrecinctsX) (j / tile.numPrecinctsX) with hrow | hrow
  · exact .inl (Nat.mul_lt_mul_of_pos_right hrow hy)
  · have heq : i / tile.numPrecinctsX = j / tile.numPrecinctsX :=
      Nat.le_antisymm (Nat.div_le_div_right hij.le) hrow
    have hi := Nat.div_add_mod i tile.numPrecinctsX
    have hj := Nat.div_add_mod j tile.numPrecinctsX
    rw [heq] at hi
    exact .inr ⟨by rw [heq], .inl (Nat.mul_lt_mul_of_pos_right (by omega) hx)⟩

/-- A position progression against the encoder's order of the same fields. -/
theorem position_agrees_iff (h : Accepted r) (hwritten : Written r l) {A B : ℕ → ℕ → List ℕ}
    {f : PrecinctStore → List ℕ} (hinj : Function.Injective f)
    (hlen : ∀ e, (f e).length = 5)
    (hsep : Separates (fun c res => position (resolutionTile r c res)) A B)
    (hindex : ∀ d, orderKey r.progressionOrder d = indexKey A B d)
    (hposition : ∀ d : ProgressionData, d.component < r.componentSampling.length →
      f (storeOf (wholeInput r) d) ++ [d.layerNum] =
        positionKey (fun c res => position (resolutionTile r c res)) A B d) :
    positionProgressionCommon (wholeInput r) f = some l ↔ SameCounts r ∧ StepsFit r ∧
      ∀ c < r.componentSampling.length, ∀ res < r.numDecompositionLevels + 1,
        ∀ c' < r.componentSampling.length, ∀ res' < r.numDecompositionLevels + 1,
          A c res = A c' res' → B c res < B c' res' →
            Interleaved (resolutionTile r c res) (resolutionTile r c' res') := by
  have hv := wholeInput_valid h
  by_cases hfit : StepsFit r
  · obtain ⟨l', hrun, hl', hmem⟩ := positionProgressionCommon_eq hv (decoderTile_onGrid h) hinj hlen
      ((precinctsFormed_iff h).mpr hfit)
    have hmem (d : ProgressionData) := (hmem d).trans within_iff
    have hmono : ∀ c < r.componentSampling.length, ∀ res < r.numDecompositionLevels + 1,
        ∀ i j, i < j → j < (resolutionTile r c res).numPrecincts →
          position (resolutionTile r c res) i < position (resolutionTile r c res) j := by
      intro c hc res _ i j hij hj
      have hsampling := (decoderTile_onGrid h).sampling _ (componentInfo_mem hv hc)
      exact position_lt _ (Nat.mul_pos hsampling.1 (Nat.two_pow_pos _))
        (Nat.mul_pos hsampling.2 (Nat.two_pow_pos _)) hij hj
    have hagree := keys_agree_iff hsep h.layers_pos hmono
    rw [hrun, Option.some.injEq, ← isPacket_iff h]
    have hl'' : Enumerated (positionKey (fun c res => position (resolutionTile r c res)) A B) l' := by
      refine hl'.imp_of_mem fun {a b} ha hb hab => ?_
      dsimp only at hab
      rwa [hposition a ((hmem a).mp ha).2.2.1, hposition b ((hmem b).mp hb).2.2.1] at hab
    have hl : Enumerated (indexKey A B) l := by
      simpa only [funext hindex] using hwritten.1
    constructor
    · rintro rfl
      have hpackets (d : ProgressionData) := (hwritten.2 d).symm.trans (hmem d)
      refine ⟨hpackets, hfit, hagree.mp fun a ha b hb => ?_⟩
      exact (hl.eq_iff hl'' fun _ => Iff.rfl).mp rfl a ((hmem a).mpr ha) b ((hmem b).mpr hb)
    · rintro ⟨hpackets, -, hinter⟩
      have hsame (d : ProgressionData) : d ∈ l ↔ d ∈ l' := by
        rw [hwritten.2 d, hpackets d]
        exact (hmem d).symm
      refine ((hl.eq_iff hl'' hsame).mpr fun a ha b hb => ?_).symm
      exact hagree.mpr hinter a ((hmem a).mp ((hsame a).mp ha)) b ((hmem b).mp ((hsame b).mp hb))
  · constructor
    · intro hrun
      rw [positionProgressionCommon_eq_none hv f fun hf => hfit ((precinctsFormed_iff h).mp hf)]
        at hrun
      cases hrun
    · exact fun hand => absurd hand.2.1 hfit

theorem singleton_lt_iff {a b : ℕ} : [a] < [b] ↔ a < b := by
  simp [List.cons_lt_cons_iff]

theorem rpcl_agrees_iff (h : Accepted r) (horder : r.progressionOrder = .rpcl)
    (hwritten : Written r l) :
    resolutionPositionComponentLayerProgression (wholeInput r) = some l ↔ OrdersAgree r := by
  have hsep : Separates (fun c res => position (resolutionTile r c res))
      (fun _ res => [res]) (fun c _ => [c]) :=
    ⟨by simp, by simp, by simp [position], by grind⟩
  have hagree := position_agrees_iff h hwritten (A := fun _ res => [res]) (B := fun c _ => [c])
    (f := fun p => [p.resolution, p.precinctY, p.precinctX, p.componentIdx, p.precinctIdx])
    (fun a b hab => by cases a; cases b; simp_all) (fun _ => rfl) hsep
    (fun d => by rw [horder]; rfl) (fun d hd => by rw [storeOf_eq h hd]; rfl)
  refine hagree.trans ?_
  unfold OrdersAgree
  rw [horder]
  refine and_congr_right fun _ => and_congr_right fun _ => ⟨fun hall => ?_, fun hall => ?_⟩
  · intro res hres c' hc' c hlt
    exact hall c (hlt.trans hc') res hres c' hc' res hres rfl (singleton_lt_iff.mpr hlt)
  · intro c hc res hres c' hc' res' hres' heq hlt
    obtain rfl : res = res' := by simpa using heq
    exact hall res hres c' hc' c (singleton_lt_iff.mp hlt)

theorem pcrl_agrees_iff (h : Accepted r) (horder : r.progressionOrder = .pcrl)
    (hwritten : Written r l) :
    positionComponentResolutionLayerProgression (wholeInput r) = some l ↔ OrdersAgree r := by
  have hsep : Separates (fun c res => position (resolutionTile r c res))
      (fun _ _ => []) (fun c res => [c, res]) :=
    ⟨by simp, by simp, by simp [position], by grind⟩
  have hagree := position_agrees_iff h hwritten (A := fun _ _ => []) (B := fun c res => [c, res])
    (f := fun p => [p.precinctY, p.precinctX, p.componentIdx, p.resolution, p.precinctIdx])
    (fun a b hab => by cases a; cases b; simp_all) (fun _ => rfl) hsep
    (fun d => by rw [horder]; rfl) (fun d hd => by rw [storeOf_eq h hd]; rfl)
  refine hagree.trans ?_
  unfold OrdersAgree
  rw [horder]
  refine and_congr_right fun _ => and_congr_right fun _ => ⟨fun hall => ?_, fun hall => ?_⟩
  · intro c hc res hres c' hc' res' hres' hlt
    exact hall c hc res hres c' hc' res' hres' rfl (by simpa [List.cons_lt_cons_iff] using hlt)
  · intro c hc res hres c' hc' res' hres' _ hlt
    exact hall c hc res hres c' hc' res' hres' (by simpa [List.cons_lt_cons_iff] using hlt)

theorem cprl_agrees_iff (h : Accepted r) (horder : r.progressionOrder = .cprl)
    (hwritten : Written r l) :
    componentPositionResolutionLayerProgression (wholeInput r) = some l ↔ OrdersAgree r := by
  have hsep : Separates (fun c res => position (resolutionTile r c res))
      (fun c _ => [c]) (fun _ res => [res]) :=
    ⟨by simp, by simp, by simp [position], by grind⟩
  have hagree := position_agrees_iff h hwritten (A := fun c _ => [c]) (B := fun _ res => [res])
    (f := fun p => [p.componentIdx, p.precinctY, p.precinctX, p.resolution, p.precinctIdx])
    (fun a b hab => by cases a; cases b; simp_all) (fun _ => rfl) hsep
    (fun d => by rw [horder]; rfl) (fun d hd => by rw [storeOf_eq h hd]; rfl)
  refine hagree.trans ?_
  unfold OrdersAgree
  rw [horder]
  refine and_congr_right fun _ => and_congr_right fun _ => ⟨fun hall => ?_, fun hall => ?_⟩
  · intro c hc res' hres' res hlt
    exact hall c hc res (hlt.trans hres') c hc res' hres' rfl (singleton_lt_iff.mpr hlt)
  · intro c hc res hres c' hc' res' hres' heq hlt
    obtain rfl : c = c' := by simpa using heq
    exact hall c hc res' hres' res (singleton_lt_iff.mp hlt)

end

/-- The decoder expects the packets of an accepted request in the order in which they are
written exactly when `OrdersAgree` holds of the request. -/
theorem packet_orders_agree_iff {r : EncodeRequest} (hvalid : validateRequest r = .ok ())
    {descriptors : List PacketDescriptor} (hdescriptors : packetDescriptorsForOrder r = .ok descriptors)
    {fuel : ℕ} (hfuel : packetCount r < fuel) :
    progressionIterator fuel (decoderTile r) = some (descriptors.map PacketDescriptor.data) ↔
      OrdersAgree r := by
  have h := accepted_of_validate hvalid
  have hwritten : Written r (descriptors.map PacketDescriptor.data) :=
    packetDescriptorsForOrder_spec hdescriptors
  have hv := wholeInput_valid h
  have horder : (decoderTile r).progressionOrder = r.progressionOrder.toDecoder := rfl
  unfold progressionIterator progressionIteratorForOrder
  rw [if_pos (show (decoderTile r).progressionChanges.isEmpty from rfl), iteratorInput_new h,
    Option.bind_eq_bind, Option.bind_some, horder]
  cases hr : r.progressionOrder with
  | lrcp =>
      refine (counting_agrees_iff h hwritten fun l' hl' hmem hlen => ?_).trans ?_
      · rw [hr] at hl'
        exact layerResolution_spec hv (wholeInput_walks h) hl'
          (fun d => (hmem d).trans within_iff.symm) (hlen ▸ hfuel)
      · simp [OrdersAgree, hr]
  | rlcp =>
      refine (counting_agrees_iff h hwritten fun l' hl' hmem hlen => ?_).trans ?_
      · rw [hr] at hl'
        exact resolutionLayer_spec hv (wholeInput_walks h).firstTile hl'
          (fun d => (hmem d).trans within_iff.symm) (hlen ▸ hfuel)
      · simp [OrdersAgree, hr]
  | rpcl => exact rpcl_agrees_iff h hr hwritten
  | pcrl => exact pcrl_agrees_iff h hr hwritten
  | cprl => exact cprl_agrees_iff h hr hwritten

/-- One row of precincts in each of two resolutions, ordered by position. -/
def strip (lowExponent : ℕ) : EncodeRequest where
  width := 32
  height := 4
  componentSampling := [(1, 1)]
  numDecompositionLevels := 1
  codeBlockWidthExp := 0
  codeBlockHeightExp := 0
  numLayers := 1
  precinctExponents := [(lowExponent, 2), (4, 3)]
  progressionOrder := .pcrl
  width_lt := by decide
  height_lt := by decide
  levels_le := by decide

/-- The encoder writes the second precinct of the upper resolution before the third of the
lower one, which lies at the same place and comes first in the decoder's order. -/
theorem packet_orders_differ : validateRequest (strip 2) = .ok () ∧
    packetDescriptorsForOrder (strip 2) = .ok [⟨0, 0, 0, 0, 0, 0⟩, ⟨4, 4, 0, 1, 0, 0⟩,
      ⟨1, 1, 0, 0, 0, 1⟩, ⟨5, 5, 0, 1, 0, 1⟩, ⟨2, 2, 0, 0, 0, 2⟩, ⟨3, 3, 0, 0, 0, 3⟩] ∧
    progressionIterator 7 (decoderTile (strip 2)) = some [⟨0, 0, 0, 0⟩, ⟨0, 1, 0, 0⟩, ⟨0, 0, 0, 1⟩,
      ⟨0, 0, 0, 2⟩, ⟨0, 1, 0, 1⟩, ⟨0, 0, 0, 3⟩] := by
  decide

theorem packet_orders_agree_strip :
    progressionIterator 5 (decoderTile (strip 3)) =
      some [⟨0, 0, 0, 0⟩, ⟨0, 1, 0, 0⟩, ⟨0, 0, 0, 1⟩, ⟨0, 1, 0, 1⟩] := by
  have hwritten : packetDescriptorsForOrder (strip 3) = .ok [⟨0, 0, 0, 0, 0, 0⟩,
      ⟨2, 2, 0, 1, 0, 0⟩, ⟨1, 1, 0, 0, 0, 1⟩, ⟨3, 3, 0, 1, 0, 1⟩] := by decide
  refine (packet_orders_agree_iff (r := strip 3) rfl hwritten (by decide)).mpr ⟨?_, ?_, ?_⟩
  · unfold SameCounts
    decide
  · unfold StepsFit ResolutionTile.StepsFit
    decide
  · intro c hc res hres c' hc' res' hres' hlt
    obtain ⟨rfl, rfl⟩ : c = 0 ∧ c' = 0 := ⟨Nat.lt_one_iff.mp hc, Nat.lt_one_iff.mp hc'⟩
    obtain ⟨rfl, rfl⟩ : res = 0 ∧ res' = 1 := by
      have : res' < 2 := hres'
      omega
    decide
end J2kNative.ProgressionAgreement
