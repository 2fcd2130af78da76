import J2kNative.DirectWavelet
import J2kNative.DwtRoundTrip
import Mathlib.Data.List.GetD

/-!
# The direct wavelet path is exact

Both paths compute the wavelet of the plane of decoded samples: a level lifts every
column, then every row, and separates even from odd positions, whatever buffer holds
the plane. The decoder's levels undo it.
-/
namespace J2kNative.DirectWaveletAgreement
open CountedLoops Lifting ForwardDwt InverseDwt DwtRoundTrip Interruptible DirectWavelet

/-! ## One line -/

/-- The lifting of the transcoder is that of the encoder. -/
theorem reversibleLift53_eq (n : ℕ) (values : Buffer ℤ) :
    reversibleLift53 n values = forwardLift53 n values := by
  unfold reversibleLift53 forwardLift53
  split_ifs with hn heven
  · rfl
  · rfl
  · dsimp only
    rfl

theorem reversibleLift53_local : LineLocal reversibleLift53 := by
  intro n x y h i hi
  rw [reversibleLift53_eq, reversibleLift53_eq]
  exact forwardLift53_local n x y h i hi

theorem reversibleLift53_passLine (n : ℕ) (values : Buffer ℤ) :
    reversibleLift53 n values = passLine forwardLift53 n values := by
  rw [reversibleLift53_eq]
  unfold passLine
  split_ifs with hn
  · rfl
  · unfold forwardLift53
    rw [if_pos (by omega)]

section
variable {n : ℕ} (f : Buffer ℤ)

/-- The high-pass samples of a line, before the low-pass ones are updated. -/
def highPass (n : ℕ) (f : Buffer ℤ) (k : ℕ) : ℤ :=
  f (k * 2 + 1) - (f (k * 2) + f (right n (k * 2 + 1))) / 2

theorem predict_odd (k : ℕ) :
    lift (High 0) (predictAmount n) f (k * 2 + 1) = highPass n f k := by
  rw [lift_of (High_zero.mpr (by omega)), predictAmount, left_of_pos (by omega), highPass]
  rfl

theorem lift_odd {k : ℕ} (hk : k * 2 + 1 < n) :
    reversibleLift53 n f (k * 2 + 1) = highPass n f k := by
  rw [reversibleLift53_eq, forwardLift53_eq (by omega) hk, analyze,
    lift_of_not (T := fun i => ¬ High 0 i) (not_not.mpr (High_zero.mpr (by omega))), predict_odd]

theorem lift_even {k : ℕ} (hn : 2 ≤ n) (hk : k * 2 < n) :
    reversibleLift53 n f (k * 2) = f (k * 2) +
      (highPass n f (k - 1) + (if k * 2 + 1 < n then highPass n f k else highPass n f (k - 1)) + 2)
        / 4 := by
  have heven : ¬ High 0 (k * 2) := fun h => by
    have := High_zero.mp h
    omega
  rw [reversibleLift53_eq, forwardLift53_eq hn hk, analyze,
    lift_of (T := fun i => ¬ High 0 i) heven, lift_of_not heven, updateAmount]
  have hleft : left (k * 2) = (k - 1) * 2 + 1 := by
    unfold left
    split_ifs <;> omega
  have hright : right n (k * 2) = (if k * 2 + 1 < n then k else k - 1) * 2 + 1 := by
    unfold right
    split_ifs <;> omega
  rw [hleft, hright, predict_odd, predict_odd]
  split_ifs <;> rfl

/-- A line of one sample. -/
theorem lift_single (hn : n < 2) (i : ℕ) : reversibleLift53 n f i = f i := by
  unfold reversibleLift53
  rw [if_pos hn]

end

/-! ## Lifting on demand -/

section
variable {ε σ : Type} {P : σ → Prop} {n : ℕ} {sample : ℕ → Interruptible ε σ ℤ} {f : Buffer ℤ}

theorem yields_highAt (hsample : ∀ i < n, Yields P (sample i) (f i)) {k : ℕ} (hk : k * 2 + 1 < n) :
    Yields P (reversibleLift53HighAt n k sample) (highPass n f k) := by
  unfold reversibleLift53HighAt
  refine (hsample _ hk).bind ((hsample _ (by omega)).bind ?_)
  rw [Nat.add_sub_cancel]
  split_ifs with hlast hinner
  · have hvalue : highPass n f k = f (k * 2 + 1) - f (k * 2) := by
      rw [highPass, right_last (by omega), show n - 2 = k * 2 by omega]
      omega
    rw [hvalue]
    exact yields_pure
  · refine (hsample _ hinner).bind ?_
    rw [highPass, right_inner hinner]
    exact yields_pure
  · omega

theorem yields_lowAt (hsample : ∀ i < n, Yields P (sample i) (f i)) {k : ℕ} (hk : k * 2 < n) :
    Yields P (reversibleLift53LowAt n k sample) (reversibleLift53 n f (k * 2)) := by
  unfold reversibleLift53LowAt
  refine (hsample _ hk).bind ?_
  by_cases hn : n < 2
  · rw [if_pos hn, lift_single f hn]
    exact yields_pure
  rw [if_neg hn, lift_even f (by omega) hk]
  by_cases heven : n % 2 = 0
  · rw [if_pos heven, if_pos (by omega)]
    refine (yields_highAt hsample (by omega)).bind ?_
    by_cases hk0 : k = 0
    · subst hk0
      have hvalue : (highPass n f (0 - 1) + highPass n f 0 + 2) / 4 =
          floorDivI32 (highPass n f 0 + 1) 2 := by
        rw [Nat.zero_sub, floorDivI32]
        omega
      rw [if_pos rfl, hvalue]
      exact yields_pure
    · rw [if_neg hk0]
      exact (yields_highAt hsample (by omega)).bind yields_pure
  · have hhigh : ¬ n / 2 = 0 := by omega
    rw [if_neg heven]
    dsimp only
    rw [if_neg hhigh]
    have hleft : Yields P (if k > 0 then reversibleLift53HighAt n (k - 1) sample
        else reversibleLift53HighAt n 0 sample) (highPass n f (k - 1)) := by
      split_ifs with hk0
      · exact yields_highAt hsample (by omega)
      · rw [show k - 1 = 0 by omega]
        exact yields_highAt hsample (by omega)
    refine hleft.bind ?_
    have hright : Yields P (if k < n / 2 then reversibleLift53HighAt n k sample
        else pure (highPass n f (k - 1)))
        (if k * 2 + 1 < n then highPass n f k else highPass n f (k - 1)) := by
      split_ifs with hlt hin hin
      · exact yields_highAt hsample hin
      · omega
      · omega
      · exact yields_pure
    exact hright.bind yields_pure

end

/-! ## One level on a plane -/

/-- A level on a plane: columns first, then rows. -/
def levelPlane (width height : ℕ) (f : ℕ → ℕ → ℤ) (x y : ℕ) : ℤ :=
  reversibleLift53 width (fun x => reversibleLift53 height (fun y => f x y) y) x

def lowPlane (width height : ℕ) (f : ℕ → ℕ → ℤ) (x y : ℕ) : ℤ :=
  levelPlane width height f (x * 2) (y * 2)

/-- The detail bands of a level. -/
def levelOf (width height : ℕ) (f : ℕ → ℕ → ℤ) : IntegerWaveletLevel :=
  { width := width
    height := height
    lowWidth := lowExtent width
    lowHeight := lowExtent height
    highWidth := width / 2
    highHeight := height / 2
    hl := planeList (fun x y => levelPlane width height f (x * 2 + 1) (y * 2)) (width / 2)
      (lowExtent height)
    lh := planeList (fun x y => levelPlane width height f (x * 2) (y * 2 + 1)) (lowExtent width)
      (height / 2)
    hh := planeList (fun x y => levelPlane width height f (x * 2 + 1) (y * 2 + 1)) (width / 2)
      (height / 2) }

/-- The wavelet of a plane. -/
def waveletOf : ℕ → ℕ → ℕ → (ℕ → ℕ → ℤ) → IntegerWavelet
  | 0, width, height, f => ⟨planeList f width height, width, height, []⟩
  | levels + 1, width, height, f =>
      let rest := waveletOf levels (lowExtent width) (lowExtent height) (lowPlane width height f)
      { rest with levels := levelOf width height f :: rest.levels }

theorem planeList_congr {f g : ℕ → ℕ → ℤ} {width height : ℕ}
    (h : ∀ y < height, ∀ x < width, f x y = g x y) :
    planeList f width height = planeList g width height := by
  unfold planeList
  refine List.flatMap_congr fun y hy => List.map_congr_left fun x hx => ?_
  exact h y (List.mem_range.mp hy) x (List.mem_range.mp hx)

theorem planeList_length (f : ℕ → ℕ → ℤ) (width height : ℕ) :
    (planeList f width height).length = width * height := by
  unfold planeList
  rw [List.length_flatMap]
  simp only [List.length_map, List.length_range, List.map_const', List.sum_replicate_nat]
  exact Nat.mul_comm _ _

theorem toBuffer_planeList {f : ℕ → ℕ → ℤ} {width height x y : ℕ} (hx : x < width)
    (hy : y < height) : toBuffer (planeList f width height) (y * width + x) = f x y := by
  induction height with
  | zero => omega
  | succ height ih =>
      have hsplit : planeList f width (height + 1) =
          planeList f width height ++ (List.range width).map fun x => f x height := by
        unfold planeList
        rw [List.range_succ, List.flatMap_append, List.flatMap_singleton]
      have hlen := planeList_length f width height
      unfold toBuffer at ih ⊢
      rw [hsplit]
      rcases Nat.lt_succ_iff_lt_or_eq.mp hy with hlt | rfl
      · have hcell : y * width + x < width * height := by
          have := Nat.mul_le_mul_right width (Nat.succ_le_of_lt hlt)
          rw [Nat.succ_mul, Nat.mul_comm height] at this
          omega
        rw [List.getD_append _ _ _ _ (by omega)]
        exact ih hlt
      · rw [List.getD_append_right _ _ _ _ (by rw [hlen, Nat.mul_comm]; omega), hlen,
          Nat.mul_comm width, Nat.add_sub_cancel_left, List.getD_eq_getElem _ _ (by simpa using hx),
          List.getElem_map, List.getElem_range]

/-- Where the two passes of a level leave the samples of the plane. -/
theorem passes_spec {width currentWidth currentHeight : ℕ} {buffer : Buffer ℤ} {f : ℕ → ℕ → ℤ}
    (hwidth : currentWidth ≤ width)
    (h : ∀ y < currentHeight, ∀ x < currentWidth, buffer (y * width + x) = f x y) {x y : ℕ}
    (hx : x < currentWidth) (hy : y < currentHeight) :
    transformRows reversibleLift53 width currentWidth currentHeight
        (transformColumns reversibleLift53 width currentWidth currentHeight buffer)
        (slot currentHeight y * width + slot currentWidth x) =
      levelPlane currentWidth currentHeight f x y := by
  obtain ⟨hcolumns, -⟩ := @transformColumns_spec ℤ reversibleLift53 width currentWidth currentHeight
    hwidth buffer
  obtain ⟨hrows, -⟩ := transformRows_spec currentHeight hwidth reversibleLift53_local
    (transformColumns reversibleLift53 width currentWidth currentHeight buffer)
  rw [hrows _ (slot_lt hy) x hx, levelPlane]
  refine reversibleLift53_local _ _ _ (fun u hu => ?_) x hx
  rw [hcolumns u hu y hy]
  exact reversibleLift53_local _ _ _ (fun v hv => h v hv u hu) y hy

/-- The level loop computes the wavelet of the plane that its buffer holds. -/
theorem dwtLevels_eq {width : ℕ} (levels : ℕ) {currentWidth currentHeight : ℕ}
    {buffer : Buffer ℤ} {f : ℕ → ℕ → ℤ} (hwidth : currentWidth ≤ width)
    (h : ∀ y < currentHeight, ∀ x < currentWidth, buffer (y * width + x) = f x y) :
    dwtLevels width levels currentWidth currentHeight buffer =
      waveletOf levels currentWidth currentHeight f := by
  induction levels generalizing currentWidth currentHeight buffer f with
  | zero =>
      rw [dwtLevels, waveletOf, planeList_congr h]
  | succ levels ih =>
      have hplane {x y : ℕ} (hx : x < currentWidth) (hy : y < currentHeight) :=
        passes_spec hwidth h hx hy
      rw [dwtLevels, waveletOf]
      generalize transformRows reversibleLift53 width currentWidth currentHeight
        (transformColumns reversibleLift53 width currentWidth currentHeight buffer) = t at hplane ⊢
      have hw : lowExtent currentWidth + currentWidth / 2 = currentWidth := by
        unfold lowExtent
        omega
      have hh : lowExtent currentHeight + currentHeight / 2 = currentHeight := by
        unfold lowExtent
        omega
      have hrest := @ih (lowExtent currentWidth) (lowExtent currentHeight) t
        (lowPlane currentWidth currentHeight f) (by omega) fun y hy x hx => by
          have hcell := hplane (x := x * 2) (y := y * 2) (by unfold lowExtent at hx; omega)
            (by unfold lowExtent at hy; omega)
          rwa [slot_even, slot_even] at hcell
      have hhl : planeList (fun x y => t (y * width + (lowExtent currentWidth + x)))
          (currentWidth / 2) (lowExtent currentHeight) =
          (levelOf currentWidth currentHeight f).hl :=
        planeList_congr fun y hy x hx => by
          have hcell := hplane (x := x * 2 + 1) (y := y * 2) (by omega)
            (by unfold lowExtent at hy; omega)
          rwa [slot_even, slot_odd] at hcell
      have hlh : planeList (fun x y => t ((lowExtent currentHeight + y) * width + x))
          (lowExtent currentWidth) (currentHeight / 2) =
          (levelOf currentWidth currentHeight f).lh :=
        planeList_congr fun y hy x hx => by
          have hcell := hplane (x := x * 2) (y := y * 2 + 1) (by unfold lowExtent at hx; omega)
            (by omega)
          rwa [slot_even, slot_odd] at hcell
      have hhh : planeList
          (fun x y => t ((lowExtent currentHeight + y) * width + (lowExtent currentWidth + x)))
          (currentWidth / 2) (currentHeight / 2) = (levelOf currentWidth currentHeight f).hh :=
        planeList_congr fun y hy x hx => by
          have hcell := hplane (x := x * 2 + 1) (y := y * 2 + 1) (by omega) (by omega)
          rwa [slot_odd, slot_odd] at hcell
      rw [hrest, hhl, hlh, hhh]
      rfl

theorem reversibleDwt53_eq {buffer : List ℤ} {width height : ℕ} {f : ℕ → ℕ → ℤ}
    (hlen : buffer.length = width * height)
    (h : ∀ y < height, ∀ x < width, toBuffer buffer (y * width + x) = f x y) (levels : ℕ) :
    reversibleDwt53 buffer width height levels = .ok (waveletOf levels width height f) := by
  unfold reversibleDwt53
  rw [if_neg (not_not.mpr hlen), dwtLevels_eq levels le_rfl h]

/-! ## Decoded samples -/

/-- The blocks of a component cover its samples. -/
structure Covers (component : JpegDctComponent) : Prop where
  blocks : component.dequantizedBlocks.length = component.blockCols * component.blockRows
  cols : component.width ≤ component.blockCols * 8
  rows : component.height ≤ component.blockRows * 8

section
variable (idctIslowBlock : DctBlock → ℕ → Fin 256) {component : JpegDctComponent}

/-- The decoded sample at a position of the component. -/
def sampleAt (component : JpegDctComponent) (x y : ℕ) : ℤ :=
  blockSamples idctIslowBlock
    (component.dequantizedBlocks.getD (y / 8 * component.blockCols + x / 8) fun _ => 0)
    (y % 8 * 8 + x % 8)

theorem blockIdx_lt (hcovers : Covers component) {x y : ℕ} (hx : x < component.width)
    (hy : y < component.height) :
    y / 8 * component.blockCols + x / 8 < component.dequantizedBlocks.length := by
  have hrow := hcovers.rows
  have hcol := hcovers.cols
  have hle := Nat.mul_le_mul_right component.blockCols
    (show y / 8 + 1 ≤ component.blockRows by omega)
  rw [Nat.succ_mul, Nat.mul_comm component.blockRows, ← hcovers.blocks] at hle
  omega

/-- Blocks kept are those of the component, decoded. -/
structure CacheValid (component : JpegDctComponent) (idctBlocks : IdctBlocks) : Prop where
  length : idctBlocks.length = component.dequantizedBlocks.length
  decoded : ∀ i samples, idctBlocks[i]? = some (some samples) →
    samples = blockSamples idctIslowBlock (component.dequantizedBlocks.getD i fun _ => 0)

theorem yields_cachedBlock {i : ℕ} (hi : i < component.dequantizedBlocks.length) :
    Yields (CacheValid idctIslowBlock component)
      (cachedBlock idctIslowBlock i (component.dequantizedBlocks.getD i fun _ => 0))
      (blockSamples idctIslowBlock (component.dequantizedBlocks.getD i fun _ => 0)) := by
  intro idctBlocks hvalid
  have hread : ∃ cached, idctBlocks[i]? = some cached :=
    ⟨_, List.getElem?_eq_getElem (hvalid.length.symm ▸ hi)⟩
  obtain ⟨_ | samples, hread⟩ := hread
  · refine ⟨idctBlocks.set i (some (blockSamples idctIslowBlock
      (component.dequantizedBlocks.getD i fun _ => 0))), ?_, ?_, fun j samples hj => ?_⟩
    · unfold cachedBlock
      rw [hread]
    · rw [List.length_set, hvalid.length]
    · rw [List.getElem?_set] at hj
      split_ifs at hj with hij
      · rw [← hij]
        exact (Option.some.inj (Option.some.inj hj)).symm
      · exact hvalid.decoded j samples hj
  · refine ⟨idctBlocks, ?_, hvalid⟩
    unfold cachedBlock
    rw [hread, ← hvalid.decoded i samples hread]

theorem yields_componentSample (hcovers : Covers component) {x y : ℕ} (hx : x < component.width)
    (hy : y < component.height) :
    Yields (CacheValid idctIslowBlock component) (componentSample idctIslowBlock component x y)
      (sampleAt idctIslowBlock component x y) := by
  have hlt := blockIdx_lt hcovers hx hy
  have hblock : component.dequantizedBlocks[y / 8 * component.blockCols + x / 8]? =
      some (component.dequantizedBlocks.getD (y / 8 * component.blockCols + x / 8) fun _ => 0) := by
    rw [List.getElem?_eq_getElem hlt, List.getD_eq_getElem _ _ hlt]
  unfold componentSample
  rw [if_neg (by omega)]
  dsimp only
  rw [hblock]
  exact (yields_cachedBlock idctIslowBlock hlt).bind yields_pure

/-! ## The direct path -/

/-- A plane lifted along its columns only. -/
def columnsLifted (height : ℕ) (f : ℕ → ℕ → ℤ) (x y : ℕ) : ℤ :=
  reversibleLift53 height (fun y => f x y) y

theorem yields_vertical53At (hcovers : Covers component) {x k : ℕ} (hx : x < component.width)
    (lowPass : Bool) (hk : (if lowPass then k * 2 else k * 2 + 1) < component.height) :
    Yields (CacheValid idctIslowBlock component)
      (vertical53At idctIslowBlock component x k lowPass)
      (columnsLifted component.height (sampleAt idctIslowBlock component) x
        (if lowPass then k * 2 else k * 2 + 1)) := by
  have hsample : ∀ y < component.height, Yields (CacheValid idctIslowBlock component)
      (componentSample idctIslowBlock component x y) (sampleAt idctIslowBlock component x y) :=
    fun y hy => yields_componentSample idctIslowBlock hcovers hx hy
  unfold vertical53At columnsLifted
  cases lowPass with
  | true => exact yields_lowAt hsample hk
  | false =>
      have hodd : k * 2 + 1 < component.height := hk
      rw [if_neg (by decide), if_neg (by decide), lift_odd _ hodd]
      exact yields_highAt hsample hodd

/-- A row lifted after its samples were. -/
theorem liftedRow_eq {width height : ℕ} (f : ℕ → ℕ → ℤ) (y : ℕ) :
    liftedRow width ((List.range width).map fun x => columnsLifted height f x y) =
      ((List.range (lowExtent width)).map fun i => levelPlane width height f (i * 2) y,
        (List.range (width / 2)).map fun i => levelPlane width height f (i * 2 + 1) y) := by
  have hrow : ∀ x < width,
      reversibleLift53 width (toBuffer ((List.range width).map fun x =>
        columnsLifted height f x y)) x = levelPlane width height f x y := by
    intro x hx
    refine reversibleLift53_local _ _ _ (fun u hu => ?_) x hx
    unfold toBuffer
    rw [List.getD_eq_getElem _ _ (by simpa using hu), List.getElem_map, List.getElem_range]
    rfl
  unfold liftedRow
  refine Prod.ext (List.map_congr_left fun i hi => hrow _ ?_)
    (List.map_congr_left fun i hi => hrow _ ?_)
  · have := List.mem_range.mp hi
    unfold lowExtent at this
    omega
  · have := List.mem_range.mp hi
    omega

theorem yields_directRows (hcovers : Covers component) (lowPass : Bool) {rows : ℕ}
    (hrows : ∀ k < rows, (if lowPass then k * 2 else k * 2 + 1) < component.height) :
    Yields (CacheValid idctIslowBlock component)
      (directRows idctIslowBlock component lowPass rows)
      (planeList (fun x y => levelPlane component.width component.height
          (sampleAt idctIslowBlock component) (x * 2) (if lowPass then y * 2 else y * 2 + 1))
          (lowExtent component.width) rows,
        planeList (fun x y => levelPlane component.width component.height
          (sampleAt idctIslowBlock component) (x * 2 + 1) (if lowPass then y * 2 else y * 2 + 1))
          (component.width / 2) rows) := by
  have hrow : ∀ k ∈ List.range rows, Yields (CacheValid idctIslowBlock component)
      (do
        let row ← (List.range component.width).mapM fun x =>
          vertical53At idctIslowBlock component x k lowPass
        pure (liftedRow component.width row))
      (liftedRow component.width ((List.range component.width).map fun x =>
        columnsLifted component.height (sampleAt idctIslowBlock component) x
          (if lowPass then k * 2 else k * 2 + 1))) := fun k hk =>
    (Yields.mapM fun x hx => yields_vertical53At idctIslowBlock hcovers (List.mem_range.mp hx)
      lowPass (hrows k (List.mem_range.mp hk))).bind yields_pure
  have hrun := (Yields.mapM hrow).bind (f := fun lifted =>
    (pure (lifted.flatMap Prod.fst, lifted.flatMap Prod.snd) : Direct (List ℤ × List ℤ)))
    yields_pure
  simp only [liftedRow_eq, List.flatMap_map] at hrun
  exact hrun

theorem yields_integerDirectFirstLevel (hcovers : Covers component) :
    Yields (CacheValid idctIslowBlock component)
      (integerDirectFirstLevel idctIslowBlock component)
      (planeList (lowPlane component.width component.height (sampleAt idctIslowBlock component))
          (lowExtent component.width) (lowExtent component.height),
        levelOf component.width component.height (sampleAt idctIslowBlock component)) := by
  have hlow := @yields_directRows idctIslowBlock component hcovers true
    (lowExtent component.height) fun k hk => by
      rw [if_pos rfl]
      unfold lowExtent at hk
      omega
  have hhigh := @yields_directRows idctIslowBlock component hcovers false
    (component.height / 2) fun k hk => by
      rw [if_neg (by decide)]
      omega
  exact hlow.bind (hhigh.bind yields_pure)

theorem cacheValid_empty : CacheValid idctIslowBlock component
    (List.replicate component.dequantizedBlocks.length none) where
  length := List.length_replicate
  decoded := fun i samples h => by
    rw [List.getElem?_replicate] at h
    split_ifs at h
    cases Option.some.inj h

/-- The direct path computes the wavelet of the decoded plane. -/
theorem integerDirectWavelet_eq (hcovers : Covers component) {levels : ℕ} (hlevels : 1 ≤ levels) :
    integerDirectWavelet idctIslowBlock component levels =
      .ok (waveletOf levels component.width component.height
        (sampleAt idctIslowBlock component)) := by
  obtain ⟨t, hrun, -⟩ := yields_integerDirectFirstLevel idctIslowBlock hcovers _
    (cacheValid_empty idctIslowBlock)
  have hgrid : validateComponentBlockGrid component = .ok () :=
    if_neg (not_not.mpr hcovers.blocks)
  obtain ⟨levels, rfl⟩ := Nat.exists_eq_succ_of_ne_zero (Nat.ne_of_gt hlevels)
  unfold integerDirectWavelet
  rw [hgrid]
  show ((integerDirectFirstLevel idctIslowBlock component _).1 >>= fun first =>
    integerWaveletFromFirstParts first.1 first.2 (levels + 1)) = _
  rw [hrun]
  show integerWaveletFromFirstParts _ _ (levels + 1) = _
  unfold integerWaveletFromFirstParts
  rw [Nat.add_sub_cancel, waveletOf]
  cases levels with
  | zero => rfl
  | succ levels =>
      dsimp only
      rw [if_pos (Nat.succ_pos levels)]
      have htail := reversibleDwt53_eq (planeList_length (lowPlane component.width component.height
        (sampleAt idctIslowBlock component)) (lowExtent component.width)
        (lowExtent component.height)) (fun y hy x hx => toBuffer_planeList hx hy) (levels + 1)
      have hdims : (levelOf component.width component.height
          (sampleAt idctIslowBlock component)).lowWidth = lowExtent component.width ∧
          (levelOf component.width component.height
          (sampleAt idctIslowBlock component)).lowHeight = lowExtent component.height := ⟨rfl, rfl⟩
      rw [hdims.1, hdims.2, htail]
      rfl

/-! ## The reference path -/

/-- A block is written to its place and nowhere else. -/
theorem storeBlock_spec (blockX blockY : ℕ) (block : DctBlock) (samples : Buffer ℤ) {x y : ℕ}
    (hx : x < component.width) (hy : y < component.height) :
    storeBlock idctIslowBlock component blockX blockY block samples (y * component.width + x) =
      if x / 8 = blockX ∧ y / 8 = blockY then
        blockSamples idctIslowBlock block (y % 8 * 8 + x % 8)
      else samples (y * component.width + x) := by
  have hline : ∀ (localY : ℕ), localY < 8 → ∀ s : Buffer ℤ, ∀ {x y : ℕ}, x < component.width →
      y < component.height → forRange 8 (fun localX samples =>
        if blockX * 8 + localX ≥ component.width then samples
        else samples.set ((blockY * 8 + localY) * component.width + (blockX * 8 + localX))
          (blockSamples idctIslowBlock block (localY * 8 + localX))) s
          (y * component.width + x) =
        if x / 8 = blockX ∧ y = blockY * 8 + localY then
          blockSamples idctIslowBlock block (localY * 8 + x % 8)
        else s (y * component.width + x) := by
    intro localY _ s x y hx hy
    have hrun := forRange_induction (n := 8) (f := fun localX (samples : Buffer ℤ) =>
        if blockX * 8 + localX ≥ component.width then samples
        else samples.set ((blockY * 8 + localY) * component.width + (blockX * 8 + localX))
          (blockSamples idctIslowBlock block (localY * 8 + localX))) (s := s)
      (fun k (t : Buffer ℤ) => t (y * component.width + x) =
        if (x / 8 = blockX ∧ x % 8 < k) ∧ y = blockY * 8 + localY then
          blockSamples idctIslowBlock block (localY * 8 + x % 8)
        else s (y * component.width + x)) (by rw [if_neg (by omega)]) ?_
    · rw [hrun]
      exact if_congr (by omega) rfl rfl
    · intro k hk t ht
      by_cases hin : blockX * 8 + k ≥ component.width
      · rw [if_pos hin, ht]
        exact if_congr (by omega) rfl rfl
      rw [if_neg hin]
      by_cases hcell : y * component.width + x =
          (blockY * 8 + localY) * component.width + (blockX * 8 + k)
      · obtain ⟨hrow, hcol⟩ := cell_inj hx (by omega) hcell
        rw [hcell, Buffer.set_self, if_pos (by omega), show x % 8 = k by omega]
      · have hne : ¬ (y = blockY * 8 + localY ∧ x = blockX * 8 + k) := fun h =>
          hcell (by rw [h.1, h.2])
        rw [Buffer.set_of_ne _ _ hcell, ht]
        exact if_congr (by omega) rfl rfl
  have hrun := forRange_induction (n := 8) (f := fun localY (samples : Buffer ℤ) =>
      if blockY * 8 + localY ≥ component.height then samples
      else forRange 8 (fun localX samples =>
        if blockX * 8 + localX ≥ component.width then samples
        else samples.set ((blockY * 8 + localY) * component.width + (blockX * 8 + localX))
          (blockSamples idctIslowBlock block (localY * 8 + localX))) samples) (s := samples)
    (fun k (t : Buffer ℤ) => t (y * component.width + x) =
      if x / 8 = blockX ∧ y / 8 = blockY ∧ y % 8 < k then
        blockSamples idctIslowBlock block (y % 8 * 8 + x % 8)
      else samples (y * component.width + x)) (by rw [if_neg (by omega)]) ?_
  · unfold storeBlock
    dsimp only
    rw [hrun]
    exact if_congr (by omega) rfl rfl
  · intro k hk t ht
    by_cases hin : blockY * 8 + k ≥ component.height
    · rw [if_pos hin, ht]
      exact if_congr (by omega) rfl rfl
    rw [if_neg hin, hline k hk t hx hy, ht]
    by_cases hrow : y = blockY * 8 + k
    · by_cases hcol : x / 8 = blockX
      · rw [if_pos ⟨hcol, hrow⟩, if_pos (by omega), show y % 8 = k by omega]
      · rw [if_neg (by omega), if_neg (by omega), if_neg (by omega)]
    · rw [if_neg (by omega)]
      exact if_congr (by omega) rfl rfl

/-- What the turn for a block row leaves at a sample. -/
theorem blockRow_spec (hcovers : Covers component) (blockY : ℕ) (s : Buffer ℤ) {x y : ℕ}
    (hx : x < component.width) (hy : y < component.height) :
    forRange component.blockCols (fun blockX samples =>
      match component.dequantizedBlocks[blockY * component.blockCols + blockX]? with
      | none => samples
      | some block => storeBlock idctIslowBlock component blockX blockY block samples) s
      (y * component.width + x) =
    if y / 8 = blockY then sampleAt idctIslowBlock component x y
    else s (y * component.width + x) := by
  have hcol := hcovers.cols
  refine (forRange_induction (fun k (t : Buffer ℤ) => t (y * component.width + x) =
    if x / 8 < k ∧ y / 8 = blockY then sampleAt idctIslowBlock component x y
    else s (y * component.width + x)) (by rw [if_neg (by omega)]) ?_).trans
      (if_congr (by omega) rfl rfl)
  intro k hk t ht
  by_cases hhere : x / 8 = k ∧ y / 8 = blockY
  · have hlt := blockIdx_lt hcovers hx hy
    rw [hhere.1, hhere.2] at hlt
    rw [List.getElem?_eq_getElem hlt]
    dsimp only
    rw [storeBlock_spec idctIslowBlock k blockY _ t hx hy, if_pos hhere, if_pos (by omega),
      sampleAt, hhere.1, hhere.2, List.getD_eq_getElem _ _ hlt]
  · cases component.dequantizedBlocks[blockY * component.blockCols + k]? with
    | none =>
        dsimp only
        rw [ht]
        exact if_congr (by omega) rfl rfl
    | some block =>
        dsimp only
        rw [storeBlock_spec idctIslowBlock k blockY block t hx hy, if_neg hhere, ht]
        exact if_congr (by omega) rfl rfl

/-- The decoded plane of the reference path. -/
theorem idctComponentSamples_spec (hcovers : Covers component) :
    ∃ samples, idctComponentSamples idctIslowBlock component = .ok samples ∧
      samples.length = component.width * component.height ∧
      ∀ y < component.height, ∀ x < component.width,
        toBuffer samples (y * component.width + x) = sampleAt idctIslowBlock component x y := by
  have hgrid : validateComponentBlockGrid component = .ok () :=
    if_neg (not_not.mpr hcovers.blocks)
  unfold idctComponentSamples
  rw [hgrid]
  refine ⟨_, rfl, by rw [List.length_map, List.length_range], fun y hy x hx => ?_⟩
  have hcell : y * component.width + x < component.width * component.height := by
    have := Nat.mul_le_mul_right component.width (Nat.succ_le_of_lt hy)
    rw [Nat.succ_mul, Nat.mul_comm component.height] at this
    omega
  have hrows := hcovers.rows
  unfold toBuffer
  rw [List.getD_eq_getElem _ _ (by simpa using hcell), List.getElem_map, List.getElem_range]
  refine forRange_induction (fun k (t : Buffer ℤ) => y / 8 < k → t (y * component.width + x) =
    sampleAt idctIslowBlock component x y) (fun h => absurd h (Nat.not_lt_zero _)) ?_ (by omega)
  intro k hk t ht hlt
  refine (blockRow_spec idctIslowBlock hcovers k t hx hy).trans ?_
  split_ifs with hhere
  · rfl
  · exact ht (by omega)

/-- The reference path computes the wavelet of the decoded plane. -/
theorem integerReferenceWavelet_eq (hcovers : Covers component) (levels : ℕ) :
    integerReferenceWavelet idctIslowBlock component levels =
      .ok (waveletOf levels component.width component.height
        (sampleAt idctIslowBlock component)) := by
  obtain ⟨samples, hrun, hlen, hsamples⟩ := idctComponentSamples_spec idctIslowBlock hcovers
  unfold integerReferenceWavelet
  rw [hrun]
  exact reversibleDwt53_eq hlen hsamples levels

end

/-! ## Undoing the levels -/

/-- The decoder's view of a level, its bands as buffers. -/
def toDecomposition (level : IntegerWaveletLevel) : Decomposition :=
  { rect := ⟨0, 0, level.width, level.height⟩
    hl := toBuffer level.hl
    lh := toBuffer level.lh
    hh := toBuffer level.hh }

/-- A buffer of row width `width` holds a plane. -/
def HoldsPlane (buffer : Buffer ℤ) (f : ℕ → ℕ → ℤ) (width height : ℕ) : Prop :=
  ∀ y < height, ∀ x < width, buffer (y * width + x) = f x y

theorem bandSample_levelOf {width height : ℕ} {f : ℕ → ℕ → ℤ} {input : Buffer ℤ}
    (hin : HoldsPlane input (lowPlane width height f) (lowExtent width) (lowExtent height))
    {x y : ℕ} (hx : x < width) (hy : y < height) :
    bandSample input (toDecomposition (levelOf width height f)) x y =
      levelPlane width height f x y := by
  have hlow : ∀ n, TileGeometry.divCeil n 2 = lowExtent n := fun n => divCeil_two n
  have hw : lowExtent width + width / 2 = width := by
    unfold lowExtent
    omega
  have hh : lowExtent height + height / 2 = height := by
    unfold lowExtent
    omega
  unfold bandSample toDecomposition
  dsimp only
  rw [hlow]
  split_ifs with hy2 hx2 hx2
  · refine (hin (y / 2) (by omega) (x / 2) (by omega)).trans ?_
    rw [lowPlane, show x / 2 * 2 = x by omega, show y / 2 * 2 = y by omega]
  · unfold levelOf
    rw [toBuffer_planeList (by omega) (by omega), show x / 2 * 2 + 1 = x by omega,
      show y / 2 * 2 = y by omega]
  · unfold levelOf
    rw [toBuffer_planeList (by omega) (by omega), show x / 2 * 2 = x by omega,
      show y / 2 * 2 + 1 = y by omega]
  · unfold levelOf
    rw [toBuffer_planeList (by omega) (by omega), show x / 2 * 2 + 1 = x by omega,
      show y / 2 * 2 + 1 = y by omega]

/-- The decoder undoes a level: rows first, then columns. -/
theorem applyLevel_levelOf {width height : ℕ} {f : ℕ → ℕ → ℤ} {input : Buffer ℤ}
    (target : Buffer ℤ)
    (hin : HoldsPlane input (lowPlane width height f) (lowExtent width) (lowExtent height)) :
    HoldsPlane (applyLevel input target (toDecomposition (levelOf width height f))) f width
      height := by
  intro y hy x hx
  have hrun := applyLevel_spec input target (toDecomposition (levelOf width height f)) rfl rfl hx hy
  refine hrun.trans ?_
  refine (synthesizeLine_congr 0 hy fun v hv => ?_).trans
    (synthesizeLine_passLine (fun y => f x y) hy)
  refine (synthesizeLine_congr 0 hx fun u hu => bandSample_levelOf hin hu hv).trans ?_
  have hinner := synthesizeLine_passLine (fun x => passLine forwardLift53 height
    (fun y => f x y) v) hx
  unfold levelPlane
  simp only [reversibleLift53_passLine]
  exact hinner

/-- The turns for the levels of a wavelet rebuild its plane. -/
theorem applySteps_waveletOf (ll : Buffer ℤ) (levels : ℕ) {width height : ℕ} {f : ℕ → ℕ → ℤ}
    {st : LevelState} (hst : Alternating st)
    (hin : HoldsPlane (currentBuffer ll st)
      (fun x y => toBuffer (waveletOf levels width height f).finalLl
        (y * (waveletOf levels width height f).finalLlWidth + x))
      (waveletOf levels width height f).finalLlWidth
      (waveletOf levels width height f).finalLlHeight) :
    ∃ st', ((waveletOf levels width height f).levels.reverse.map toDecomposition).foldlM
        (applyStep ll) st = some st' ∧ Alternating st' ∧
      HoldsPlane (currentBuffer ll st') f width height ∧
      st'.useScratch = (st.useScratch ^^ decide (levels % 2 = 1)) ∧
      (levels ≠ 0 → st'.rect = ⟨0, 0, width, height⟩ ∧ st'.currentSource ≠ .subBand) := by
  induction levels generalizing width height f with
  | zero =>
      refine ⟨st, rfl, hst, fun y hy x hx => ?_, by simp, fun h => absurd rfl h⟩
      have hcell := hin y hy x hx
      rw [waveletOf] at hcell
      exact hcell.trans (toBuffer_planeList hx hy)
  | succ levels ih =>
      rw [waveletOf] at hin ⊢
      obtain ⟨st₁, hrun, hst₁, hholds, huse, -⟩ := ih hin
      obtain ⟨st₂, target, hstep, hst₂, hbuffer, huse₂, hrect, hsource⟩ :=
        applyStep_spec ll (toDecomposition (levelOf width height f)) hst₁
      refine ⟨st₂, ?_, hst₂, ?_, ?_, fun _ => ⟨hrect, hsource⟩⟩
      · dsimp only
        rw [List.reverse_cons, List.map_append, List.foldlM_append, hrun]
        refine (Option.bind_some _ _).trans ?_
        rw [List.map_singleton, List.foldlM_cons, hstep]
        rfl
      · rw [hbuffer]
        exact applyLevel_levelOf target hholds
      · rw [huse₂, huse]
        rcases Nat.mod_two_eq_zero_or_one levels with h | h
        · have hs : (levels + 1) % 2 = 1 := by omega
          simp [h, hs]
        · have hs : (levels + 1) % 2 = 0 := by omega
          simp [h, hs]

theorem waveletOf_levels (levels width height : ℕ) (f : ℕ → ℕ → ℤ) :
    (waveletOf levels width height f).levels.length = levels := by
  induction levels generalizing width height f with
  | zero => rfl
  | succ levels ih =>
      rw [waveletOf]
      exact congrArg (· + 1) (ih _ _ _)

/-- The decoder rebuilds the plane from its wavelet, whatever its two buffers held. -/
theorem applyI64_waveletOf {levels : ℕ} (hlevels : 1 ≤ levels) (width height : ℕ)
    (f : ℕ → ℕ → ℤ) (scratch output : Buffer ℤ) : ∃ out,
      applyI64 (toBuffer (waveletOf levels width height f).finalLl)
        ⟨0, 0, (waveletOf levels width height f).finalLlWidth,
          (waveletOf levels width height f).finalLlHeight⟩
        ((waveletOf levels width height f).levels.reverse.map toDecomposition) 0 scratch output =
          some (out, ⟨0, 0, width, height⟩) ∧ HoldsPlane out f width height := by
  have hlen : ((waveletOf levels width height f).levels.reverse.map toDecomposition).length =
      levels := by
    rw [List.length_map, List.length_reverse, waveletOf_levels]
  let start : LevelState := ⟨scratch, output, levels % 2 = 0, .subBand,
    ⟨0, 0, (waveletOf levels width height f).finalLlWidth,
      (waveletOf levels width height f).finalLlHeight⟩⟩
  obtain ⟨st', hrun, hst', hholds, huse, hlast⟩ := @applySteps_waveletOf
    (toBuffer (waveletOf levels width height f).finalLl) levels width height f start trivial
    fun y _ x _ => rfl
  obtain ⟨hrect, hsource⟩ := hlast (by omega)
  have huse' : st'.useScratch = true := by
    rw [huse]
    rcases Nat.mod_two_eq_zero_or_one levels with h | h <;> simp [start, h]
  -- a turn that would write the scratch buffer next has left the output buffer
  have houtput : st'.currentSource = .output := by
    unfold Alternating at hst'
    cases hcase : st'.currentSource with
    | subBand => exact absurd hcase hsource
    | scratch =>
        rw [hcase] at hst'
        exact absurd (hst'.symm.trans huse') (by decide)
    | output => rfl
  have hbuffer : currentBuffer (toBuffer (waveletOf levels width height f).finalLl) st' =
      st'.output := by
    unfold currentBuffer
    rw [houtput]
  rw [hbuffer] at hholds
  refine ⟨st'.output, ?_, hholds⟩
  generalize (waveletOf levels width height f).levels.reverse.map toDecomposition = ds at hrun hlen ⊢
  have hempty : ds.isEmpty = false := by
    cases ds with
    | nil =>
        rw [List.length_nil] at hlen
        omega
    | cons => rfl
  unfold applyI64
  rw [Nat.sub_zero, List.take_length]
  dsimp only
  rw [hempty, if_neg Bool.false_ne_true, hlen, hrun, Option.map_some, hrect]

/-- **Exact direct path.** Over a grid of blocks that covers the component, both paths yield
one wavelet, which the decoder turns back into the decoded samples. -/
theorem direct_wavelet_exact (idctIslowBlock : DctBlock → ℕ → Fin 256)
    (component : JpegDctComponent) (hcovers : Covers component) (levels : ℕ) (hlevels : 1 ≤ levels)
    (scratch output : Buffer ℤ) : ∃ wavelet,
      integerDirectWavelet idctIslowBlock component levels = .ok wavelet ∧
      integerReferenceWavelet idctIslowBlock component levels = .ok wavelet ∧
      integerReferenceCoefficients idctIslowBlock component levels =
        .ok (flattenIntegerWavelet wavelet) ∧
      ∃ samples out, idctComponentSamples idctIslowBlock component = .ok samples ∧
        applyI64 (toBuffer wavelet.finalLl) ⟨0, 0, wavelet.finalLlWidth, wavelet.finalLlHeight⟩
          (wavelet.levels.reverse.map toDecomposition) 0 scratch output =
            some (out, ⟨0, 0, component.width, component.height⟩) ∧
        ∀ i < samples.length, out i = toBuffer samples i := by
  have hreference := integerReferenceWavelet_eq idctIslowBlock hcovers levels
  obtain ⟨samples, hsamples, hlen, hplane⟩ := idctComponentSamples_spec idctIslowBlock hcovers
  refine ⟨_, integerDirectWavelet_eq idctIslowBlock hcovers hlevels, hreference, ?_, samples, ?_⟩
  · unfold integerReferenceCoefficients
    rw [hreference]
    rfl
  obtain ⟨out, hrun, hholds⟩ := applyI64_waveletOf hlevels component.width component.height
    (sampleAt idctIslowBlock component) scratch output
  refine ⟨out, hsamples, hrun, fun i hi => ?_⟩
  rw [hlen] at hi
  have hwidth : 0 < component.width := Nat.pos_of_ne_zero fun h => by
    rw [h, Nat.zero_mul] at hi
    exact absurd hi (Nat.not_lt_zero i)
  have hcell : i / component.width * component.width + i % component.width = i := by
    rw [Nat.mul_comm]
    exact Nat.div_add_mod i component.width
  have hrow : i / component.width < component.height :=
    Nat.div_lt_of_lt_mul hi
  rw [← hcell, hholds _ hrow _ (Nat.mod_lt _ hwidth), hplane _ hrow _ (Nat.mod_lt _ hwidth)]

/-- A component of 3 by 2 samples in one block, through two levels. -/
theorem direct_wavelet_exact_small : ∃ (component : JpegDctComponent) (wavelet : IntegerWavelet)
    (out : Buffer ℤ),
    integerDirectWavelet (fun block i => Fin.ofNat 256 (block i).toNat) component 2 =
      .ok wavelet ∧
    applyI64 (toBuffer wavelet.finalLl) ⟨0, 0, wavelet.finalLlWidth, wavelet.finalLlHeight⟩
      (wavelet.levels.reverse.map toDecomposition) 0 (fun _ => 0) (fun _ => 0) =
        some (out, ⟨0, 0, 3, 2⟩) := by
  obtain ⟨wavelet, hdirect, -, -, samples, out, -, hrun, -⟩ := direct_wavelet_exact
    (fun block i => Fin.ofNat 256 (block i).toNat) ⟨3, 2, 1, 1, [fun i => i]⟩
    ⟨rfl, by decide, by decide⟩ 2 (by decide) (fun _ => 0) (fun _ => 0)
  exact ⟨_, wavelet, out, hdirect, hrun⟩

end J2kNative.DirectWaveletAgreement
