import J2kNative.ClassicPasses

/-!
# The normal-style path of the coding passes

Without vertically causal contexts the path that reads the neighbors without looking at the
stripe, and that sets them by slices, is the general one. The passes agree as computations, so
that a run on either ends alike and goes through the same states.
-/
namespace J2kNative.ClassicDecoder
open RecordedRuns CountedLoops MqDecoder

section
variable {job : Job} {ctx : BitPlaneDecodeContext} {idx y : ℕ}

/-- A place with a whole row and one more cell before it. -/
theorem Job.cell_pos (x y : ℕ) : job.paddedWidth + 1 ≤ job.cell x y := by
  unfold Job.cell
  have : job.paddedWidth ≤ (y + 1) * job.paddedWidth := Nat.le_mul_of_pos_left _ (Nat.succ_pos y)
  omega

/-- The slices are the eight neighbors. -/
theorem setSignificantIndexNormal_eq (h : job.paddedWidth + 1 ≤ idx) :
    ctx.setSignificantIndexNormal job idx = ctx.setSignificantIndex job idx := by
  have htop : idx - job.paddedWidth - 1 + 1 = idx - job.paddedWidth := by omega
  have htopRight : idx - job.paddedWidth - 1 + 2 = idx - job.paddedWidth + 1 := by omega
  have hright : idx - 1 + 2 = idx + 1 := by omega
  have hbottom : idx + job.paddedWidth - 1 + 1 = idx + job.paddedWidth := by omega
  have hbottomRight : idx + job.paddedWidth - 1 + 2 = idx + job.paddedWidth + 1 := by omega
  unfold BitPlaneDecodeContext.setSignificantIndexNormal BitPlaneDecodeContext.setSignificantIndex
  dsimp only
  rw [htop,htopRight,hright,hbottom,hbottomRight]

theorem setSignificantIndexForPath_eq (normalNeighbors : Bool) (h : job.paddedWidth + 1 ≤ idx) :
    ctx.setSignificantIndexForPath job normalNeighbors idx = ctx.setSignificantIndex job idx := by
  unfold BitPlaneDecodeContext.setSignificantIndexForPath
  cases normalNeighbors with
  | false => rfl
  | true => exact setSignificantIndexNormal_eq h

variable (h : job.style.verticallyCausalContext = false)
include h

theorem neighborhood_eq :
    ctx.neighborhoodSignificanceStatesIndex job idx y =
      ctx.normalNeighborhoodSignificanceStatesIndex idx := by
  unfold BitPlaneDecodeContext.neighborhoodSignificanceStatesIndex
  rw [h,Bool.false_and]
  rfl

theorem neighborhoodForPath_eq (normalNeighbors : Bool) :
    ctx.neighborhoodSignificanceStatesForPath job normalNeighbors idx y =
      ctx.neighborhoodSignificanceStatesIndex job idx y := by
  unfold BitPlaneDecodeContext.neighborhoodSignificanceStatesForPath
  cases normalNeighbors with
  | false => rfl
  | true => exact (neighborhood_eq h).symm

theorem signContextWithNeighbors_eq (normalNeighbors : Bool) :
    ctx.contextLabelSignCodingIndexWithNeighbors job normalNeighbors idx y =
      ctx.contextLabelSignCodingIndex job idx y := by
  unfold BitPlaneDecodeContext.contextLabelSignCodingIndexWithNeighbors
  cases normalNeighbors with
  | false => rfl
  | true =>
      show ctx.contextLabelSignCodingIndexNormal job idx = ctx.contextLabelSignCodingIndex job idx y
      unfold BitPlaneDecodeContext.contextLabelSignCodingIndexNormal
        BitPlaneDecodeContext.contextLabelSignCodingIndex
      rw [neighborhood_eq h,h,Bool.false_and]
      rfl

theorem magnitudeContext_eq (normalNeighbors : Bool) :
    ctx.contextLabelMagnitudeRefinementCoding job normalNeighbors idx y =
      ctx.contextLabelMagnitudeRefinementCoding job false idx y := by
  unfold BitPlaneDecodeContext.contextLabelMagnitudeRefinementCoding
  rw [neighborhoodForPath_eq h normalNeighbors,neighborhoodForPath_eq h false]

theorem cleanupRunLengthCandidate_eq (normalNeighbors : Bool) (x baseY : ℕ) :
    cleanupRunLengthCandidate job normalNeighbors ctx x baseY =
      cleanupRunLengthCandidate job false ctx x baseY := by
  unfold cleanupRunLengthCandidate
  simp only [neighborhoodForPath_eq h]

end

/-! ## Passes -/

section
variable {δ : Type} {job : Job} (h : job.style.verticallyCausalContext = false)
  (normalNeighbors : Bool) (readBit : ℕ → Rec Moment δ Bool) (raw : Bool)
include h

theorem becomeSignificant_eq {idx y : ℕ} (hidx : job.paddedWidth + 1 ≤ idx) :
    becomeSignificant job normalNeighbors readBit raw idx y =
      becomeSignificant job false readBit raw idx y := by
  unfold becomeSignificant decodeSignBit
  simp only [signContextWithNeighbors_eq h,setSignificantIndexForPath_eq _ hidx]

theorem propagateCoefficient_eq (x y : ℕ) :
    propagateCoefficient job normalNeighbors readBit raw x y =
      propagateCoefficient job false readBit raw x y := by
  unfold propagateCoefficient
  simp only [neighborhoodForPath_eq h,
    becomeSignificant_eq h normalNeighbors readBit raw (Job.cell_pos x y)]

theorem significancePropagationPass_eq :
    significancePropagationPass job normalNeighbors readBit raw =
      significancePropagationPass job false readBit raw := by
  unfold significancePropagationPass
  simp only [propagateCoefficient_eq h normalNeighbors]

theorem magnitudeRefinementPass_eq :
    magnitudeRefinementPass job normalNeighbors readBit =
      magnitudeRefinementPass job false readBit := by
  unfold magnitudeRefinementPass refineCoefficient
  simp only [magnitudeContext_eq h normalNeighbors]

theorem cleanupCoefficient_eq (x y : ℕ) :
    cleanupCoefficient job normalNeighbors readBit raw x y =
      cleanupCoefficient job false readBit raw x y := by
  unfold cleanupCoefficient
  simp only [neighborhoodForPath_eq h,
    becomeSignificant_eq h normalNeighbors readBit raw (Job.cell_pos x y)]

theorem cleanupRunLength_eq (rest : ℕ → Rec Moment δ Unit) (x baseY : ℕ) :
    cleanupRunLength job normalNeighbors readBit raw rest x baseY =
      cleanupRunLength job false readBit raw rest x baseY := by
  unfold cleanupRunLength
  simp only [becomeSignificant_eq h normalNeighbors readBit raw (Job.cell_pos x _)]

end

theorem cleanupPassArithmetic_eq {job : Job} (h : job.style.verticallyCausalContext = false)
    (normalNeighbors : Bool) :
    cleanupPassArithmetic job normalNeighbors = cleanupPassArithmetic job false := by
  have hcoefficient : cleanupCoefficient job normalNeighbors readBitArithmetic false =
      cleanupCoefficient job false readBitArithmetic false :=
    funext₂ (cleanupCoefficient_eq h normalNeighbors readBitArithmetic false)
  unfold cleanupPassArithmetic
  simp only [cleanupRunLengthCandidate_eq h normalNeighbors,
    cleanupRunLength_eq h normalNeighbors readBitArithmetic,hcoefficient]

theorem causal_of_normal {job : Job} (h : job.usesNormalArithmeticNeighborPath) :
    job.style.verticallyCausalContext = false := by
  unfold Job.usesNormalArithmeticNeighborPath at h
  simp only [Bool.and_eq_true,Bool.not_eq_true'] at h
  exact h.2

/-- All passes of the normal path are the general ones, on any arrays and with any decoder: from
the same start they end in the same arrays and the same decoder and go through the same states. -/
theorem normal_path {job : Job} (h : job.usesNormalArithmeticNeighborPath) :
    significancePropagationPass job true readBitArithmetic false =
        significancePropagationPass job false readBitArithmetic false ∧
      magnitudeRefinementPass job true readBitArithmetic =
        magnitudeRefinementPass job false readBitArithmetic ∧
      cleanupPassArithmetic job true = cleanupPassArithmetic job false ∧
      ∀ start stop, handleArithmeticCodingPassesWithNeighbors job true start stop =
        handleArithmeticCodingPassesWithNeighbors job false start stop := by
  have hcausal := causal_of_normal h
  have hpropagation := significancePropagationPass_eq hcausal true readBitArithmetic false
  have hrefinement := magnitudeRefinementPass_eq hcausal true readBitArithmetic
  have hcleanup := cleanupPassArithmetic_eq hcausal true
  refine ⟨hpropagation,hrefinement,hcleanup,fun start stop => ?_⟩
  unfold handleArithmeticCodingPassesWithNeighbors
  rw [hpropagation,hrefinement,hcleanup]

/-- Six rows of five columns, the second stripe of two rows. -/
theorem normal_path_partial_stripe :
    handleArithmeticCodingPassesWithNeighbors ⟨5,6,9,25,true,.highLow,⟨false,true,false,false,true⟩⟩
        true 0 25 =
      handleArithmeticCodingPassesWithNeighbors
        ⟨5,6,9,25,true,.highLow,⟨false,true,false,false,true⟩⟩ false 0 25 :=
  (normal_path rfl).2.2.2 0 25

end J2kNative.ClassicDecoder
