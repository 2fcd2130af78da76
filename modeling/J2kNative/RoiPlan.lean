import J2kNative.Fallible
import J2kNative.MainHeader
import J2kNative.TileGeometry

/-!
# Regions of interest

The options of the encoder for regions of interest, their checks, and the plan that
is made of them: for each component one shift, and the rectangles on its grid that
are shifted. A component with a shift and no rectangle is shifted as a whole.
-/
namespace J2kNative.RoiPlan
open MainHeader Fallible TileGeometry

inductive NativeEncodePipelineError where
  | invalidInput (what : String)
  | unsupported (what : String)
  | arithmeticOverflow (what : String)
  | internalInvariant (what : String)
  deriving DecidableEq, Repr

open NativeEncodePipelineError

/-- Positions and sizes are of 32 bits, components of 16 and shifts of 8. -/
structure EncodeRoiRegion where
  component : ℕ
  x : ℕ
  y : ℕ
  width : ℕ
  height : ℕ
  shift : ℕ
  deriving DecidableEq, Repr

structure EncodeOptions where
  roiComponentShifts : List ℕ
  componentSampling : Option (List (ℕ × ℕ))
  deriving DecidableEq, Repr

structure ComponentRoiEncodeRegion where
  x : ℕ
  y : ℕ
  width : ℕ
  height : ℕ
  deriving DecidableEq, Repr

structure ComponentRoiEncodePlan where
  shift : ℕ
  regions : List ComponentRoiEncodeRegion
  deriving DecidableEq, Repr

def maxJ2kSpecComponents : ℕ := 16384
def maxClassicRoiCodedBitplanes : ℕ := 55
def maxHtRoiCodedBitplanes : ℕ := 31

def maxRoiCodedBitplanes : BlockCodingMode → ℕ
  | .classic => maxClassicRoiCodedBitplanes
  | .highThroughput => maxHtRoiCodedBitplanes

/-- `u32::checked_add`. -/
def checkedAdd (a b : ℕ) (e : NativeEncodePipelineError) : Except NativeEncodePipelineError ℕ :=
  if a+b < 2^32 then .ok (a+b) else .error e

def validateRoiShiftForMax (shift baseBitplanes maxBitplanes : ℕ) :
    Except NativeEncodePipelineError Unit :=
  if 2^8 ≤ baseBitplanes+shift ∨ maxBitplanes < baseBitplanes+shift then
    .error (unsupported "ROI maxshift exceeds supported coded bitplane count")
  else .ok ()

def validateRegionGeometry (region : EncodeRoiRegion) (numComponents width height : ℕ) :
    Except NativeEncodePipelineError Unit := do
  refuse (numComponents ≤ region.component)
    (invalidInput "ROI region component index out of range")
  refuse (region.width = 0 ∨ region.height = 0)
    (invalidInput "ROI region dimensions must be non-zero")
  refuse (region.shift = 0) (invalidInput "ROI region maxshift must be non-zero")
  let horizontalEnd ← checkedAdd region.x region.width (invalidInput "ROI region x bound overflows")
  let verticalEnd ← checkedAdd region.y region.height (invalidInput "ROI region y bound overflows")
  refuse (width ≤ region.x ∨ height ≤ region.y ∨ width < horizontalEnd ∨ height < verticalEnd)
    (invalidInput "ROI region must be inside image bounds")

/-- The sampling factors of a component, (1, 1) where none are given. -/
def samplingOf (options : EncodeOptions) (componentIdx : ℕ) :
    Except NativeEncodePipelineError (ℕ × ℕ) :=
  match options.componentSampling with
  | none => .ok (1,1)
  | some sampling => match sampling[componentIdx]? with
    | none => .error (invalidInput "component sampling count does not match component count")
    | some factors => .ok factors

/-- A region has to meet the grid of its component. -/
def validateRegionSampling (options : EncodeOptions) (region : EncodeRoiRegion) :
    Except NativeEncodePipelineError Unit := do
  let (horizontalSampling,verticalSampling) ← samplingOf options region.component
  refuse (horizontalSampling = 0 ∨ verticalSampling = 0)
    (invalidInput "component sampling factors must be non-zero")
  let horizontalRegionEnd ←
    checkedAdd region.x region.width (invalidInput "ROI region x bound overflows")
  let verticalRegionEnd ←
    checkedAdd region.y region.height (invalidInput "ROI region y bound overflows")
  refuse (divCeil horizontalRegionEnd horizontalSampling ≤ region.x/horizontalSampling ∨
      divCeil verticalRegionEnd verticalSampling ≤ region.y/verticalSampling)
    (invalidInput "ROI region does not intersect component grid")

/-- The checks of one region; the shifts of the regions before it are kept for each component. -/
def validateRegion (options : EncodeOptions) (numComponents width height baseBitplanes : ℕ)
    (blockCodingMode : BlockCodingMode) (regionShifts : ℕ → ℕ) (region : EncodeRoiRegion) :
    Except NativeEncodePipelineError (ℕ → ℕ) := do
  validateRegionGeometry region numComponents width height
  refuse (options.roiComponentShifts[region.component]?.getD 0 ≠ 0)
    (invalidInput "ROI region cannot be combined with whole-component ROI shift")
  refuse (region.shift < baseBitplanes)
    (invalidInput "ROI region maxshift must cover background bitplanes")
  validateRoiShiftForMax region.shift baseBitplanes (maxRoiCodedBitplanes blockCodingMode)
  refuse (regionShifts region.component ≠ 0 ∧ regionShifts region.component ≠ region.shift)
    (invalidInput "ROI regions for one component must use one maxshift")
  validateRegionSampling options region
  pure fun c => if c = region.component then region.shift else regionShifts c

def validateRoiEncodeOptionsNonallocating (options : EncodeOptions)
    (regions : List EncodeRoiRegion) (numComponents width height baseBitplanes : ℕ)
    (blockCodingMode : BlockCodingMode) : Except NativeEncodePipelineError Unit := do
  refuse (maxJ2kSpecComponents < numComponents)
    (unsupported "component count exceeds the JPEG 2000 Part 1 limit")
  refuse (options.roiComponentShifts ≠ [] ∧ options.roiComponentShifts.length ≠ numComponents)
    (invalidInput "ROI component shift count does not match component count")
  options.roiComponentShifts.forM fun shift =>
    validateRoiShiftForMax shift baseBitplanes (maxRoiCodedBitplanes blockCodingMode)
  let _ ← regions.foldlM (validateRegion options numComponents width height baseBitplanes
    blockCodingMode) fun _ => 0

/-- The rectangle of a region on the grid of its component. -/
def componentRegion (region : EncodeRoiRegion) (width height : ℕ) (sampling : ℕ × ℕ)
    (horizontalEnd verticalEnd : ℕ) : Except NativeEncodePipelineError ComponentRoiEncodeRegion :=
  let x0 := region.x/sampling.1
  let y0 := region.y/sampling.2
  let x1 := min (divCeil horizontalEnd sampling.1) (divCeil width sampling.1)
  let y1 := min (divCeil verticalEnd sampling.2) (divCeil height sampling.2)
  if x1 ≤ x0 ∨ y1 ≤ y0 then
    .error (internalInvariant "validated ROI region does not intersect component grid")
  else .ok ⟨x0,y0,x1-x0,y1-y0⟩

def appendRoiRegion (width height : ℕ) (componentSampling : List (ℕ × ℕ))
    (plans : List ComponentRoiEncodePlan) (region : EncodeRoiRegion) :
    Except NativeEncodePipelineError (List ComponentRoiEncodePlan) := do
  let horizontalEnd ← checkedAdd region.x region.width
    (internalInvariant "validated ROI horizontal bounds overflowed during construction")
  let verticalEnd ← checkedAdd region.y region.height
    (internalInvariant "validated ROI vertical bounds overflowed during construction")
  match plans[region.component]? with
  | none => throw (internalInvariant "validated ROI region component index is out of range")
  | some plan =>
    match componentSampling[region.component]? with
    | none => throw (internalInvariant "component sampling count does not match component count")
    | some sampling => do
      let rectangle ← componentRegion region width height sampling horizontalEnd verticalEnd
      pure (plans.set region.component
        ⟨if plan.shift = 0 then region.shift else plan.shift,plan.regions ++ [rectangle]⟩)

def tryRoiPlans (options : EncodeOptions) (regions : List EncodeRoiRegion)
    (numComponents width height : ℕ) (componentSampling : List (ℕ × ℕ)) (baseBitplanes : ℕ)
    (blockCodingMode : BlockCodingMode) :
    Except NativeEncodePipelineError (List ComponentRoiEncodePlan) := do
  validateRoiEncodeOptionsNonallocating options regions numComponents width height baseBitplanes
    blockCodingMode
  let plans := (List.range numComponents).map fun component =>
    ComponentRoiEncodePlan.mk (options.roiComponentShifts[component]?.getD 0) []
  regions.foldlM (appendRoiRegion width height componentSampling) plans

/-! ## What an accepted plan keeps -/

section
variable {options : EncodeOptions} {regions : List EncodeRoiRegion} {region : EncodeRoiRegion}
  {numComponents width height baseBitplanes : ℕ} {blockCodingMode : BlockCodingMode}

theorem validateRoiShiftForMax_ok {shift maxBitplanes : ℕ} {u : Unit}
    (h : validateRoiShiftForMax shift baseBitplanes maxBitplanes = .ok u) :
    baseBitplanes+shift ≤ maxBitplanes := by
  unfold validateRoiShiftForMax at h
  split_ifs at h with hlimit
  exact Nat.le_of_not_lt fun hlt => hlimit (.inr hlt)

/-- A region that passes its checks covers the background with its shift. -/
structure Checked (options : EncodeOptions) (baseBitplanes : ℕ) (blockCodingMode : BlockCodingMode)
    (region : EncodeRoiRegion) : Prop where
  component : options.roiComponentShifts[region.component]?.getD 0 = 0
  background : baseBitplanes ≤ region.shift
  fits : baseBitplanes+region.shift ≤ maxRoiCodedBitplanes blockCodingMode

theorem validateRegion_ok {regionShifts regionShifts' : ℕ → ℕ}
    (h : validateRegion options numComponents width height baseBitplanes blockCodingMode regionShifts
      region = .ok regionShifts') : Checked options baseBitplanes blockCodingMode region := by
  unfold validateRegion at h
  obtain ⟨_,-,h⟩ := bind_eq_ok.mp h
  obtain ⟨_,hcomponent,h⟩ := bind_eq_ok.mp h
  obtain ⟨_,hbackground,h⟩ := bind_eq_ok.mp h
  obtain ⟨_,hfits,-⟩ := bind_eq_ok.mp h
  exact ⟨not_not.mp (refuse_eq_ok.mp hcomponent),Nat.le_of_not_lt (refuse_eq_ok.mp hbackground),
    validateRoiShiftForMax_ok hfits⟩

theorem validateRoiEncodeOptions_ok {u : Unit}
    (h : validateRoiEncodeOptionsNonallocating options regions numComponents width height
      baseBitplanes blockCodingMode = .ok u) :
    (∀ shift ∈ options.roiComponentShifts,
      baseBitplanes+shift ≤ maxRoiCodedBitplanes blockCodingMode) ∧
    ∀ region ∈ regions, Checked options baseBitplanes blockCodingMode region := by
  unfold validateRoiEncodeOptionsNonallocating at h
  obtain ⟨_,-,h⟩ := bind_eq_ok.mp h
  obtain ⟨_,-,h⟩ := bind_eq_ok.mp h
  obtain ⟨_,hshifts,h⟩ := bind_eq_ok.mp h
  obtain ⟨_,hregions,-⟩ := bind_eq_ok.mp h
  refine ⟨fun shift hmem => ?_,fun region hmem => ?_⟩
  · obtain ⟨_,hshift⟩ := of_forM_ok hshifts hmem
    exact validateRoiShiftForMax_ok hshift
  · obtain ⟨_,_,hregion⟩ := exists_of_foldlM_ok hregions hmem
    exact validateRegion_ok hregion

/-- The coded bit planes fit, and a shift that tells a region from its background is at least
as large as the background is deep. -/
structure ComponentRoiEncodePlan.Covers (plan : ComponentRoiEncodePlan) (baseBitplanes : ℕ)
    (blockCodingMode : BlockCodingMode) : Prop where
  fits : plan.shift ≠ 0 → baseBitplanes+plan.shift ≤ maxRoiCodedBitplanes blockCodingMode
  background : plan.regions ≠ [] → baseBitplanes ≤ plan.shift

/-- What the plans keep while the regions are added to them. -/
structure Planned (options : EncodeOptions) (baseBitplanes : ℕ) (blockCodingMode : BlockCodingMode)
    (plans : List ComponentRoiEncodePlan) : Prop where
  covers : ∀ plan ∈ plans, plan.Covers baseBitplanes blockCodingMode
  untouched : ∀ (c : ℕ) (plan : ComponentRoiEncodePlan), plans[c]? = some plan → plan.regions = [] →
    plan.shift = options.roiComponentShifts[c]?.getD 0

theorem Planned.appendRoiRegion {componentSampling : List (ℕ × ℕ)}
    {plans plans' : List ComponentRoiEncodePlan}
    (hp : Planned options baseBitplanes blockCodingMode plans)
    (hregion : Checked options baseBitplanes blockCodingMode region)
    (h : appendRoiRegion width height componentSampling plans region = .ok plans') :
    Planned options baseBitplanes blockCodingMode plans' := by
  unfold RoiPlan.appendRoiRegion at h
  obtain ⟨_,-,h⟩ := bind_eq_ok.mp h
  obtain ⟨_,-,h⟩ := bind_eq_ok.mp h
  split at h
  · cases h
  next plan hplan =>
    split at h
    · cases h
    obtain ⟨rectangle,-,h⟩ := bind_eq_ok.mp h
    cases h
    have hold := hp.covers plan (List.mem_of_getElem? hplan)
    -- The first region of a component finds no shift there.
    have hbackground : plan.shift ≠ 0 → baseBitplanes ≤ plan.shift := fun hne =>
      hold.background fun hnone => hne ((hp.untouched _ plan hplan hnone).trans hregion.component)
    refine ⟨fun plan' hmem => ?_,fun c plan' hget hnone => ?_⟩
    · rcases List.mem_or_eq_of_mem_set hmem with hmem | rfl
      · exact hp.covers plan' hmem
      · constructor
        · intro _
          dsimp only
          split_ifs with hzero
          · exact hregion.fits
          · exact hold.fits hzero
        · intro _
          dsimp only
          split_ifs with hzero
          · exact hregion.background
          · exact hbackground hzero
    · rcases eq_or_ne region.component c with rfl | hne
      · rw [List.getElem?_set_self (List.getElem?_eq_some_iff.mp hplan).1] at hget
        cases hget
        simp at hnone
      · rw [List.getElem?_set_ne hne] at hget
        exact hp.untouched c plan' hget hnone

/-- Every plan that is made of accepted options covers the background of its component. -/
theorem tryRoiPlans_covers {componentSampling : List (ℕ × ℕ)} {plans : List ComponentRoiEncodePlan}
    (h : tryRoiPlans options regions numComponents width height componentSampling baseBitplanes
      blockCodingMode = .ok plans) :
    ∀ plan ∈ plans, plan.Covers baseBitplanes blockCodingMode := by
  unfold tryRoiPlans at h
  obtain ⟨_,hvalid,h⟩ := bind_eq_ok.mp h
  obtain ⟨hshifts,hregions⟩ := validateRoiEncodeOptions_ok hvalid
  refine (foldlM_invariant (P := Planned options baseBitplanes blockCodingMode)
    (fun region hmem _ _ hp hstep => hp.appendRoiRegion (hregions region hmem) hstep)
    ⟨fun plan hmem => ?_,fun c plan hget _ => ?_⟩ h).covers
  · obtain ⟨c,-,rfl⟩ := List.mem_map.mp hmem
    refine ⟨fun hne => ?_,fun hne => absurd rfl hne⟩
    cases hshift : options.roiComponentShifts[c]? with
    | none => exact absurd (by rw [hshift]; rfl) hne
    | some shift =>
        exact hshifts shift (List.mem_of_getElem? hshift)
  · rw [List.getElem?_map] at hget
    cases hc : (List.range numComponents)[c]? with
    | none => simp [hc] at hget
    | some c' =>
        obtain ⟨-,rfl⟩ : c < numComponents ∧ c = c' := by
          simpa [List.getElem?_range, List.getElem?_eq_some_iff] using hc
        rw [hc] at hget
        cases hget
        rfl

end

end J2kNative.RoiPlan
