import J2kNative.CellGrids
import J2kNative.RoiPlan
import J2kNative.SelectedCells
import Mathlib.Algebra.Order.Ring.Int
import Mathlib.Tactic.Ring

/-!
# Maxshift

The encoder multiplies the coefficients of a region of interest by a power of two, and
the decoder divides those that are too large to be of the background. On the 32-bit
path the product is cut to 32 bits, while the check of the options only bounds the
coded bit planes: the round trip is exact where no product is cut.
-/
namespace J2kNative.RoiMaxshift
open MainHeader Fallible CellGrids SelectedCells RoiPlan TileGeometry NativeEncodePipelineError

/-! ## The encoder -/

/-- `i32::checked_shl` refuses a shift that is too wide; bits that leave the word are dropped. -/
def shiftRoiCoefficient (roiShift : ℕ) (coefficient : ℤ) : Except NativeEncodePipelineError ℤ :=
  if roiShift < 32 then .ok (Int.bmod (coefficient*2^roiShift) (2^32))
  else .error (arithmeticOverflow "ROI maxshift coefficient overflow")

def shiftRoiCoefficientI64 (roiShift : ℕ) (coefficient : ℤ) :
    Except NativeEncodePipelineError ℤ :=
  if roiShift < 64 then
    let product := coefficient*Int.bmod (2^roiShift) (2^64)
    if -2^63 ≤ product ∧ product < 2^63 then .ok product
    else .error (arithmeticOverflow "ROI maxshift coefficient overflow")
  else .error (arithmeticOverflow "ROI maxshift coefficient overflow")

/-- The sub-band that is prepared. -/
structure SubbandEncodeRequest where
  width : ℕ
  height : ℕ
  roiShift : ℕ
  roiRegions : List ComponentRoiEncodeRegion
  roiScale : ℕ
  deriving DecidableEq, Repr

/-- First column and row, and those past the last. -/
structure SubbandWindow where
  x0 : ℕ
  y0 : ℕ
  x1 : ℕ
  y1 : ℕ
  deriving DecidableEq, Repr

def roiRegionSubbandWindow (region : ComponentRoiEncodeRegion) (width height roiScale : ℕ) :
    Option SubbandWindow :=
  if width = 0 ∨ height = 0 ∨ roiScale = 0 then none else
  let x0 := min (region.x/roiScale) width
  let y0 := min (region.y/roiScale) height
  let x1 := min (divCeil (saturatingAdd 32 region.x region.width) roiScale) width
  let y1 := min (divCeil (saturatingAdd 32 region.y region.height) roiScale) height
  if x1 ≤ x0 ∨ y1 ≤ y0 then none else some ⟨x0,y0,x1,y1⟩

/-- The indices of a window, row by row. -/
def windowCells (request : SubbandEncodeRequest) (region : ComponentRoiEncodeRegion) : List ℕ :=
  match roiRegionSubbandWindow region request.width request.height request.roiScale with
  | none => []
  | some w => cells w.x0 (w.x1-w.x0) w.y0 (w.y1-w.y0) fun x y => y*request.width+x

/-- The 32-bit path. The error of `visit` stands for an index out of bounds. -/
def applyRoiMaxshiftEncodeForSession (coefficients : List ℤ) (request : SubbandEncodeRequest) :
    Except NativeEncodePipelineError (List ℤ) :=
  if request.roiShift = 0 then .ok coefficients
  else if coefficients.length ≠ request.width*request.height then
    .error (internalInvariant "ROI subband coefficient length mismatch")
  else if request.roiRegions = [] then
    coefficients.mapM (shiftRoiCoefficient request.roiShift)
  else do
    let s ← request.roiRegions.foldlM (fun s region => (windowCells request region).foldlM
      (visit (shiftRoiCoefficient request.roiShift) (internalInvariant "index out of bounds")) s)
      (coefficients,List.replicate coefficients.length false)
    pure s.1

structure BlockGeometry where
  x0 : ℕ
  y0 : ℕ
  width : ℕ
  height : ℕ
  deriving DecidableEq, Repr

def SubbandWindow.contains (w : SubbandWindow) (x y : ℕ) : Bool :=
  w.x0 ≤ x && x < w.x1 && w.y0 ≤ y && y < w.y1

/-- A position is shifted where there is no region, or one that covers it. -/
def SubbandEncodeRequest.selected (request : SubbandEncodeRequest) (x y : ℕ) : Bool :=
  request.roiRegions.isEmpty || request.roiRegions.any fun region =>
    (roiRegionSubbandWindow region request.width request.height request.roiScale).any
      (·.contains x y)

/-- The 64-bit path, one code block at a time. -/
def applyBlockRoiShift (coefficients : List ℤ) (geometry : BlockGeometry)
    (request : SubbandEncodeRequest) : Except NativeEncodePipelineError (List ℤ) :=
  if request.roiShift = 0 then .ok coefficients else
  (cells 0 geometry.width 0 geometry.height Prod.mk).foldlM (fun coefficients (localX,localY) =>
    if request.selected (geometry.x0+localX) (geometry.y0+localY) then
      updateAt (shiftRoiCoefficientI64 request.roiShift)
        (internalInvariant "ROI code-block index is out of range") coefficients
        (localY*geometry.width+localX)
    else .ok coefficients) coefficients

/-! ## The decoder -/

def applyRoiMaxshiftInverseI64 (coefficient : ℤ) (roiShift : ℕ) : ℤ :=
  if roiShift = 0 ∨ coefficient = 0 then coefficient else
  let magnitude := coefficient.natAbs
  let threshold := if roiShift < 64 then 2^roiShift else 2^64-1
  if magnitude < threshold then coefficient else
  let shifted : ℤ := min (magnitude/2^(roiShift%64) : ℕ) (2^63-1)
  if coefficient < 0 then -shifted else shifted

def applyRoiMaxshiftInverseI32 (coefficient : ℤ) (roiShift : ℕ) : ℤ :=
  let shifted := applyRoiMaxshiftInverseI64 coefficient roiShift
  if -2^31 ≤ shifted ∧ shifted < 2^31 then shifted else if shifted < 0 then -2^31 else 2^31-1

/-! ## One coefficient -/

/-- A value of a signed type of `bits` bits. -/
def Fits (bits : ℕ) (q : ℤ) : Prop := -2^(bits-1) ≤ q ∧ q < 2^(bits-1)

section
variable {k q : ℤ} {s : ℕ}

theorem natAbs_mul_pow (k : ℤ) (s : ℕ) : (k*2^s).natAbs = k.natAbs*2^s := by
  rw [Int.natAbs_mul,Int.natAbs_pow]
  rfl

/-- What lies below the shift is background. -/
theorem inverse_background (hs : s < 64) (hq : q.natAbs < 2^s) :
    applyRoiMaxshiftInverseI64 q s = q := by
  unfold applyRoiMaxshiftInverseI64
  by_cases hzero : s = 0 ∨ q = 0
  · exact if_pos hzero
  · rw [if_neg hzero]
    simp only [if_pos hs]
    exact if_pos hq

/-- A multiple of the shift is divided by it, without a remainder. -/
theorem inverse_shifted (hs : s < 64) (hk : (k*2^s).natAbs < 2^63) :
    applyRoiMaxshiftInverseI64 (k*2^s) s = k := by
  rw [natAbs_mul_pow] at hk
  have hpow : 0 < 2^s := Nat.two_pow_pos s
  have hpow' : (0:ℤ) < 2^s := Int.pow_pos (by decide)
  unfold applyRoiMaxshiftInverseI64
  by_cases hzero : s = 0 ∨ k*2^s = 0
  · rw [if_pos hzero]
    rcases hzero with rfl | hzero
    · rw [Int.pow_zero,Int.mul_one]
    · rw [hzero]
      exact ((Int.mul_eq_zero.mp hzero).resolve_right hpow'.ne').symm
  · have hne : k ≠ 0 := fun h0 => hzero (.inr (by rw [h0,Int.zero_mul]))
    have hlarge : 2^s ≤ k.natAbs*2^s := Nat.le_mul_of_pos_left _ (Int.natAbs_pos.mpr hne)
    have hsmall : k.natAbs < 2^63 :=
      Nat.lt_of_le_of_lt (Nat.le_mul_of_pos_right _ hpow) hk
    have hmin : min ((k.natAbs : ℕ) : ℤ) (2^63-1) = k.natAbs := min_eq_left (by omega)
    have hsign : k*2^s < 0 ↔ k < 0 :=
      ⟨fun h => Int.not_le.mp fun hk => absurd (Int.mul_nonneg hk hpow'.le) (Int.not_le.mpr h),
        fun h => Int.mul_neg_of_neg_of_pos h hpow'⟩
    rw [if_neg hzero]
    simp only [natAbs_mul_pow,if_pos hs,Nat.mod_eq_of_lt hs,Nat.mul_div_cancel _ hpow,hmin,hsign]
    rw [if_neg (Nat.not_lt.mpr hlarge)]
    split_ifs with hneg <;> omega

/-- On 32-bit values the two inverses are one. -/
theorem inverseI32_eq (h : Fits 32 k) :
    applyRoiMaxshiftInverseI32 k s = applyRoiMaxshiftInverseI64 k s := by
  obtain ⟨hlow,hhigh⟩ := h
  have hkept : Fits 32 (applyRoiMaxshiftInverseI64 k s) := by
    unfold applyRoiMaxshiftInverseI64
    by_cases hzero : s = 0 ∨ k = 0
    · rw [if_pos hzero]
      exact ⟨hlow,hhigh⟩
    · rw [if_neg hzero]
      have hdiv : k.natAbs/2^(s%64) ≤ k.natAbs := Nat.div_le_self _ _
      dsimp only
      generalize k.natAbs/2^(s%64) = shifted at *
      unfold Fits
      split_ifs <;> omega
  unfold applyRoiMaxshiftInverseI32
  exact if_pos hkept

/-- The 32-bit product, as a multiple of the shift. -/
theorem bmod_eq_mul (hs : s ≤ 32) : ∃ k, Int.bmod (q*2^s) (2^32) = k*2^s := by
  have hword : (2:ℤ)^s ∣ ((2^32 : ℕ) : ℤ) := by
    rw [Nat.cast_pow]
    exact pow_dvd_pow _ hs
  have hdvd : (2:ℤ)^s ∣ Int.bmod (q*2^s) (2^32) := by
    rw [Int.bmod_eq_self_sub_mul_bdiv]
    exact Int.dvd_sub (Int.dvd_mul_left _ _) (hword.mul_right _)
  obtain ⟨k,hk⟩ := hdvd
  exact ⟨k,by rw [hk,Int.mul_comm]⟩

end

/-! ## The passes of the encoder -/

section
variable {request : SubbandEncodeRequest} {region : ComponentRoiEncodeRegion}
  {geometry : BlockGeometry} {coefficients shifted : List ℤ}

/-- A window lies in the sub-band. -/
theorem roiRegionSubbandWindow_bounds {width height roiScale : ℕ} {w : SubbandWindow}
    (h : roiRegionSubbandWindow region width height roiScale = some w) :
    w.x1 ≤ width ∧ w.y1 ≤ height := by
  unfold roiRegionSubbandWindow at h
  split at h
  · cases h
  · dsimp only at h
    split at h
    · cases h
    · cases h
      exact ⟨min_le_right _ _,min_le_right _ _⟩

theorem mem_windowCells {i : ℕ} : i ∈ windowCells request region ↔
    i < request.width*request.height ∧
    (roiRegionSubbandWindow region request.width request.height request.roiScale).any
      (·.contains (i%request.width) (i/request.width)) := by
  unfold windowCells
  cases hwindow : roiRegionSubbandWindow region request.width request.height request.roiScale with
  | none => simp
  | some w =>
      obtain ⟨hx1,hy1⟩ := roiRegionSubbandWindow_bounds hwindow
      simp only [cells,List.mem_flatMap,List.mem_map,List.mem_range'_1,Option.any_some,
        SubbandWindow.contains,Bool.and_eq_true,decide_eq_true_eq]
      constructor
      · rintro ⟨y,⟨hy0,hy⟩,x,⟨hx0,hx⟩,rfl⟩
        have hxw : x < request.width := by omega
        have hyh : y < request.height := by omega
        have hrow : (y+1)*request.width ≤ request.height*request.width :=
          Nat.mul_le_mul_right _ hyh
        rw [Nat.add_one_mul,Nat.mul_comm request.height] at hrow
        have hmod : (y*request.width+x)%request.width = x := Nat.mul_add_mod_of_lt hxw
        have hdiv : (y*request.width+x)/request.width = y := by
          rw [Nat.mul_comm,Nat.mul_add_div (by omega),Nat.div_eq_of_lt hxw,Nat.add_zero]
        rw [hmod,hdiv]
        exact ⟨by omega,⟨⟨hx0,by omega⟩,hy0⟩,by omega⟩
      · rintro ⟨hi,⟨⟨hx0,hx⟩,hy0⟩,hy⟩
        exact ⟨i/request.width,by omega,i%request.width,by omega,Nat.div_add_mod' _ _⟩

theorem selected_iff (hregions : request.roiRegions ≠ []) {i : ℕ}
    (hi : i < request.width*request.height) :
    request.selected (i%request.width) (i/request.width) ↔
      i ∈ request.roiRegions.flatMap (windowCells request) := by
  have hsome : request.roiRegions.isEmpty = false := List.isEmpty_eq_false_iff.mpr hregions
  simp only [SubbandEncodeRequest.selected,hsome,Bool.false_or,List.any_eq_true,List.mem_flatMap,
    mem_windowCells,hi,true_and]

/-- The marked pass over the windows of the regions. -/
theorem regions_eq (s : List ℤ × List Bool) :
    (request.roiRegions.foldlM (fun s region => (windowCells request region).foldlM
      (visit (shiftRoiCoefficient request.roiShift) (internalInvariant "index out of bounds")) s)
      s) = (request.roiRegions.flatMap (windowCells request)).foldlM
      (visit (shiftRoiCoefficient request.roiShift) (internalInvariant "index out of bounds")) s :=
  foldlM_flatMap (windowCells request) s request.roiRegions

theorem applyRoiMaxshiftEncode_rewritten (hshift : request.roiShift ≠ 0)
    (h : applyRoiMaxshiftEncodeForSession coefficients request = .ok shifted) :
    Rewritten (shiftRoiCoefficient request.roiShift)
      (fun i => request.selected (i%request.width) (i/request.width)) coefficients shifted := by
  unfold applyRoiMaxshiftEncodeForSession at h
  rw [if_neg hshift] at h
  split at h
  · cases h
  next hlen =>
    rw [not_not] at hlen
    split at h
    next hnone =>
      refine (rewritten_mapM h).congr fun i _ => ?_
      simp [SubbandEncodeRequest.selected,hnone]
    next hregions =>
      obtain ⟨s,hs,h⟩ := bind_eq_ok.mp h
      cases h
      rw [regions_eq] at hs
      refine ((Marked.start _ coefficients).foldlM hs).rewritten.congr fun i hi => ?_
      rw [false_or,selected_iff hregions (hlen ▸ hi)]

/-- A shift that the word can hold is never refused. -/
theorem exists_applyRoiMaxshiftEncode (hshift : request.roiShift < 32)
    (hlen : coefficients.length = request.width*request.height) :
    ∃ shifted, applyRoiMaxshiftEncodeForSession coefficients request = .ok shifted := by
  have hf : ∀ c, shiftRoiCoefficient request.roiShift c =
      .ok (Int.bmod (c*2^request.roiShift) (2^32)) := fun c => if_pos hshift
  unfold applyRoiMaxshiftEncodeForSession
  rw [if_neg (not_not.mpr hlen)]
  by_cases hzero : request.roiShift = 0
  · exact ⟨coefficients,if_pos hzero⟩
  rw [if_neg hzero]
  by_cases hnone : request.roiRegions = []
  · exact ⟨_,by rw [if_pos hnone,mapM_ok fun c _ => hf c]⟩
  · rw [if_neg hnone,regions_eq]
    have hcells : ∀ i ∈ request.roiRegions.flatMap (windowCells request),
        i < coefficients.length := fun i hi => by
      obtain ⟨region,-,hi⟩ := List.mem_flatMap.mp hi
      exact hlen ▸ (mem_windowCells.mp hi).1
    obtain ⟨s,hs⟩ := Marked.exists_foldlM (fun c => ⟨_,hf c⟩) hcells (Marked.start _ coefficients)
    exact ⟨s.1,by rw [hs]; rfl⟩

theorem applyBlockRoiShift_rewritten (hshift : request.roiShift ≠ 0)
    (hlen : coefficients.length = geometry.width*geometry.height)
    (h : applyBlockRoiShift coefficients geometry request = .ok shifted) :
    Rewritten (shiftRoiCoefficientI64 request.roiShift)
      (fun i => request.selected (geometry.x0+i%geometry.width) (geometry.y0+i/geometry.width))
      coefficients shifted := by
  unfold applyBlockRoiShift at h
  rw [if_neg hshift,cells_eq_map_range,List.foldlM_map] at h
  simp only [Nat.div_add_mod'] at h
  refine (rewritten_range (fun i => request.selected (geometry.x0+i%geometry.width)
    (geometry.y0+i/geometry.width)) _ h).congr fun i hi => ?_
  exact and_iff_right (hlen ▸ hi)

end

/-! ## The round trip -/

/-- The types of the coefficients; the 64-bit ones are shifted block by block. -/
inductive CoefficientPath where
  | bits32
  | bits64 (geometry : BlockGeometry)
  deriving DecidableEq, Repr

namespace CoefficientPath

def encode : CoefficientPath → SubbandEncodeRequest → List ℤ →
    Except NativeEncodePipelineError (List ℤ)
  | bits32, request, coefficients => applyRoiMaxshiftEncodeForSession coefficients request
  | bits64 geometry, request, coefficients => applyBlockRoiShift coefficients geometry request

def length : CoefficientPath → SubbandEncodeRequest → ℕ
  | bits32, request => request.width*request.height
  | bits64 geometry, _ => geometry.width*geometry.height

/-- Whether the coefficient at an index lies in the region of interest. -/
def selected : CoefficientPath → SubbandEncodeRequest → ℕ → Bool
  | bits32, request, i => request.selected (i%request.width) (i/request.width)
  | bits64 geometry, request, i =>
      request.selected (geometry.x0+i%geometry.width) (geometry.y0+i/geometry.width)

def shift : CoefficientPath → ℕ → ℤ → Except NativeEncodePipelineError ℤ
  | bits32 => shiftRoiCoefficient
  | bits64 _ => shiftRoiCoefficientI64

end CoefficientPath

/-- Every coefficient comes back from what the encoder makes of it. -/
def RoundTrips (path : CoefficientPath) (request : SubbandEncodeRequest)
    (coefficients : List ℤ) : Prop :=
  ∀ shifted : List ℤ, path.encode request coefficients = .ok shifted →
    shifted.length = coefficients.length ∧
    ∀ (i : ℕ) q, coefficients[i]? = some q → ∃ c, shifted[i]? = some c ∧
      applyRoiMaxshiftInverseI64 c request.roiShift = q ∧
      (Fits 32 c → applyRoiMaxshiftInverseI32 c request.roiShift = q)

section
variable {path : CoefficientPath} {request : SubbandEncodeRequest} {coefficients shifted : List ℤ}

theorem encode_rewritten (hshift : request.roiShift ≠ 0)
    (hlen : coefficients.length = path.length request)
    (h : path.encode request coefficients = .ok shifted) :
    Rewritten (path.shift request.roiShift) (fun i => path.selected request i)
      coefficients shifted := by
  cases path with
  | bits32 => exact applyRoiMaxshiftEncode_rewritten hshift h
  | bits64 geometry => exact applyBlockRoiShift_rewritten hshift hlen h

/-- No shift, no change. -/
theorem encode_zero (hshift : request.roiShift = 0)
    (h : path.encode request coefficients = .ok shifted) : shifted = coefficients := by
  cases path with
  | bits32 =>
      rw [CoefficientPath.encode,applyRoiMaxshiftEncodeForSession,if_pos hshift] at h
      exact (Except.ok.inj h).symm
  | bits64 geometry =>
      rw [CoefficientPath.encode,applyBlockRoiShift,if_pos hshift] at h
      exact (Except.ok.inj h).symm

theorem background_of_not_selected {i : ℕ} (h : path.selected request i ≠ true) :
    request.roiRegions ≠ [] := by
  rintro hnone
  cases path <;>
    exact h (by simp [CoefficientPath.selected,SubbandEncodeRequest.selected,hnone])

/-- The round trip is exact where the products of the region are, and the background lies
below the shift. -/
theorem roundTrips_of_exact (hlen : coefficients.length = path.length request)
    (hwide : request.roiShift < 64)
    (hregion : ∀ (i : ℕ) q c, coefficients[i]? = some q → path.selected request i →
      request.roiShift ≠ 0 → path.shift request.roiShift q = .ok c →
      c = q*2^request.roiShift ∧ c.natAbs < 2^63)
    (hbackground : ∀ q ∈ coefficients, request.roiShift ≠ 0 → request.roiRegions ≠ [] →
      q.natAbs < 2^request.roiShift) : RoundTrips path request coefficients := by
  intro shifted hshifted
  by_cases hzero : request.roiShift = 0
  · obtain rfl := encode_zero hzero hshifted
    refine ⟨rfl,fun i q hq => ⟨q,hq,?_⟩⟩
    have hsame : applyRoiMaxshiftInverseI64 q request.roiShift = q := if_pos (.inl hzero)
    exact ⟨hsame,fun hfits => (inverseI32_eq hfits).trans hsame⟩
  have hpass := encode_rewritten hzero hlen hshifted
  refine ⟨hpass.length_eq,fun i q hq => ?_⟩
  have hmem : q ∈ coefficients := List.mem_of_getElem? hq
  by_cases hselected : path.selected request i
  · obtain ⟨c,hc,hget⟩ := hpass.selected i q hselected hq
    obtain ⟨rfl,hsmall⟩ := hregion i q c hq hselected hzero hc
    have hback := inverse_shifted hwide hsmall
    exact ⟨_,hget,hback,fun hfits => (inverseI32_eq hfits).trans hback⟩
  · have hback : applyRoiMaxshiftInverseI64 q request.roiShift = q :=
      inverse_background hwide
        (hbackground q hmem hzero (background_of_not_selected hselected))
    exact ⟨q,(hpass.kept i hselected).trans hq,hback,
      fun hfits => (inverseI32_eq hfits).trans hback⟩

/-- A product that is cut to 32 bits does not come back. -/
theorem fits_of_roundTrips {request : SubbandEncodeRequest} {coefficients : List ℤ}
    (hlen : coefficients.length = request.width*request.height)
    (hshift : request.roiShift ≠ 0) (hword : request.roiShift < 32)
    (h : RoundTrips .bits32 request coefficients) {i : ℕ} {q : ℤ} (hq : coefficients[i]? = some q)
    (hselected : CoefficientPath.bits32.selected request i) : Fits 32 (q*2^request.roiShift) := by
  obtain ⟨shifted,hshifted⟩ := exists_applyRoiMaxshiftEncode hword hlen
  obtain ⟨-,hback⟩ := h shifted hshifted
  obtain ⟨c,hget,hinverse,-⟩ := hback i q hq
  obtain ⟨c',hc',hget'⟩ :=
    (applyRoiMaxshiftEncode_rewritten hshift hshifted).selected i q hselected hq
  obtain rfl : c = c' := Option.some.inj (hget.symm.trans hget')
  have hc : Int.bmod (q*2^request.roiShift) (2^32) = c :=
    Except.ok.inj ((if_pos hword).symm.trans hc')
  have hlow : -2^31 ≤ c := hc ▸ Int.le_bmod (by decide)
  have hhigh : c < 2^31 := hc ▸ Int.bmod_lt (by decide)
  obtain ⟨k,hk⟩ := @bmod_eq_mul q request.roiShift (by omega)
  have hkc : c = k*2^request.roiShift := hc.symm.trans hk
  rw [hkc,inverse_shifted (by omega) (by rw [← hkc]; omega)] at hinverse
  rw [hinverse] at hkc
  exact hkc ▸ ⟨hlow,hhigh⟩

theorem shiftRoiCoefficient_exact {roiShift : ℕ} {q c : ℤ}
    (h : shiftRoiCoefficient roiShift q = .ok c) (hfits : Fits 32 (q*2^roiShift)) :
    c = q*2^roiShift ∧ c.natAbs < 2^63 := by
  obtain ⟨hlow,hhigh⟩ := hfits
  unfold shiftRoiCoefficient at h
  split at h
  · have hsame : Int.bmod (q*2^roiShift) (2^32) = q*2^roiShift :=
      Int.bmod_eq_of_le_mul_two (by norm_num at *; omega) (by norm_num at *; omega)
    obtain rfl : q*2^roiShift = c := hsame.symm.trans (Except.ok.inj h)
    exact ⟨rfl,by norm_num at *; omega⟩
  · cases h

theorem shiftRoiCoefficientI64_exact {roiShift : ℕ} {q c : ℤ} (hshift : roiShift < 63)
    (h : shiftRoiCoefficientI64 roiShift q = .ok c) (hsmall : (q*2^roiShift).natAbs < 2^63) :
    c = q*2^roiShift ∧ c.natAbs < 2^63 := by
  have hpow : (2:ℤ)^roiShift < 2^63 := pow_lt_pow_right₀ (by decide) hshift
  have hpos : (0:ℤ) < 2^roiShift := Int.pow_pos (by decide)
  have hfactor : Int.bmod (2^roiShift) (2^64) = 2^roiShift :=
    Int.bmod_eq_of_le_mul_two (by push_cast; omega) (by push_cast; omega)
  unfold shiftRoiCoefficientI64 at h
  rw [if_pos (by omega),hfactor] at h
  dsimp only at h
  split at h
  · cases h
    exact ⟨rfl,hsmall⟩
  · cases h

theorem natAbs_product_lt {q : ℤ} {baseBitplanes roiShift limit : ℕ}
    (hq : q.natAbs < 2^baseBitplanes) (h : baseBitplanes+roiShift ≤ limit) :
    (q*2^roiShift).natAbs < 2^limit := by
  rw [natAbs_mul_pow]
  calc q.natAbs*2^roiShift < 2^baseBitplanes*2^roiShift :=
        Nat.mul_lt_mul_of_pos_right hq (Nat.two_pow_pos _)
    _ = 2^(baseBitplanes+roiShift) := (Nat.pow_add ..).symm
    _ ≤ 2^limit := Nat.pow_le_pow_right (by decide) h

end

/-- For accepted options the round trip is exact on the high-throughput and on the 64-bit
path, and on the classic 32-bit path where the encoder refuses the shift or no product of
the region leaves the 32 bits. -/
theorem maxshift_round_trips_iff {options : EncodeOptions} {regions : List EncodeRoiRegion}
    {numComponents width height baseBitplanes : ℕ} {componentSampling : List (ℕ × ℕ)}
    {blockCodingMode : BlockCodingMode} {plans : List ComponentRoiEncodePlan}
    (hplans : tryRoiPlans options regions numComponents width height componentSampling
      baseBitplanes blockCodingMode = .ok plans) {plan : ComponentRoiEncodePlan}
    (hplan : plan ∈ plans) {path : CoefficientPath} {request : SubbandEncodeRequest}
    (hshift : request.roiShift = plan.shift) (hregions : request.roiRegions = plan.regions)
    {coefficients : List ℤ} (hlen : coefficients.length = path.length request)
    (hbase : ∀ q ∈ coefficients, q.natAbs < 2^baseBitplanes)
    (htype : path = .bits32 → ∀ q ∈ coefficients, Fits 32 q) :
    RoundTrips path request coefficients ↔
      blockCodingMode = .highThroughput ∨ path ≠ .bits32 ∨ 32 ≤ request.roiShift ∨
      ∀ (i : ℕ) q, coefficients[i]? = some q → path.selected request i →
        Fits 32 (q*2^request.roiShift) := by
  have hcovers := tryRoiPlans_covers hplans plan hplan
  constructor
  · intro h
    by_cases hpath : path = .bits32
    · subst hpath
      refine .inr (.inr ?_)
      rcases Nat.lt_or_ge request.roiShift 32 with hword | hwide
      · refine .inr fun i q hq hselected => ?_
        by_cases hzero : request.roiShift = 0
        · rw [hzero,Int.pow_zero,Int.mul_one]
          exact htype rfl q (List.mem_of_getElem? hq)
        · exact fits_of_roundTrips hlen hzero hword h hq hselected
      · exact .inl hwide
    · exact .inr (.inl hpath)
  · intro h
    have hlimit : request.roiShift ≠ 0 → baseBitplanes+request.roiShift ≤ 55 := fun hzero => by
      have hfits := hcovers.fits (hshift ▸ hzero)
      rw [← hshift] at hfits
      exact hfits.trans (by cases blockCodingMode <;> decide)
    refine roundTrips_of_exact hlen ?_ (fun i q c hq hselected hzero hc => ?_)
      fun q hq hzero hsome => ?_
    · by_cases hzero : request.roiShift = 0
      · omega
      · have := hlimit hzero
        omega
    · have hq' := hbase q (List.mem_of_getElem? hq)
      cases path with
      | bits64 geometry =>
          have hproduct := natAbs_product_lt hq' (hlimit hzero)
          exact shiftRoiCoefficientI64_exact (by have := hlimit hzero; omega) hc (by omega)
      | bits32 =>
          refine shiftRoiCoefficient_exact hc ?_
          rcases h with rfl | hpath | hwide | hfits
          · have hproduct := natAbs_product_lt hq' (hcovers.fits (hshift ▸ hzero))
            rw [← hshift] at hproduct
            unfold Fits
            simp only [maxRoiCodedBitplanes,maxHtRoiCodedBitplanes] at hproduct
            omega
          · exact absurd rfl hpath
          · have hword : ¬request.roiShift < 32 := by omega
            cases (if_neg hword).symm.trans hc
          · exact hfits i q hq hselected
    · have hdeep : baseBitplanes ≤ request.roiShift :=
        hshift ▸ hcovers.background (hregions ▸ hsome)
      exact (hbase q hq).trans_le (Nat.pow_le_pow_right (by decide) hdeep)

/-- A coefficient of a region with sixteen bits and a shift of twenty. -/
theorem maxshift_loses_coefficient :
    tryRoiPlans ⟨[],none⟩ [⟨0,0,0,1,1,20⟩] 1 64 64 [(1,1)] 20 .classic =
      .ok [⟨20,[⟨0,0,1,1⟩]⟩] ∧
    CoefficientPath.bits32.encode ⟨1,1,20,[⟨0,0,1,1⟩],1⟩ [2^15] = .ok [0] ∧
    applyRoiMaxshiftInverseI64 0 20 = 0 ∧
    ¬RoundTrips .bits32 ⟨1,1,20,[⟨0,0,1,1⟩],1⟩ [2^15] := by
  have hencode : CoefficientPath.bits32.encode ⟨1,1,20,[⟨0,0,1,1⟩],1⟩ [2^15] = .ok [0] := by decide
  refine ⟨by decide,hencode,by decide,fun h => ?_⟩
  obtain ⟨-,hback⟩ := h [0] hencode
  obtain ⟨c,hc,hinverse,-⟩ := hback 0 (2^15) rfl
  cases hc
  exact absurd hinverse (by decide)

theorem maxshift_round_trips_small :
    RoundTrips .bits32 ⟨1,1,20,[⟨0,0,1,1⟩],1⟩ [2^10] :=
  (@maxshift_round_trips_iff ⟨[],none⟩ [⟨0,0,0,1,1,20⟩] 1 64 64 20 [(1,1)] .classic
    [⟨20,[⟨0,0,1,1⟩]⟩] (by decide) ⟨20,[⟨0,0,1,1⟩]⟩ (by decide) .bits32
    ⟨1,1,20,[⟨0,0,1,1⟩],1⟩ rfl rfl [2^10] rfl (by decide)
    (fun _ => by simp [Fits])).mpr (.inr (.inr (.inr fun i q hq _ => by
      match i, hq with
      | 0, rfl => exact ⟨by decide,by decide⟩)))

end J2kNative.RoiMaxshift
