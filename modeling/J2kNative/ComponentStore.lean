import J2kNative.CountedLoops
import J2kNative.TileTree

/-!
# Storing the samples of a sub-sampled component

The last step of a tile spreads every sample of a component over the pixels that the
component's sub-sampling gives it, clipped to the image and, when a region is decoded, to the
region. Columns and rows are treated alike, so one axis is modelled and used twice.

The samples are those of the resolution that is decoded, one for each coordinate of its
rectangle: without a plan for a region, which a sub-sampled component never has, that rectangle
is the one of the last inverse transform. Conversion and level shift of a sample are left out.
The end of a sample's pixels may leave `u32`; every other sum and product stays below a
coordinate of the reference grid.
-/
namespace J2kNative.ComponentStore
open CountedLoops TileGeometry TileTree

/-! ## One axis -/

/-- What the store reads along one axis. -/
structure Axis where
  scale : ℕ
  shrinkFactor : ℕ
  /-- The coordinate of the image's first pixel on the output grid. -/
  offset : ℕ
  /-- The number of the image's pixels. -/
  extent : ℕ
  /-- The first coordinate of the component tile. -/
  origin : ℕ
  /-- The coordinates of the resolution tile. -/
  start : ℕ
  stop : ℕ
  deriving DecidableEq, Repr

namespace Axis

def referenceGrid (a : Axis) (x : ℕ) : ℕ := a.scale * x / a.shrinkFactor

/-- `x - component_tile.rect.x0`. -/
def relative (a : Axis) (x : ℕ) : Option ℕ := if a.origin ≤ x then some (x - a.origin) else none

/-- The pixels from `max(reference_grid, offset)` to `min(reference_grid + scale, end)`. -/
def pixels (a : Axis) (x : ℕ) : List ℕ :=
  List.range' (max (a.referenceGrid x) a.offset)
    (min (a.referenceGrid x + a.scale) (a.extent + a.offset) - max (a.referenceGrid x) a.offset)

def positions (a : Axis) (x : ℕ) : Option (List ℕ) :=
  if a.referenceGrid x + a.scale ≤ u32Max then some (a.pixels x) else none

def samples (a : Axis) : List ℕ := List.range' a.start (a.stop - a.start)

end Axis

/-! ## The loops -/

structure OutputRegion where
  x : ℕ
  y : ℕ
  width : ℕ
  height : ℕ
  deriving DecidableEq, Repr

/-- Whether a column is stored: every column, or those of the region. -/
def storesColumn : Option OutputRegion → ℕ → Bool
  | none, _ => true
  | some r, imageX => r.x ≤ imageX && imageX < r.x + r.width

def storesRow : Option OutputRegion → ℕ → Bool
  | none, _ => true
  | some r, imageY => r.y ≤ imageY && imageY < r.y + r.height

/-- The cell of a pixel in the output. -/
def cell (region : Option OutputRegion) (imageWidth imageX imageY : ℕ) : ℕ :=
  match region with
  | none => imageY * imageWidth + imageX
  | some r => (imageY - r.y) * r.width + (imageX - r.x)

section
variable {β : Type}

def storePixel (ax ay : Axis) (region : Option OutputRegion) (sample : β) (xPosition : ℕ)
    (output : Buffer β) (yPosition : ℕ) : Buffer β :=
  if storesRow region (yPosition - ay.offset) then
    output.set (cell region ax.extent (xPosition - ax.offset) (yPosition - ay.offset)) sample
  else output

def storeColumn (ax ay : Axis) (region : Option OutputRegion) (sample : β) (y : ℕ)
    (output : Buffer β) (xPosition : ℕ) : Option (Buffer β) :=
  if storesColumn region (xPosition - ax.offset) then do
    let yPositions ← ay.positions y
    some (yPositions.foldl (storePixel ax ay region sample xPosition) output)
  else some output

def storeSample (ax ay : Axis) (region : Option OutputRegion) (coefficients : List β)
    (y relativeY : ℕ) (output : Buffer β) (x : ℕ) : Option (Buffer β) := do
  let relativeX ← ax.relative x
  let sample ← coefficients[relativeY * (ax.stop - ax.start) + relativeX]?
  let xPositions ← ax.positions x
  xPositions.foldlM (storeColumn ax ay region sample y) output

def storeRow (ax ay : Axis) (region : Option OutputRegion) (coefficients : List β)
    (output : Buffer β) (y : ℕ) : Option (Buffer β) := do
  let relativeY ← ay.relative y
  ax.samples.foldlM (storeSample ax ay region coefficients y relativeY) output

/-- The loops of `store` and `store_i64`, and with a region those of `store_region`. -/
def storeAxes (ax ay : Axis) (region : Option OutputRegion) (coefficients : List β)
    (output : Buffer β) : Option (Buffer β) :=
  ay.samples.foldlM (storeRow ax ay region coefficients) output

end

/-! ## The axes of a tile's component -/

/-- What the store reads of the header. -/
structure StoreHeader where
  sizeData : SizeData
  xShrinkFactor : ℕ
  yShrinkFactor : ℕ
  xResolutionShrinkFactor : ℕ
  yResolutionShrinkFactor : ℕ
  skippedResolutionLevels : ℕ
  deriving DecidableEq, Repr

namespace StoreHeader

def imageWidth (h : StoreHeader) : ℕ :=
  divCeil (h.sizeData.referenceGridWidth - h.sizeData.imageAreaXOffset)
    (h.xShrinkFactor * h.xResolutionShrinkFactor)

def imageHeight (h : StoreHeader) : ℕ :=
  divCeil (h.sizeData.referenceGridHeight - h.sizeData.imageAreaYOffset)
    (h.yShrinkFactor * h.yResolutionShrinkFactor)

def outputGridOffset (h : StoreHeader) : ℕ × ℕ :=
  (divCeil h.sizeData.imageAreaXOffset (h.xShrinkFactor * h.xResolutionShrinkFactor),
    divCeil h.sizeData.imageAreaYOffset (h.yShrinkFactor * h.yResolutionShrinkFactor))

end StoreHeader

section
variable (h : StoreHeader) (idx : ℕ) (info : ComponentInfo)

def componentTile : ComponentTile := ComponentTile.new (tileRect h.sizeData idx) info

def resolutionTile : ResolutionTile :=
  ResolutionTile.new (componentTile h idx info)
    (info.parameters.numResolutionLevels - 1 - h.skippedResolutionLevels)

def xAxis : Axis :=
  { scale := info.sizeInfo.horizontalResolution
    shrinkFactor := h.xShrinkFactor
    offset := h.outputGridOffset.1
    extent := h.imageWidth
    origin := (componentTile h idx info).rect.x0
    start := (resolutionTile h idx info).rect.x0
    stop := (resolutionTile h idx info).rect.x1 }

def yAxis : Axis :=
  { scale := info.sizeInfo.verticalResolution
    shrinkFactor := h.yShrinkFactor
    offset := h.outputGridOffset.2
    extent := h.imageHeight
    origin := (componentTile h idx info).rect.y0
    start := (resolutionTile h idx info).rect.y0
    stop := (resolutionTile h idx info).rect.y1 }

/-- The store of a component that is sub-sampled along an axis. -/
def store {β : Type} (region : Option OutputRegion) (coefficients : List β) (output : Buffer β) :
    Option (Buffer β) :=
  storeAxes (xAxis h idx info) (yAxis h idx info) region coefficients output

/-- What the parsers of the size marker and of the reduction have checked and set, with the
width of the machine's integers, for a component that is sub-sampled; the rows of the others are
copied. -/
structure StoreHeader.Parsed : Prop where
  subSampled : info.sizeInfo.horizontalResolution ≠ 1 ∨ info.sizeInfo.verticalResolution ≠ 1
  width_le : h.sizeData.referenceGridWidth ≤ u32Max
  height_le : h.sizeData.referenceGridHeight ≤ u32Max
  xOffset_lt : h.sizeData.imageAreaXOffset < h.sizeData.referenceGridWidth
  yOffset_lt : h.sizeData.imageAreaYOffset < h.sizeData.referenceGridHeight
  horizontal_pos : 0 < info.sizeInfo.horizontalResolution
  vertical_pos : 0 < info.sizeInfo.verticalResolution
  shrink : h.xShrinkFactor = 1 ∧ h.yShrinkFactor = 1 ∨
    h.xShrinkFactor = info.sizeInfo.horizontalResolution ∧
      h.yShrinkFactor = info.sizeInfo.verticalResolution
  xReduction : h.xResolutionShrinkFactor = 2 ^ h.skippedResolutionLevels
  yReduction : h.yResolutionShrinkFactor = 2 ^ h.skippedResolutionLevels
  levels : info.parameters.numResolutionLevels = info.parameters.numDecompositionLevels + 1
  skipped_lt : h.skippedResolutionLevels < info.parameters.numResolutionLevels

end

/-! ## Pixels -/

/-- A pixel of the image that the decoded region holds. -/
structure Visible (ax ay : Axis) (region : Option OutputRegion) (x y : ℕ) : Prop where
  x_ge : ax.offset ≤ x
  x_lt : x < ax.offset + ax.extent
  y_ge : ay.offset ≤ y
  y_lt : y < ay.offset + ay.extent
  column : storesColumn region (x - ax.offset) = true
  row : storesRow region (y - ay.offset) = true

/-- The cell of the pixel at a position of the output grid. -/
def pixelCell (ax ay : Axis) (region : Option OutputRegion) (x y : ℕ) : ℕ :=
  cell region ax.extent (x - ax.offset) (y - ay.offset)

variable {ax ay : Axis} {region : Option OutputRegion} {β : Type}

theorem Visible.inj {x y x' y' : ℕ} (h : Visible ax ay region x y)
    (h' : Visible ax ay region x' y')
    (heq : pixelCell ax ay region x y = pixelCell ax ay region x' y') : x = x' ∧ y = y' := by
  obtain ⟨hx,hx',hy,hy',hcol,hrow⟩ := h
  obtain ⟨ux,ux',uy,uy',ucol,urow⟩ := h'
  cases region with
  | none =>
      obtain ⟨hyy,hxx⟩ := cell_inj (show x - ax.offset < ax.extent by omega)
        (show x' - ax.offset < ax.extent by omega) heq
      omega
  | some r =>
      simp only [storesColumn,storesRow,Bool.and_eq_true,decide_eq_true_eq] at hcol hrow ucol urow
      obtain ⟨hyy,hxx⟩ := cell_inj (show x - ax.offset - r.x < r.width by omega)
        (show x' - ax.offset - r.x < r.width by omega) heq
      omega

theorem mem_pixels {a : Axis} {x p : ℕ} :
    p ∈ a.pixels x ↔ a.referenceGrid x ≤ p ∧ p < a.referenceGrid x + a.scale ∧
      a.offset ≤ p ∧ p < a.offset + a.extent := by
  rw [Axis.pixels,List.mem_range'_1]
  omega

theorem mem_samples {a : Axis} {x : ℕ} : x ∈ a.samples ↔ a.start ≤ x ∧ x < a.stop := by
  rw [Axis.samples,List.mem_range'_1]
  omega

/-! ## The loops without their checks -/

section
variable (ax ay : Axis) (region : Option OutputRegion) (value : ℕ → ℕ → β)

def columnFold (sample : β) (y : ℕ) (output : Buffer β) (xPosition : ℕ) : Buffer β :=
  if storesColumn region (xPosition - ax.offset) then
    (ay.pixels y).foldl (storePixel ax ay region sample xPosition) output
  else output

def sampleFold (y : ℕ) (output : Buffer β) (x : ℕ) : Buffer β :=
  (ax.pixels x).foldl (columnFold ax ay region (value x y) y) output

def rowFold (output : Buffer β) (y : ℕ) : Buffer β :=
  ax.samples.foldl (sampleFold ax ay region value y) output

def axesFold (output : Buffer β) : Buffer β :=
  ay.samples.foldl (rowFold ax ay region value) output

end

/-- The coefficients of a resolution tile, row by row. -/
structure Holds (ax ay : Axis) (coefficients : List β) (value : ℕ → ℕ → β) : Prop where
  length : coefficients.length = (ay.stop - ay.start) * (ax.stop - ax.start)
  sample : ∀ x ∈ ax.samples, ∀ y ∈ ay.samples,
    coefficients[(y - ay.start) * (ax.stop - ax.start) + (x - ax.start)]? = some (value x y)

/-- An axis on which no check of the loops fails. -/
structure Axis.Checked (a : Axis) : Prop where
  origin : a.origin = a.start
  fits : ∀ x ∈ a.samples, a.referenceGrid x + a.scale ≤ u32Max

variable {coefficients : List β} {value : ℕ → ℕ → β} {x y p r : ℕ}

theorem Axis.Checked.relative {a : Axis} (h : a.Checked) (hx : x ∈ a.samples) :
    a.relative x = some (x - a.start) := by
  rw [Axis.relative,if_pos (h.origin ▸ (mem_samples.mp hx).1),h.origin]

theorem Axis.Checked.positions {a : Axis} (h : a.Checked) (hx : x ∈ a.samples) :
    a.positions x = some (a.pixels x) :=
  if_pos (h.fits x hx)

theorem storeColumn_eq (hy : ay.Checked) (hmem : y ∈ ay.samples) (sample : β) (output : Buffer β) :
    storeColumn ax ay region sample y output p =
      some (columnFold ax ay region sample y output p) := by
  unfold storeColumn columnFold
  split_ifs
  · rw [hy.positions hmem]
    rfl
  · rfl

theorem storeSample_eq (hx : ax.Checked) (hy : ay.Checked) (h : Holds ax ay coefficients value)
    (hxmem : x ∈ ax.samples) (hymem : y ∈ ay.samples) (output : Buffer β) :
    storeSample ax ay region coefficients y (y - ay.start) output x =
      some (sampleFold ax ay region value y output x) := by
  unfold storeSample sampleFold
  rw [hx.relative hxmem,Option.bind_eq_bind,Option.bind_some,h.sample x hxmem y hymem,
    Option.bind_eq_bind,Option.bind_some,hx.positions hxmem]
  exact foldlM_eq_foldl (fun _ _ s => storeColumn_eq hy hymem (value x y) s) output

theorem storeRow_eq (hx : ax.Checked) (hy : ay.Checked) (h : Holds ax ay coefficients value)
    (hmem : y ∈ ay.samples) (output : Buffer β) :
    storeRow ax ay region coefficients output y = some (rowFold ax ay region value output y) := by
  unfold storeRow rowFold
  rw [hy.relative hmem]
  exact foldlM_eq_foldl (fun _ ha s => storeSample_eq hx hy h ha hmem s) output

theorem storeAxes_eq (hx : ax.Checked) (hy : ay.Checked) (h : Holds ax ay coefficients value)
    (output : Buffer β) :
    storeAxes ax ay region coefficients output = some (axesFold ax ay region value output) :=
  foldlM_eq_foldl (fun _ ha s => storeRow_eq hx hy h ha s) output

/-! ## What a pixel holds afterwards -/

section
variable (h : Visible ax ay region p r)
include h

theorem storePixel_self (sample : β) (output : Buffer β) :
    storePixel ax ay region sample p output r (pixelCell ax ay region p r) = sample := by
  rw [storePixel,if_pos h.row]
  exact Buffer.set_self _ _ _

theorem storePixel_kept {p' r' : ℕ} (sample : β) (output : Buffer β)
    (hp : ax.offset ≤ p' ∧ p' < ax.offset + ax.extent)
    (hr : ay.offset ≤ r' ∧ r' < ay.offset + ay.extent)
    (hcol : storesColumn region (p' - ax.offset) = true) (hne : ¬(p' = p ∧ r' = r)) :
    storePixel ax ay region sample p' output r' (pixelCell ax ay region p r) =
      output (pixelCell ax ay region p r) := by
  unfold storePixel
  split_ifs with hrow
  · refine Buffer.set_of_ne _ _ fun heq => hne ?_
    obtain ⟨hpp,hrr⟩ := h.inj ⟨hp.1,hp.2,hr.1,hr.2,hcol,hrow⟩ heq
    exact ⟨hpp.symm,hrr.symm⟩
  · rfl

theorem columnFold_self (hr : r ∈ ay.pixels y) (sample : β) (output : Buffer β) :
    columnFold ax ay region sample y output p (pixelCell ax ay region p r) = sample := by
  rw [columnFold,if_pos h.column]
  refine foldl_const (R := fun s : Buffer β => s (pixelCell ax ay region p r)) hr
    (fun s => storePixel_self h sample s) (fun r' hr' s hs => ?_) output
  obtain ⟨-,-,hr'⟩ := mem_pixels.mp hr'
  by_cases heq : r' = r
  · exact heq ▸ storePixel_self h sample s
  · exact (storePixel_kept h sample s ⟨h.x_ge,h.x_lt⟩ hr' h.column fun h => heq h.2).trans hs

theorem columnFold_kept {p' : ℕ} (hp : ax.offset ≤ p' ∧ p' < ax.offset + ax.extent)
    (hne : ¬(p' = p ∧ r ∈ ay.pixels y)) (sample : β) (output : Buffer β) :
    columnFold ax ay region sample y output p' (pixelCell ax ay region p r) =
      output (pixelCell ax ay region p r) := by
  unfold columnFold
  split_ifs with hcol
  · refine foldl_kept (R := fun s : Buffer β => s (pixelCell ax ay region p r))
      (fun r' hr' s => ?_) output
    refine storePixel_kept h sample s hp (mem_pixels.mp hr').2.2 hcol fun heq => hne ⟨heq.1,?_⟩
    exact heq.2 ▸ hr'
  · rfl

theorem sampleFold_self (hp : p ∈ ax.pixels x) (hr : r ∈ ay.pixels y) (output : Buffer β) :
    sampleFold ax ay region value y output x (pixelCell ax ay region p r) = value x y := by
  refine foldl_const (R := fun s : Buffer β => s (pixelCell ax ay region p r)) hp
    (fun s => columnFold_self h hr (value x y) s) (fun p' hp' s hs => ?_) output
  by_cases heq : p' = p
  · exact heq ▸ columnFold_self h hr (value x y) s
  · exact (columnFold_kept h (mem_pixels.mp hp').2.2 (fun h => heq h.1) (value x y) s).trans hs

theorem sampleFold_kept (hne : ¬(p ∈ ax.pixels x ∧ r ∈ ay.pixels y)) (output : Buffer β) :
    sampleFold ax ay region value y output x (pixelCell ax ay region p r) =
      output (pixelCell ax ay region p r) :=
  foldl_kept (R := fun s : Buffer β => s (pixelCell ax ay region p r))
    (fun _ hp' s => columnFold_kept h (mem_pixels.mp hp').2.2
      (fun heq => hne ⟨heq.1 ▸ hp',heq.2⟩) (value x y) s) output

/-- A pixel holds the last sample, in columns and in rows, that reaches it. -/
theorem axesFold_last (hx : x ∈ ax.samples) (hy : y ∈ ay.samples)
    (hp : p ∈ ax.pixels x) (hr : r ∈ ay.pixels y)
    (hxlast : ∀ u, x < u → u < ax.stop → p ∉ ax.pixels u)
    (hylast : ∀ w, y < w → w < ay.stop → r ∉ ay.pixels w) (output : Buffer β) :
    axesFold ax ay region value output (pixelCell ax ay region p r) = value x y := by
  rw [mem_samples] at hx hy
  refine foldl_last (R := fun s : Buffer β => s (pixelCell ax ay region p r))
    (c := fun w => r ∈ ay.pixels w) (v := fun w => value x w) (fun w _ hw s => ?_)
    (fun w _ hw s => ?_) (by omega) hr (fun w h h' => hylast w h (by omega)) output
  · exact foldl_last (R := fun s : Buffer β => s (pixelCell ax ay region p r))
      (c := fun u => p ∈ ax.pixels u) (v := fun u => value u w)
      (fun u _ hu s => sampleFold_self h hu hw s)
      (fun u _ hu s => sampleFold_kept h (fun hpr => hu hpr.1) s) (by omega) hp
      (fun u h h' => hxlast u h (by omega)) s
  · exact foldl_kept (R := fun s : Buffer β => s (pixelCell ax ay region p r))
      (fun u _ s => sampleFold_kept h (fun hpr => hw hpr.2) s) s

theorem axesFold_kept
    (hne : ∀ x ∈ ax.samples, ∀ y ∈ ay.samples, ¬(p ∈ ax.pixels x ∧ r ∈ ay.pixels y))
    (output : Buffer β) :
    axesFold ax ay region value output (pixelCell ax ay region p r) =
      output (pixelCell ax ay region p r) :=
  foldl_kept (R := fun s : Buffer β => s (pixelCell ax ay region p r))
    (fun y hy s => foldl_kept (R := fun s : Buffer β => s (pixelCell ax ay region p r))
      (fun x hx s => sampleFold_kept h (hne x hx y hy) s) s) output

end

/-! ## The component's samples on the output grid -/

/-- The sample at `x` covers the pixel at `p`: with steps of a sample and of a pixel on the
reference grid, the pixel begins between the sample and the next one. -/
def Axis.Covers (a : Axis) (x p : ℕ) : Prop :=
  a.scale * x ≤ a.shrinkFactor * p ∧ a.shrinkFactor * p < a.scale * (x + 1)

/-- What the geometry of a tile says about an axis and the tile's pixels, from `t.1` to `t.2`. -/
structure Axis.Regular (a : Axis) (t : ℕ × ℕ) : Prop where
  scale_pos : 0 < a.scale
  shrink : a.shrinkFactor = 1 ∨ a.shrinkFactor = a.scale
  start_le : a.start ≤ a.origin
  first_le : a.shrinkFactor * t.1 ≤ a.scale * a.start
  last_le : a.shrinkFactor * t.2 ≤ a.scale * a.stop
  offset_le : a.offset ≤ t.1
  le_end : t.2 ≤ a.offset + a.extent
  visible : ∀ x < a.stop, a.referenceGrid x < a.offset + a.extent

/-- No level is skipped, or the component tile stays where it begins; the tile begins at a
sample; the last sample ends with the tile or the image, below the largest `u32`. -/
structure Axis.Aligned (a : Axis) (t : ℕ × ℕ) : Prop where
  origin : a.origin = a.start
  first : a.scale * a.start = a.shrinkFactor * t.1
  last : min (a.referenceGrid (a.stop - 1) + a.scale) (a.offset + a.extent) ≤ t.2
  fits : a.referenceGrid (a.stop - 1) + a.scale ≤ u32Max

namespace Axis

variable {a : Axis} {t : ℕ × ℕ}

theorem referenceGrid_mono {u : ℕ} (hxu : x ≤ u) : a.referenceGrid x ≤ a.referenceGrid u :=
  Nat.div_le_div_right (Nat.mul_le_mul_left a.scale hxu)

theorem Regular.shrink_pos (h : a.Regular t) : 0 < a.shrinkFactor := by
  have := h.scale_pos
  rcases h.shrink with hs | hs <;> omega

/-- The two kinds of components: pixels as fine as the reference grid, or as coarse as samples. -/
theorem Regular.referenceGrid (h : a.Regular t) (x : ℕ) :
    a.shrinkFactor = 1 ∧ a.referenceGrid x = a.scale * x ∨
      a.shrinkFactor = a.scale ∧ a.referenceGrid x = x := by
  rcases h.shrink with hs | hs
  · exact .inl ⟨hs,by rw [Axis.referenceGrid,hs,Nat.div_one]⟩
  · exact .inr ⟨hs,by rw [Axis.referenceGrid,hs,Nat.mul_div_cancel_left x h.scale_pos]⟩

theorem Regular.covers_pixel (h : a.Regular t) (hc : a.Covers x p) :
    a.referenceGrid x ≤ p ∧ p < a.referenceGrid x + a.scale := by
  obtain ⟨hle,hlt⟩ := hc
  have hpos := h.scale_pos
  rcases h.referenceGrid x with ⟨hs,hg⟩ | ⟨hs,hg⟩
  · rw [hs,Nat.one_mul] at hle hlt
    rw [Nat.mul_add,Nat.mul_one] at hlt
    omega
  · rw [hs] at hle hlt
    have h1 := Nat.le_of_mul_le_mul_left hle hpos
    have h2 := Nat.lt_of_mul_lt_mul_left hlt
    omega

/-- Samples after the one that covers a pixel do not reach it. -/
theorem Regular.covers_last (h : a.Regular t) (hc : a.Covers x p) {u : ℕ} (hu : x < u) :
    p < a.referenceGrid u := by
  obtain ⟨-,hlt⟩ := hc
  have hpos := h.scale_pos
  rcases h.referenceGrid u with ⟨hs,hg⟩ | ⟨hs,hg⟩
  · rw [hs,Nat.one_mul] at hlt
    rw [hg]
    exact hlt.trans_le (Nat.mul_le_mul_left a.scale hu)
  · rw [hs] at hlt
    have := Nat.lt_of_mul_lt_mul_left hlt
    omega

theorem Regular.covered (h : a.Regular t) (hfirst : a.scale * a.start = a.shrinkFactor * t.1)
    (hp : t.1 ≤ p ∧ p < t.2) : ∃ x ∈ a.samples, a.Covers x p := by
  have hpos := h.scale_pos
  refine ⟨a.shrinkFactor * p / a.scale,mem_samples.mpr ⟨?_,?_⟩,Nat.mul_div_le _ _,
    Nat.lt_mul_div_succ _ hpos⟩
  · rw [Nat.le_div_iff_mul_le hpos,Nat.mul_comm,hfirst]
    exact Nat.mul_le_mul_left _ hp.1
  · rw [Nat.div_lt_iff_lt_mul hpos,Nat.mul_comm a.stop]
    exact (Nat.mul_lt_mul_of_pos_left hp.2 h.shrink_pos).trans_le h.last_le

theorem Regular.offset_le_grid (h : a.Regular t) (hx : a.start ≤ x) :
    a.offset ≤ a.referenceGrid x := by
  refine h.offset_le.trans ((Nat.le_div_iff_mul_le h.shrink_pos).mpr ?_)
  rw [Nat.mul_comm]
  exact h.first_le.trans (Nat.mul_le_mul_left _ hx)

theorem Aligned.checked (ha : a.Aligned t) : a.Checked := by
  refine ⟨ha.origin,fun x hx => le_trans ?_ ha.fits⟩
  have := (mem_samples.mp hx).2
  exact Nat.add_le_add_right (referenceGrid_mono (by omega)) _

theorem Aligned.within (ha : a.Aligned t) (h : a.Regular t) (hx : x ∈ a.samples)
    (hp : p ∈ a.pixels x) : t.1 ≤ p ∧ p < t.2 := by
  obtain ⟨hstart,hstop⟩ := mem_samples.mp hx
  obtain ⟨hge,hlt,-,hend⟩ := mem_pixels.mp hp
  have hgrid : a.referenceGrid x ≤ a.referenceGrid (a.stop - 1) := referenceGrid_mono (by omega)
  have hlast := ha.last
  have hfirst : t.1 = a.referenceGrid a.start := by
    rw [Axis.referenceGrid,ha.first,Nat.mul_div_cancel_left _ h.shrink_pos]
  have := referenceGrid_mono (a := a) hstart
  omega

/-- The last pixel that the last sample reaches. -/
def lastPixel (a : Axis) : ℕ :=
  min (a.referenceGrid (a.stop - 1) + a.scale) (a.offset + a.extent) - 1

theorem Regular.lastPixel_mem (h : a.Regular t) (hne : a.start < a.stop) :
    a.lastPixel ∈ a.pixels (a.stop - 1) := by
  have hpos := h.scale_pos
  have hvisible := h.visible (a.stop - 1) (by omega)
  have hoffset := h.offset_le_grid (x := a.stop - 1) (by omega)
  rw [mem_pixels]
  unfold lastPixel
  omega

/-- An axis is aligned as soon as its checks hold, its first pixel is covered and its last
one belongs to the tile. -/
theorem Regular.aligned (h : a.Regular t) (hne : a.start < a.stop) (hchecked : a.Checked)
    (hcovered : ∃ x ∈ a.samples, a.Covers x t.1) (hlast : a.lastPixel < t.2) : a.Aligned t := by
  obtain ⟨x,hx,hcovers⟩ := hcovered
  refine ⟨hchecked.origin,le_antisymm ?_ h.first_le,?_,
    hchecked.fits _ (mem_samples.mpr (by omega))⟩
  · exact (Nat.mul_le_mul_left _ (mem_samples.mp hx).1).trans hcovers.1
  · unfold lastPixel at hlast
    omega

end Axis

/-! ## When the store is right -/

section
variable (ax ay : Axis) (tx ty : ℕ × ℕ)

/-- The pixels of a tile, from `tx.1` to `tx.2` and from `ty.1` to `ty.2`. -/
def InTile (p r : ℕ) : Prop := (tx.1 ≤ p ∧ p < tx.2) ∧ ty.1 ≤ r ∧ r < ty.2

/-- Every pixel of the tile holds the sample that covers it, and no other pixel has changed. -/
structure Stored (region : Option OutputRegion) (value : ℕ → ℕ → β) (output output' : Buffer β) :
    Prop where
  written : ∀ p r, Visible ax ay region p r → InTile tx ty p r →
    ∃ x ∈ ax.samples, ∃ y ∈ ay.samples, ax.Covers x p ∧ ay.Covers y r ∧
      output' (pixelCell ax ay region p r) = value x y
  kept : ∀ p r, Visible ax ay region p r → ¬InTile tx ty p r →
    output' (pixelCell ax ay region p r) = output (pixelCell ax ay region p r)

/-- The store succeeds and is right, for the whole image and for every region of it. -/
def Stores : Prop :=
  ∀ (β : Type) (region : Option OutputRegion) (coefficients : List β) (value : ℕ → ℕ → β)
    (output : Buffer β), Holds ax ay coefficients value →
    ∃ output', storeAxes ax ay region coefficients output = some output' ∧
      Stored ax ay tx ty region value output output'

/-- Both axes are aligned, or there are no samples and the tile has no pixels; where there are
rows of samples, their first is the first row of the component tile. -/
def Alignment : Prop :=
  (ay.start < ay.stop → ay.origin = ay.start) ∧
    if ax.start < ax.stop ∧ ay.start < ay.stop then ax.Aligned tx ∧ ay.Aligned ty
    else ¬(tx.1 < tx.2 ∧ ty.1 < ty.2)

end

variable {tx ty : ℕ × ℕ}

theorem stored_of_aligned (hx : ax.Regular tx) (hy : ay.Regular ty) (hax : ax.Aligned tx)
    (hay : ay.Aligned ty) (output : Buffer β) :
    Stored ax ay tx ty region value output (axesFold ax ay region value output) := by
  constructor
  · intro p r hv ⟨hp,hr⟩
    obtain ⟨x,hxmem,hxc⟩ := hx.covered hax.first hp
    obtain ⟨y,hymem,hyc⟩ := hy.covered hay.first hr
    refine ⟨x,hxmem,y,hymem,hxc,hyc,axesFold_last hv hxmem hymem ?_ ?_ ?_ ?_ output⟩
    · obtain ⟨hge,hlt⟩ := hx.covers_pixel hxc
      exact mem_pixels.mpr ⟨hge,hlt,hv.x_ge,hv.x_lt⟩
    · obtain ⟨hge,hlt⟩ := hy.covers_pixel hyc
      exact mem_pixels.mpr ⟨hge,hlt,hv.y_ge,hv.y_lt⟩
    · exact fun u hu _ hmem => absurd (mem_pixels.mp hmem).1 (hx.covers_last hxc hu).not_ge
    · exact fun w hw _ hmem => absurd (mem_pixels.mp hmem).1 (hy.covers_last hyc hw).not_ge
  · intro p r hv hout
    exact axesFold_kept hv (fun x hxmem y hymem hmem =>
      hout ⟨hax.within hx hxmem hmem.1,hay.within hy hymem hmem.2⟩) output

/-- Without samples the loops change nothing. -/
theorem storeAxes_empty (hempty : ¬(ax.start < ax.stop ∧ ay.start < ay.stop))
    (horigin : ay.start < ay.stop → ay.origin = ay.start) (coefficients : List β)
    (output : Buffer β) : storeAxes ax ay region coefficients output = some output := by
  by_cases hy : ay.start < ay.stop
  · have hx : ax.samples = [] := by
      rw [Axis.samples,Nat.sub_eq_zero_of_le (not_lt.mp fun hx => hempty ⟨hx,hy⟩)]
      rfl
    have hrow : ∀ y ∈ ay.samples, ∀ s, storeRow ax ay region coefficients s y = some s := by
      intro y hmem s
      rw [storeRow,Axis.relative,if_pos (horigin hy ▸ (mem_samples.mp hmem).1),hx]
      rfl
    rw [storeAxes,foldlM_eq_foldl (f := fun s _ => s) hrow]
    exact congrArg some (foldl_kept (R := id) (fun _ _ _ => rfl) output)
  · rw [storeAxes,Axis.samples,Nat.sub_eq_zero_of_le (not_lt.mp hy)]
    rfl

theorem stores_of_alignment (hx : ax.Regular tx) (hy : ay.Regular ty)
    (h : Alignment ax ay tx ty) : Stores ax ay tx ty := by
  obtain ⟨horigin,h⟩ := h
  intro β region coefficients value output hholds
  split_ifs at h with hne
  · exact ⟨_,storeAxes_eq h.1.checked h.2.checked hholds output,
      stored_of_aligned hx hy h.1 h.2 output⟩
  · refine ⟨output,storeAxes_empty hne horigin coefficients output,?_,fun _ _ _ _ => rfl⟩
    intro p r _ ⟨hp,hr⟩
    exact absurd ⟨hp.1.trans_lt hp.2,hr.1.trans_lt hr.2⟩ h

/-! ## What a successful store has checked -/

theorem relative_some {a : Axis} {z : ℕ} (h : a.relative x = some z) : a.origin ≤ x := by
  unfold Axis.relative at h
  split_ifs at h with hle
  exact hle

theorem positions_some {a : Axis} {l : List ℕ} (h : a.positions x = some l) :
    a.referenceGrid x + a.scale ≤ u32Max ∧ l = a.pixels x := by
  unfold Axis.positions at h
  split_ifs at h with hle
  exact ⟨hle,(Option.some.inj h).symm⟩

theorem storeRow_turn {output output' : Buffer β}
    (h : storeAxes ax ay region coefficients output = some output') (hy : y ∈ ay.samples) :
    ay.origin ≤ y ∧ ∃ s s', ax.samples.foldlM
      (storeSample ax ay region coefficients y (y - ay.origin)) s = some s' := by
  obtain ⟨s,s',hrow⟩ := foldlM_turn h y hy
  obtain ⟨relativeY,hrelative,hrow⟩ := Option.bind_eq_some_iff.mp hrow
  have hle := relative_some hrelative
  rw [Axis.relative,if_pos hle] at hrelative
  exact ⟨hle,s,s',Option.some.inj hrelative ▸ hrow⟩

theorem storeSample_turn {relativeY : ℕ} {s s' : Buffer β}
    (h : storeSample ax ay none coefficients y relativeY s x = some s') (hp : p ∈ ax.pixels x) :
    ax.origin ≤ x ∧ ax.referenceGrid x + ax.scale ≤ u32Max ∧
      ay.referenceGrid y + ay.scale ≤ u32Max := by
  obtain ⟨relativeX,hrelative,h⟩ := Option.bind_eq_some_iff.mp h
  obtain ⟨sample,-,h⟩ := Option.bind_eq_some_iff.mp h
  obtain ⟨xPositions,hpositions,h⟩ := Option.bind_eq_some_iff.mp h
  obtain ⟨hfits,rfl⟩ := positions_some hpositions
  obtain ⟨u,u',hcolumn⟩ := foldlM_turn h p hp
  rw [storeColumn,if_pos (show storesColumn none (p - ax.offset) = true from rfl)] at hcolumn
  obtain ⟨yPositions,hrows,-⟩ := Option.bind_eq_some_iff.mp hcolumn
  exact ⟨relative_some hrelative,hfits,(positions_some hrows).1⟩

/-- A store that succeeds has passed every check. -/
theorem checked_of_some (hx : ax.Regular tx) (hy : ay.Regular ty) (hxne : ax.start < ax.stop)
    (hyne : ay.start < ay.stop) {output output' : Buffer β}
    (h : storeAxes ax ay none coefficients output = some output') : ax.Checked ∧ ay.Checked := by
  have hsample : ∀ x ∈ ax.samples, ∀ y ∈ ay.samples, (∃ p, p ∈ ax.pixels x) →
      ax.origin ≤ x ∧ ax.referenceGrid x + ax.scale ≤ u32Max ∧
        ay.referenceGrid y + ay.scale ≤ u32Max := by
    rintro x hxmem y hymem ⟨p,hp⟩
    obtain ⟨-,s,s',hrow⟩ := storeRow_turn h hymem
    obtain ⟨u,u',hturn⟩ := foldlM_turn hrow x hxmem
    exact storeSample_turn hturn hp
  have hreach : ∀ x ∈ ax.samples, ∃ p, p ∈ ax.pixels x := by
    intro x hxmem
    obtain ⟨hstart,hstop⟩ := mem_samples.mp hxmem
    refine ⟨ax.referenceGrid x,mem_pixels.mpr ⟨le_rfl,?_,hx.offset_le_grid hstart,
      hx.visible x hstop⟩⟩
    have := hx.scale_pos
    omega
  have hxfirst : ax.start ∈ ax.samples := mem_samples.mpr ⟨le_rfl,hxne⟩
  have hyfirst : ay.start ∈ ay.samples := mem_samples.mpr ⟨le_rfl,hyne⟩
  constructor
  · exact ⟨le_antisymm (hsample _ hxfirst _ hyfirst (hreach _ hxfirst)).1 hx.start_le,
      fun x hxmem => (hsample x hxmem _ hyfirst (hreach x hxmem)).2.1⟩
  · exact ⟨le_antisymm (storeRow_turn h hyfirst).1 hy.start_le,
      fun y hymem => (hsample _ hxfirst y hymem (hreach _ hxfirst)).2.2⟩

/-- Coefficients that are all set. -/
theorem holds_replicate (ax ay : Axis) :
    Holds ax ay (List.replicate ((ay.stop - ay.start) * (ax.stop - ax.start)) true)
      fun _ _ => true := by
  refine ⟨List.length_replicate,fun x hx y hy => ?_⟩
  rw [mem_samples] at hx hy
  rw [List.getElem?_replicate,if_pos]
  calc (y - ay.start) * (ax.stop - ax.start) + (x - ax.start)
      < (y - ay.start) * (ax.stop - ax.start) + (ax.stop - ax.start) := by omega
    _ = (y - ay.start + 1) * (ax.stop - ax.start) := (Nat.succ_mul _ _).symm
    _ ≤ (ay.stop - ay.start) * (ax.stop - ax.start) := Nat.mul_le_mul_right _ (by omega)

theorem visible_first (hx : ax.Regular tx) (hy : ay.Regular ty) (hxt : tx.1 < tx.2)
    (hyt : ty.1 < ty.2) : Visible ax ay none tx.1 ty.1 :=
  ⟨hx.offset_le,hxt.trans_le hx.le_end,hy.offset_le,hyt.trans_le hy.le_end,rfl,rfl⟩

theorem alignment_of_stores (hx : ax.Regular tx) (hy : ay.Regular ty)
    (h : Stores ax ay tx ty) : Alignment ax ay tx ty := by
  -- an image that is set exactly where the store writes
  obtain ⟨output,hsome,hstored⟩ := h Bool none _ _ (fun _ => false) (holds_replicate ax ay)
  refine ⟨fun hyne => le_antisymm (storeRow_turn hsome (mem_samples.mpr ⟨le_rfl,hyne⟩)).1
    hy.start_le,?_⟩
  split_ifs with hne
  · obtain ⟨hxne,hyne⟩ := hne
    obtain ⟨hxc,hyc⟩ := checked_of_some hx hy hxne hyne hsome
    rw [storeAxes_eq hxc hyc (holds_replicate ax ay)] at hsome
    have hxlast := hx.lastPixel_mem hxne
    have hylast := hy.lastPixel_mem hyne
    obtain ⟨-,-,hxge,hxlt⟩ := mem_pixels.mp hxlast
    obtain ⟨-,-,hyge,hylt⟩ := mem_pixels.mp hylast
    have hvisible : Visible ax ay none ax.lastPixel ay.lastPixel :=
      ⟨hxge,hxlt,hyge,hylt,rfl,rfl⟩
    have hset : output (pixelCell ax ay none ax.lastPixel ay.lastPixel) = true := by
      rw [← Option.some.inj hsome]
      exact axesFold_last hvisible (mem_samples.mpr (by omega)) (mem_samples.mpr (by omega))
        hxlast hylast (fun _ _ _ => by omega) (fun _ _ _ => by omega) _
    have htile : InTile tx ty ax.lastPixel ay.lastPixel := by
      by_contra hout
      have hkept := hstored.kept _ _ hvisible hout
      rw [hset] at hkept
      exact absurd hkept (by decide)
    obtain ⟨⟨hxp,hxp'⟩,hyp,hyp'⟩ := htile
    obtain ⟨x,hxmem,y,hymem,hxcovers,hycovers,-⟩ := hstored.written tx.1 ty.1
      (visible_first hx hy (by omega) (by omega)) ⟨⟨le_rfl,by omega⟩,le_rfl,by omega⟩
    exact ⟨hx.aligned hxne hxc ⟨x,hxmem,hxcovers⟩ hxp',
      hy.aligned hyne hyc ⟨y,hymem,hycovers⟩ hyp'⟩
  · rintro ⟨hxt,hyt⟩
    obtain ⟨x,hxmem,y,hymem,-⟩ := hstored.written tx.1 ty.1 (visible_first hx hy hxt hyt)
      ⟨⟨le_rfl,hxt⟩,le_rfl,hyt⟩
    rw [mem_samples] at hxmem hymem
    exact hne ⟨by omega,by omega⟩

theorem stores_iff (hx : ax.Regular tx) (hy : ay.Regular ty) :
    Stores ax ay tx ty ↔ Alignment ax ay tx ty :=
  ⟨alignment_of_stores hx hy,stores_of_alignment hx hy⟩

/-! ## The tile's geometry -/

theorem ceilDiv_divCeil {k s v : ℕ} (hs : 0 < s) (hv : v ≤ u32Max) :
    ceilDivByPowerOfTwo (divCeil v s) k = divCeil v (s * 2 ^ k) := by
  have hle : divCeil v s ≤ v := divCeil_le hs
  rw [ceilDiv_eq k (hle.trans (hv.trans (by decide))),divCeil_divCeil v hs (Nat.two_pow_pos k)]

section
variable {s f k t offset gridEnd t0 t1 : ℕ}

/-- Pixels begin no later than the samples that begin at or behind the same place. -/
theorem shrink_mul_le (hs : 0 < s) (hf : f = 1 ∨ f = s) :
    f * divCeil t (f * 2 ^ k) ≤ s * divCeil t (s * 2 ^ k) := by
  rcases hf with rfl | rfl
  · rw [Nat.one_mul,Nat.one_mul,divCeil_le_iff (Nat.two_pow_pos k)]
    calc t ≤ divCeil t (s * 2 ^ k) * (s * 2 ^ k) :=
          (divCeil_le_iff (Nat.mul_pos hs (Nat.two_pow_pos k))).mp le_rfl
      _ = s * divCeil t (s * 2 ^ k) * 2 ^ k := by ring
  · exact le_rfl

theorem regular_of_tile (hs : 0 < s) (hf : f = 1 ∨ f = s) (hoffset : offset ≤ t0)
    (hend : t1 ≤ gridEnd) :
    Axis.Regular ⟨s,f,divCeil offset (f * 2 ^ k),divCeil (gridEnd - offset) (f * 2 ^ k),
      divCeil t0 s,divCeil t0 (s * 2 ^ k),divCeil t1 (s * 2 ^ k)⟩
      (divCeil t0 (f * 2 ^ k),divCeil t1 (f * 2 ^ k)) := by
  have hk := Nat.two_pow_pos k
  have hF : 0 < f * 2 ^ k := Nat.mul_pos (by omega) hk
  have hends : divCeil t1 (f * 2 ^ k) ≤
      divCeil offset (f * 2 ^ k) + divCeil (gridEnd - offset) (f * 2 ^ k) :=
    (divCeil_mono hF hend).trans (divCeil_add_le hF)
  refine ⟨hs,hf,?_,shrink_mul_le hs hf,shrink_mul_le hs hf,divCeil_mono hF hoffset,hends,?_⟩
  · exact (divCeil_divCeil t0 hs hk) ▸ divCeil_le hk
  · intro x hx
    -- the sample lies before the tile's end, and so does the pixel in front of it
    have hx' : x * (s * 2 ^ k) < t1 := (lt_divCeil_iff (Nat.mul_pos hs hk)).mp hx
    refine lt_of_lt_of_le ((lt_divCeil_iff hF).mpr ?_) hends
    refine lt_of_le_of_lt ?_ hx'
    calc s * x / f * (f * 2 ^ k) = s * x / f * f * 2 ^ k := (Nat.mul_assoc _ _ _).symm
      _ ≤ s * x * 2 ^ k := Nat.mul_le_mul_right _ (Nat.div_mul_le_self _ _)
      _ = x * (s * 2 ^ k) := by ring

/-- The same of the coordinates as the source computes them. -/
theorem regular_of_rect (hs : 0 < s) (hf : f = 1 ∨ f = s) (hoffset : offset ≤ t0)
    (hend : t1 ≤ gridEnd) (ht0 : t0 ≤ u32Max) (ht1 : t1 ≤ u32Max) :
    Axis.Regular ⟨s,f,divCeil offset (f * 2 ^ k),divCeil (gridEnd - offset) (f * 2 ^ k),
      divCeil t0 s,ceilDivByPowerOfTwo (divCeil t0 s) k,ceilDivByPowerOfTwo (divCeil t1 s) k⟩
      (divCeil t0 (f * 2 ^ k),divCeil t1 (f * 2 ^ k)) := by
  rw [ceilDiv_divCeil hs ht0,ceilDiv_divCeil hs ht1]
  exact regular_of_tile hs hf hoffset hend

end

variable (h : StoreHeader) (idx : ℕ) (info : ComponentInfo)

/-- The columns of a tile on the output grid. -/
def tileColumns : ℕ × ℕ :=
  (divCeil (tileRect h.sizeData idx).x0 (h.xShrinkFactor * h.xResolutionShrinkFactor),
    divCeil (tileRect h.sizeData idx).x1 (h.xShrinkFactor * h.xResolutionShrinkFactor))

def tileRows : ℕ × ℕ :=
  (divCeil (tileRect h.sizeData idx).y0 (h.yShrinkFactor * h.yResolutionShrinkFactor),
    divCeil (tileRect h.sizeData idx).y1 (h.yShrinkFactor * h.yResolutionShrinkFactor))

variable {h idx info}

theorem componentTile_info (t : IntRect) : (ComponentTile.new t info).componentInfo = info := rfl

/-- Every coordinate of a tile is a `u32`. -/
theorem tileRect_le (idx : ℕ) (hp : h.Parsed info) :
    (tileRect h.sizeData idx).x0 ≤ u32Max ∧ (tileRect h.sizeData idx).y0 ≤ u32Max ∧
      (tileRect h.sizeData idx).x1 ≤ h.sizeData.referenceGridWidth ∧
      (tileRect h.sizeData idx).y1 ≤ h.sizeData.referenceGridHeight := by
  have hx := hp.width_le
  have hy := hp.height_le
  have hx' := hp.xOffset_lt
  have hy' := hp.yOffset_lt
  exact ⟨max_le (min_le_right _ _) (by omega),max_le (min_le_right _ _) (by omega),
    min_le_right _ _,min_le_right _ _⟩

theorem skipped_eq (hp : h.Parsed info) :
    info.parameters.numDecompositionLevels -
      (info.parameters.numResolutionLevels - 1 - h.skippedResolutionLevels) =
        h.skippedResolutionLevels := by
  have := hp.levels
  have := hp.skipped_lt
  omega

theorem xAxis_regular (hp : h.Parsed info) :
    (xAxis h idx info).Regular (tileColumns h idx) := by
  obtain ⟨hx0,-,hx1,-⟩ := tileRect_le idx hp
  have hoffset : h.sizeData.imageAreaXOffset ≤ (tileRect h.sizeData idx).x0 := le_max_right _ _
  have hregular := regular_of_rect (k := h.skippedResolutionLevels) hp.horizontal_pos
    (hp.shrink.imp And.left And.left) hoffset hx1 hx0 (hx1.trans hp.width_le)
  simpa only [xAxis,tileColumns,resolutionTile,ResolutionTile.new,componentTile,
    ComponentTile.new_rect,componentTile_info,StoreHeader.outputGridOffset,StoreHeader.imageWidth,
    hp.xReduction,skipped_eq hp] using hregular

theorem yAxis_regular (hp : h.Parsed info) :
    (yAxis h idx info).Regular (tileRows h idx) := by
  obtain ⟨-,hy0,-,hy1⟩ := tileRect_le idx hp
  have hoffset : h.sizeData.imageAreaYOffset ≤ (tileRect h.sizeData idx).y0 := le_max_right _ _
  have hregular := regular_of_rect (k := h.skippedResolutionLevels) hp.vertical_pos
    (hp.shrink.imp And.right And.right) hoffset hy1 hy0 (hy1.trans hp.height_le)
  simpa only [yAxis,tileRows,resolutionTile,ResolutionTile.new,componentTile,
    ComponentTile.new_rect,componentTile_info,StoreHeader.outputGridOffset,StoreHeader.imageHeight,
    hp.yReduction,skipped_eq hp] using hregular

/-! ## The store of a tile's component -/

/-- Storing the samples of a component for tile `idx` ends without a failed check, writes the
sample that covers it to every pixel of the tile and leaves every other pixel as it was. -/
def StoresTile (h : StoreHeader) (idx : ℕ) (info : ComponentInfo) : Prop :=
  ∀ (β : Type) (region : Option OutputRegion) (coefficients : List β) (value : ℕ → ℕ → β)
    (output : Buffer β), Holds (xAxis h idx info) (yAxis h idx info) coefficients value →
    ∃ output', store h idx info region coefficients output = some output' ∧
      Stored (xAxis h idx info) (yAxis h idx info) (tileColumns h idx) (tileRows h idx) region
        value output output'

/-- Exactly the tiles whose two axes are aligned are stored right. -/
theorem storesTile_iff (hp : h.Parsed info) :
    StoresTile h idx info ↔
      Alignment (xAxis h idx info) (yAxis h idx info) (tileColumns h idx) (tileRows h idx) :=
  stores_iff (xAxis_regular hp) (yAxis_regular hp)

/-- An image of 8 by 8 pixels in tiles of 4 by 4, with `skipped` levels left out. -/
def tiledHeader (skipped : ℕ) : StoreHeader :=
  ⟨⟨8,8,0,0,4,4,0,0⟩,1,1,2 ^ skipped,2 ^ skipped,skipped⟩

/-- A component with every second sample in both directions and one decomposition level. -/
def halvedComponent : ComponentInfo := ⟨⟨2,2⟩,⟨1,2,64,64,[]⟩⟩

theorem tiledHeader_parsed {skipped : ℕ} (hskipped : skipped < 2) :
    (tiledHeader skipped).Parsed halvedComponent :=
  have hwidth : 8 ≤ u32Max := by decide
  have hoffset : 0 < 8 := by decide
  ⟨.inl (by decide),hwidth,hwidth,hoffset,hoffset,two_pos,two_pos,.inl ⟨rfl,rfl⟩,rfl,rfl,rfl,hskipped⟩

/-- The second tile at full resolution. -/
theorem storesTile_second : StoresTile (tiledHeader 0) 1 halvedComponent := by
  refine (storesTile_iff (tiledHeader_parsed two_pos)).mpr ⟨fun _ => by decide,?_⟩
  rw [if_pos (by decide)]
  exact ⟨⟨by decide,by decide,by decide,by decide⟩,⟨by decide,by decide,by decide,by decide⟩⟩

/-- With one level left out the second tile's first sample, at 1, lies before the component
tile, which begins at 2. -/
theorem reduced_second_tile :
    (tiledHeader 1).Parsed halvedComponent ∧ ¬StoresTile (tiledHeader 1) 1 halvedComponent := by
  have hparsed := tiledHeader_parsed one_lt_two
  refine ⟨hparsed,fun h => ?_⟩
  have haligned := (alignment_of_stores (xAxis_regular hparsed) (yAxis_regular hparsed) h).2
  rw [if_pos (by decide)] at haligned
  exact absurd haligned.1.origin (by decide)

end J2kNative.ComponentStore
