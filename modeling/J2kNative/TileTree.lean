import J2kNative.TileGeometry
import Mathlib.Tactic.Ring

/-!
# Tiles, component tiles and resolutions of the decoder

A tile is cut out of the reference grid; each component sees it through its
sub-sampling factors, each resolution through a power of two, and each sub-band
through the band's own rounding. Precincts and code blocks of a resolution are
counted and placed on the reference grid from these rectangles.

Only the parameters that the geometry reads are kept. Products the source forms
with checked arithmetic are `none` when they leave `u32`. The reference position
that the precinct iterator prepares behind the last column or row is never read
and is a plain number here.
-/
namespace J2kNative.TileTree
open TileGeometry

/-- The largest `u32`. -/
def u32Max : ℕ := 2 ^ 32 - 1

def saturatingMul (a b : ℕ) : ℕ := min (a * b) u32Max

def checkedMul (a b : ℕ) : Option ℕ := if a * b ≤ u32Max then some (a * b) else none

/-- `1_u32.checked_shl`. -/
def checkedShl (exponent : ℕ) : Option ℕ := if exponent < 32 then some (1 <<< exponent) else none

def nextMultipleOf (value step : ℕ) : ℕ :=
  if value % step = 0 then value else value + (step - value % step)

def checkedNextMultipleOf (value step : ℕ) : Option ℕ :=
  if nextMultipleOf value step ≤ u32Max then some (nextMultipleOf value step) else none

/-! ## Parameters -/

structure SizeData where
  referenceGridWidth : ℕ
  referenceGridHeight : ℕ
  imageAreaXOffset : ℕ
  imageAreaYOffset : ℕ
  tileWidth : ℕ
  tileHeight : ℕ
  tileXOffset : ℕ
  tileYOffset : ℕ
  deriving DecidableEq, Repr

namespace SizeData

def numXTiles (s : SizeData) : ℕ := divCeil (s.referenceGridWidth - s.tileXOffset) s.tileWidth

def tileXCoord (s : SizeData) (idx : ℕ) : ℕ := idx % s.numXTiles

def tileYCoord (s : SizeData) (idx : ℕ) : ℕ := idx / s.numXTiles

end SizeData

structure ComponentSizeInfo where
  horizontalResolution : ℕ
  verticalResolution : ℕ
  deriving DecidableEq, Repr, Inhabited

structure CodingStyleParameters where
  numDecompositionLevels : ℕ
  numResolutionLevels : ℕ
  codeBlockWidth : ℕ
  codeBlockHeight : ℕ
  precinctExponents : List (ℕ × ℕ)
  deriving DecidableEq, Repr, Inhabited

structure ComponentInfo where
  sizeInfo : ComponentSizeInfo
  parameters : CodingStyleParameters
  deriving DecidableEq, Repr, Inhabited

inductive ProgressionOrder where
  | layerResolutionComponentPosition
  | resolutionLayerComponentPosition
  | resolutionPositionComponentLayer
  | positionComponentResolutionLayer
  | componentPositionResolutionLayer
  deriving DecidableEq, Repr

/-- An entry of a POC marker. -/
structure ProgressionChange where
  resolutionStart : ℕ
  componentStart : ℕ
  layerEnd : ℕ
  resolutionEnd : ℕ
  componentEnd : ℕ
  progressionOrder : ProgressionOrder
  deriving DecidableEq, Repr

structure Tile where
  rect : IntRect
  componentInfos : List ComponentInfo
  progressionOrder : ProgressionOrder
  progressionChanges : List ProgressionChange
  numLayers : ℕ
  deriving DecidableEq, Repr

/-- The rectangle that `Tile::new` computes for tile `idx`. -/
def tileRect (s : SizeData) (idx : ℕ) : IntRect :=
  let xCoord := s.tileXCoord idx
  let yCoord := s.tileYCoord idx
  { x0 := max (saturatingAdd 32 s.tileXOffset (saturatingMul xCoord s.tileWidth))
      s.imageAreaXOffset
    y0 := max (saturatingAdd 32 s.tileYOffset (saturatingMul yCoord s.tileHeight))
      s.imageAreaYOffset
    x1 := min (saturatingAdd 32 s.tileXOffset (saturatingMul (xCoord + 1) s.tileWidth))
      s.referenceGridWidth
    y1 := min (saturatingAdd 32 s.tileYOffset (saturatingMul (yCoord + 1) s.tileHeight))
      s.referenceGridHeight }

/-! ## Component tiles and resolutions -/

structure ComponentTile where
  tileRect : IntRect
  componentInfo : ComponentInfo
  rect : IntRect
  deriving DecidableEq, Repr

/-- `ComponentTile::new`. -/
def ComponentTile.new (tileRect : IntRect) (info : ComponentInfo) : ComponentTile :=
  let dx := info.sizeInfo.horizontalResolution
  let dy := info.sizeInfo.verticalResolution
  let rect :=
    if dx = 1 ∧ dy = 1 then tileRect
    else ⟨divCeil tileRect.x0 dx, divCeil tileRect.y0 dy, divCeil tileRect.x1 dx,
      divCeil tileRect.y1 dy⟩
  ⟨tileRect, info, rect⟩

structure ResolutionTile where
  resolution : ℕ
  decompositionLevel : ℕ
  componentTile : ComponentTile
  rect : IntRect
  deriving DecidableEq, Repr

/-- `ResolutionTile::new` of a resolution that the component has. -/
def ResolutionTile.new (componentTile : ComponentTile) (resolution : ℕ) : ResolutionTile :=
  let nL := componentTile.componentInfo.parameters.numDecompositionLevels
  let scale := nL - resolution
  let r := componentTile.rect
  { resolution
    decompositionLevel := if resolution = 0 then nL else nL - (resolution - 1)
    componentTile
    rect := ⟨ceilDivByPowerOfTwo r.x0 scale, ceilDivByPowerOfTwo r.y0 scale,
      ceilDivByPowerOfTwo r.x1 scale, ceilDivByPowerOfTwo r.y1 scale⟩ }

/-- `ResolutionTile::new` with its assertion; `none` is the panic. -/
def ResolutionTile.tryNew (componentTile : ComponentTile) (resolution : ℕ) :
    Option ResolutionTile :=
  if componentTile.componentInfo.parameters.numResolutionLevels > resolution then
    some (ResolutionTile.new componentTile resolution)
  else none

inductive SubBandType where
  | lowLow
  | lowHigh
  | highLow
  | highHigh
  deriving DecidableEq, Repr, Inhabited

namespace ResolutionTile

/-- `sub_band_rect`. -/
def subBandRect (r : ResolutionTile) (subBandType : SubBandType) : IntRect :=
  let highPassX : Bool := subBandType = .highLow ∨ subBandType = .highHigh
  let highPassY : Bool := subBandType = .lowHigh ∨ subBandType = .highHigh
  let c := r.componentTile.rect
  ⟨subbandCoordinate c.x0 r.decompositionLevel highPassX,
    subbandCoordinate c.y0 r.decompositionLevel highPassY,
    subbandCoordinate c.x1 r.decompositionLevel highPassX,
    subbandCoordinate c.y1 r.decompositionLevel highPassY⟩

def precinctExponents (r : ResolutionTile) : ℕ × ℕ :=
  r.componentTile.componentInfo.parameters.precinctExponents.getD r.resolution (0, 0)

def precinctExponentX (r : ResolutionTile) : ℕ := r.precinctExponents.1

def precinctExponentY (r : ResolutionTile) : ℕ := r.precinctExponents.2

def numPrecinctsX (r : ResolutionTile) : ℕ :=
  if r.rect.x0 = r.rect.x1 then 0
  else divCeil r.rect.x1 (2 ^ r.precinctExponentX) - r.rect.x0 / 2 ^ r.precinctExponentX

def numPrecinctsY (r : ResolutionTile) : ℕ :=
  if r.rect.y0 = r.rect.y1 then 0
  else divCeil r.rect.y1 (2 ^ r.precinctExponentY) - r.rect.y0 / 2 ^ r.precinctExponentY

def numPrecincts (r : ResolutionTile) : ℕ := r.numPrecinctsX * r.numPrecinctsY

/-- `code_block_width`. -/
def codeBlockWidth (r : ResolutionTile) : ℕ :=
  let xcb := r.componentTile.componentInfo.parameters.codeBlockWidth
  2 ^ (if r.resolution > 0 then min xcb (r.precinctExponentX - 1) else min xcb r.precinctExponentX)

/-- `code_block_height`. -/
def codeBlockHeight (r : ResolutionTile) : ℕ :=
  let ycb := r.componentTile.componentInfo.parameters.codeBlockHeight
  2 ^ (if r.resolution > 0 then min ycb (r.precinctExponentY - 1) else min ycb r.precinctExponentY)

end ResolutionTile

/-! ## Precincts -/

structure PrecinctData where
  rX : ℕ
  rY : ℕ
  rect : IntRect
  idx : ℕ
  deriving DecidableEq, Repr

/-- An iterator `map` whose closure updates a captured variable. -/
def mapState {α β σ : Type*} (f : σ → α → β × σ) : σ → List α → List β
  | _, [] => []
  | s, a :: l => (f s a).1 :: mapState f (f s a).2 l

/-- The nested iterator that `precincts` returns. -/
def precinctRows (numPrecinctsX numPrecinctsY precinctXStep precinctYStep rX rY : ℕ)
    (precinctRect : ℕ → ℕ → IntRect) : List PrecinctData :=
  (mapState (fun rY y =>
      (mapState (fun rX x =>
          (⟨rX, rY, precinctRect x y, numPrecinctsX * y + x⟩,
            nextMultipleOf (rX + 1) precinctXStep)) rX (List.range numPrecinctsX),
        nextMultipleOf (rY + 1) precinctYStep)) rY (List.range numPrecinctsY)).flatten

/-- `precincts`: the precincts of a resolution row by row, with their positions on the
reference grid. -/
def ResolutionTile.precincts (r : ResolutionTile) : Option (List PrecinctData) := do
  let (ppx, ppy) := (r.precinctExponentX, r.precinctExponentY)
  let yStart := r.rect.y0 / 1 <<< ppy * 1 <<< ppy
  let xStart := r.rect.x0 / 1 <<< ppx * 1 <<< ppx
  let (ppx, ppy, xStart, yStart) ← (
    if r.resolution > 0 then
      if ppx = 0 ∨ ppy = 0 then none else some (ppx - 1, ppy - 1, xStart / 2, yStart / 2)
    else some (ppx, ppy, xStart, yStart))
  let ppxPow2 := 1 <<< ppx
  let ppyPow2 := 1 <<< ppy
  let nlMinusR := r.componentTile.componentInfo.parameters.numDecompositionLevels - r.resolution
  let xStride ← checkedShl (r.precinctExponentX + nlMinusR)
  let yStride ← checkedShl (r.precinctExponentY + nlMinusR)
  let sizeInfo := r.componentTile.componentInfo.sizeInfo
  let precinctXStep ← checkedMul sizeInfo.horizontalResolution xStride
  let precinctYStep ← checkedMul sizeInfo.verticalResolution yStride
  let precinctGridWidth ← checkedShl r.precinctExponentX
  let precinctGridHeight ← checkedShl r.precinctExponentY
  let rX := r.componentTile.tileRect.x0
  let rY := r.componentTile.tileRect.y0
  let rX ← (if rX % precinctXStep ≠ 0 ∧ r.rect.x0 % precinctGridWidth = 0 then
    checkedNextMultipleOf rX precinctXStep else some rX)
  let rY ← (if rY % precinctYStep ≠ 0 ∧ r.rect.y0 % precinctGridHeight = 0 then
    checkedNextMultipleOf rY precinctYStep else some rY)
  some (precinctRows r.numPrecinctsX r.numPrecinctsY precinctXStep precinctYStep rX rY fun x y =>
    .fromXywh (x * ppxPow2 + xStart) (y * ppyPow2 + yStart) ppxPow2 ppyPow2)

/-! ## Positions on the reference grid -/

/-- Reference-grid step between the columns of a resolution's precincts. -/
def ResolutionTile.precinctXStep (r : ResolutionTile) : ℕ :=
  r.componentTile.componentInfo.sizeInfo.horizontalResolution *
    2 ^ (r.precinctExponentX +
      (r.componentTile.componentInfo.parameters.numDecompositionLevels - r.resolution))

/-- Reference-grid step between the rows of a resolution's precincts. -/
def ResolutionTile.precinctYStep (r : ResolutionTile) : ℕ :=
  r.componentTile.componentInfo.sizeInfo.verticalResolution *
    2 ^ (r.precinctExponentY +
      (r.componentTile.componentInfo.parameters.numDecompositionLevels - r.resolution))

/-- Where precinct `i` of an axis starts on the reference grid: at the grid line of the
precinct, or with the tile when the first precinct starts before it. -/
def axisPosition (tileStart low gridSize step i : ℕ) : ℕ :=
  if i = 0 ∧ low % gridSize ≠ 0 then tileStart else (low / gridSize + i) * step

def ResolutionTile.precinctX (r : ResolutionTile) (i : ℕ) : ℕ :=
  axisPosition r.componentTile.tileRect.x0 r.rect.x0 (2 ^ r.precinctExponentX) r.precinctXStep i

def ResolutionTile.precinctY (r : ResolutionTile) (i : ℕ) : ℕ :=
  axisPosition r.componentTile.tileRect.y0 r.rect.y0 (2 ^ r.precinctExponentY) r.precinctYStep i

theorem nextMultipleOf_eq {v step q : ℕ} (hle : v ≤ q * step) (hlt : q * step < v + step) :
    nextMultipleOf v step = q * step := by
  have hdiv := Nat.div_add_mod v step
  have hmod := Nat.mod_lt v (show 0 < step by omega)
  rw [Nat.mul_comm] at hdiv
  unfold nextMultipleOf
  split_ifs with h0
  · rw [h0, Nat.add_zero] at hdiv
    have h1 : v / step ≤ q := Nat.le_of_mul_le_mul_right (hdiv.trans_le hle) (by omega)
    have h2 : q < v / step + 1 := by
      refine Nat.lt_of_mul_lt_mul_right (a := step) ?_
      rw [Nat.add_mul, Nat.one_mul, hdiv]
      exact hlt
    rw [← hdiv, show v / step = q by omega]
  · have h1 : v / step < q := by
      refine Nat.lt_of_mul_lt_mul_right (a := step) ?_
      omega
    have h2 : q < v / step + 2 := by
      refine Nat.lt_of_mul_lt_mul_right (a := step) ?_
      rw [Nat.add_mul]
      omega
    rw [show q = v / step + 1 by omega, Nat.add_mul, Nat.one_mul]
    omega

section
variable {d g x : ℕ}

theorem divCeil_bounds (hd : 0 < d) (x : ℕ) : x ≤ divCeil x d * d ∧ divCeil x d * d < x + d := by
  have h1 := (divCeil_le_iff hd).mp (le_refl (divCeil x d))
  refine ⟨h1, ?_⟩
  rcases Nat.eq_zero_or_pos (divCeil x d) with h0 | hpos
  · rw [h0, Nat.zero_mul]
    omega
  · have h2 : (divCeil x d - 1) * d < x := (lt_divCeil_iff hd).mp (by omega)
    rw [Nat.sub_mul, Nat.one_mul] at h2
    omega

/-- The iterator's start on an axis. -/
theorem axisStart_eq (hd : 0 < d) (hg : 0 < g) :
    (if x % (d * g) ≠ 0 ∧ divCeil x d % g = 0 then nextMultipleOf x (d * g) else x) =
      axisPosition x (divCeil x d) g (d * g) 0 := by
  obtain ⟨hle, hlt⟩ := divCeil_bounds hd x
  unfold axisPosition
  by_cases h0 : divCeil x d % g = 0
  · have hlow : divCeil x d / g * (d * g) = divCeil x d * d := by
      rw [Nat.mul_comm d g, ← Nat.mul_assoc, Nat.div_mul_cancel (Nat.dvd_of_mod_eq_zero h0)]
    have hdg : d ≤ d * g := Nat.le_mul_of_pos_right d hg
    have hnext : nextMultipleOf x (d * g) = divCeil x d / g * (d * g) :=
      nextMultipleOf_eq (by omega) (by omega)
    rw [if_neg (c := 0 = 0 ∧ _) (by simp [h0]), Nat.add_zero]
    split_ifs with h
    · exact hnext
    · rw [← hnext, nextMultipleOf, if_pos (not_not.mp fun h' => h ⟨h', h0⟩)]
  · rw [if_neg (c := _ ∧ divCeil x d % g = 0) (by simp [h0]), if_pos ⟨rfl, h0⟩]

/-- The iterator's step on an axis. -/
theorem axisStep_eq (hd : 0 < d) (hg : 0 < g) (i : ℕ) :
    nextMultipleOf (axisPosition x (divCeil x d) g (d * g) i + 1) (d * g) =
      axisPosition x (divCeil x d) g (d * g) (i + 1) := by
  obtain ⟨hle, hlt⟩ := divCeil_bounds hd x
  have hpos : 0 < d * g := Nat.mul_pos hd hg
  unfold axisPosition
  rw [if_neg (c := i + 1 = 0 ∧ _) (by simp), ← Nat.add_assoc]
  split_ifs with h
  · -- the tile starts inside the first precinct
    obtain ⟨rfl, h0⟩ := h
    have hdiv := Nat.div_add_mod (divCeil x d) g
    have hmod := Nat.mod_lt (divCeil x d) hg
    have hlow : divCeil x d * d = divCeil x d / g * (d * g) + divCeil x d % g * d := by
      conv_lhs => rw [← hdiv]
      ring
    have h1 : d ≤ divCeil x d % g * d := Nat.le_mul_of_pos_left d (Nat.pos_of_ne_zero h0)
    have h2 : divCeil x d % g * d + d ≤ d * g := by
      calc divCeil x d % g * d + d = (divCeil x d % g + 1) * d := by ring
        _ ≤ g * d := Nat.mul_le_mul_right d hmod
        _ = d * g := Nat.mul_comm g d
    refine nextMultipleOf_eq ?_ ?_
    · simp only [Nat.add_zero, Nat.add_mul, Nat.one_mul]
      omega
    · simp only [Nat.add_zero, Nat.add_mul, Nat.one_mul]
      omega
  · refine nextMultipleOf_eq ?_ ?_
    · rw [Nat.add_mul _ 1, Nat.one_mul]
      omega
    · rw [Nat.add_mul _ 1, Nat.one_mul]
      omega

end

theorem mapState_range' {β σ : Type*} {f : σ → ℕ → β × σ} {g : ℕ → σ}
    (hstep : ∀ i, (f (g i) i).2 = g (i + 1)) (n k : ℕ) :
    mapState f (g k) (List.range' k n) = (List.range' k n).map fun i => (f (g i) i).1 := by
  induction n generalizing k with
  | zero => rfl
  | succ n ih =>
      rw [List.range'_succ, List.map_cons, mapState, hstep, ih]

theorem mapState_range {β σ : Type*} {f : σ → ℕ → β × σ} {g : ℕ → σ} {s : σ}
    (hstart : s = g 0) (hstep : ∀ i, (f (g i) i).2 = g (i + 1)) (n : ℕ) :
    mapState f s (List.range n) = (List.range n).map fun i => (f (g i) i).1 := by
  rw [List.range_eq_range', hstart]
  exact mapState_range' hstep n 0

theorem range_mul_flatMap (m n : ℕ) {β : Type*} (f : ℕ → ℕ → β) :
    ((List.range m).map fun y => (List.range n).map fun x => f y x).flatten =
      (List.range (n * m)).map fun i => f (i / n) (i % n) := by
  induction m with
  | zero => simp
  | succ m ih =>
      rw [List.range_succ, List.map_append, List.flatten_append, ih, Nat.mul_succ, List.range_add,
        List.map_append]
      congr 1
      rw [List.map_singleton, List.flatten_singleton, List.map_map]
      refine List.map_congr_left fun x hx => ?_
      have hx : x < n := List.mem_range.mp hx
      rw [Function.comp_apply, Nat.mul_add_div (by omega), Nat.mul_add_mod,
        Nat.div_eq_of_lt hx, Nat.mod_eq_of_lt hx, Nat.add_zero]

/-- Precinct `i` lies at the positions of its column and row. -/
theorem precinctRows_eq {n m s t rX rY : ℕ} {gx gy : ℕ → ℕ} (hx : rX = gx 0) (hy : rY = gy 0)
    (hgx : ∀ i, nextMultipleOf (gx i + 1) s = gx (i + 1))
    (hgy : ∀ i, nextMultipleOf (gy i + 1) t = gy (i + 1)) (rect : ℕ → ℕ → IntRect) :
    precinctRows n m s t rX rY rect = (List.range (n * m)).map fun i =>
      ⟨gx (i % n), gy (i / n), rect (i % n) (i / n), i⟩ := by
  have hcolumns (rY y : ℕ) := mapState_range (g := gx)
    (f := fun rX x => ((⟨rX, rY, rect x y, n * y + x⟩ : PrecinctData), nextMultipleOf (rX + 1) s))
    hx hgx n
  have hrows := mapState_range (g := gy)
    (f := fun rY y => (mapState (fun rX x =>
      ((⟨rX, rY, rect x y, n * y + x⟩ : PrecinctData), nextMultipleOf (rX + 1) s)) rX
        (List.range n), nextMultipleOf (rY + 1) t))
    hy hgy m
  unfold precinctRows
  rw [hrows]
  simp only [hcolumns]
  rw [range_mul_flatMap]
  refine List.map_congr_left fun i _ => ?_
  rw [Nat.div_add_mod]

theorem checkedShl_eq {e : ℕ} (h : e < 32) : checkedShl e = some (2 ^ e) := by
  unfold checkedShl
  rw [if_pos h, Nat.one_shiftLeft]

/-- The steps of a resolution's precincts are formed in `u32`. -/
def ResolutionTile.StepsFit (r : ResolutionTile) : Prop :=
  let nlMinusR := r.componentTile.componentInfo.parameters.numDecompositionLevels - r.resolution
  r.precinctExponentX + nlMinusR < 32 ∧ r.precinctExponentY + nlMinusR < 32 ∧
    r.precinctXStep ≤ u32Max ∧ r.precinctYStep ≤ u32Max

instance (r : ResolutionTile) : Decidable r.StepsFit := by
  unfold ResolutionTile.StepsFit
  infer_instance

/-- The first grid line at or behind the tile's start is formed in `u32`, where the first
precinct starts on one. -/
def StartFits (tileStart low gridSize step : ℕ) : Prop :=
  tileStart % step ≠ 0 ∧ low % gridSize = 0 → nextMultipleOf tileStart step ≤ u32Max

/-- `precincts` of a resolution does not fail. -/
structure ResolutionTile.PrecinctsFormed (r : ResolutionTile) : Prop where
  exponents : r.resolution > 0 → ¬ (r.precinctExponentX = 0 ∨ r.precinctExponentY = 0)
  steps : r.StepsFit
  startX : StartFits r.componentTile.tileRect.x0 r.rect.x0 (2 ^ r.precinctExponentX) r.precinctXStep
  startY : StartFits r.componentTile.tileRect.y0 r.rect.y0 (2 ^ r.precinctExponentY) r.precinctYStep

/-- A resolution of a component of a tile. -/
structure ResolutionTile.Cut (r : ResolutionTile) : Prop where
  horizontal_pos : 0 < r.componentTile.componentInfo.sizeInfo.horizontalResolution
  vertical_pos : 0 < r.componentTile.componentInfo.sizeInfo.verticalResolution
  x0 : r.rect.x0 = divCeil r.componentTile.tileRect.x0
    (r.componentTile.componentInfo.sizeInfo.horizontalResolution *
      2 ^ (r.componentTile.componentInfo.parameters.numDecompositionLevels - r.resolution))
  y0 : r.rect.y0 = divCeil r.componentTile.tileRect.y0
    (r.componentTile.componentInfo.sizeInfo.verticalResolution *
      2 ^ (r.componentTile.componentInfo.parameters.numDecompositionLevels - r.resolution))

theorem divCeil_le {n d : ℕ} (hd : 0 < d) : divCeil n d ≤ n :=
  (divCeil_le_iff hd).mpr (Nat.le_mul_of_pos_right n hd)

theorem ComponentTile.new_rect (tileRect : IntRect) (info : ComponentInfo) :
    (ComponentTile.new tileRect info).rect =
      ⟨divCeil tileRect.x0 info.sizeInfo.horizontalResolution,
        divCeil tileRect.y0 info.sizeInfo.verticalResolution,
        divCeil tileRect.x1 info.sizeInfo.horizontalResolution,
        divCeil tileRect.y1 info.sizeInfo.verticalResolution⟩ := by
  unfold ComponentTile.new
  dsimp only
  split_ifs with h
  · rw [h.1, h.2, divCeil_one, divCeil_one, divCeil_one, divCeil_one]
  · rfl

theorem ResolutionTile.cut_new {tileRect : IntRect} {info : ComponentInfo}
    (hx : 0 < info.sizeInfo.horizontalResolution) (hy : 0 < info.sizeInfo.verticalResolution)
    (hx0 : tileRect.x0 ≤ u32Max) (hy0 : tileRect.y0 ≤ u32Max) (resolution : ℕ) :
    (ResolutionTile.new (ComponentTile.new tileRect info) resolution).Cut := by
  have hmax : u32Max ≤ 2 ^ 32 := by decide
  refine ⟨hx, hy, ?_, ?_⟩
  · unfold ResolutionTile.new
    dsimp only
    rw [ComponentTile.new_rect, ceilDiv_eq _ ((divCeil_le hx).trans (hx0.trans hmax)),
      divCeil_divCeil _ hx (Nat.two_pow_pos _)]
    rfl
  · unfold ResolutionTile.new
    dsimp only
    rw [ComponentTile.new_rect, ceilDiv_eq _ ((divCeil_le hy).trans (hy0.trans hmax)),
      divCeil_divCeil _ hy (Nat.two_pow_pos _)]
    rfl

section
variable {r : ResolutionTile}

theorem ResolutionTile.precinctXStep_eq (r : ResolutionTile) : r.precinctXStep =
    r.componentTile.componentInfo.sizeInfo.horizontalResolution *
      2 ^ (r.componentTile.componentInfo.parameters.numDecompositionLevels - r.resolution) *
        2 ^ r.precinctExponentX := by
  unfold ResolutionTile.precinctXStep
  rw [Nat.mul_assoc, ← pow_add, Nat.add_comm]

theorem ResolutionTile.precinctYStep_eq (r : ResolutionTile) : r.precinctYStep =
    r.componentTile.componentInfo.sizeInfo.verticalResolution *
      2 ^ (r.componentTile.componentInfo.parameters.numDecompositionLevels - r.resolution) *
        2 ^ r.precinctExponentY := by
  unfold ResolutionTile.precinctYStep
  rw [Nat.mul_assoc, ← pow_add, Nat.add_comm]

theorem checkedNext_eq {start low grid step : ℕ} (h : StartFits start low grid step) :
    (if start % step ≠ 0 ∧ low % grid = 0 then checkedNextMultipleOf start step
      else some start) =
      some (if start % step ≠ 0 ∧ low % grid = 0 then nextMultipleOf start step else start) := by
  split_ifs with hc
  · exact if_pos (h hc)
  · rfl

/-- Spacing of a resolution's precincts in its sub-bands, where two axes of a precinct's
exponents are halved above resolution zero. -/
def ResolutionTile.bandExponent (r : ResolutionTile) (exponent : ℕ) : ℕ :=
  if r.resolution > 0 then exponent - 1 else exponent

/-- The rectangle of a precinct in the coordinates of the resolution's sub-bands. -/
def ResolutionTile.precinctRect (r : ResolutionTile) (x y : ℕ) : IntRect :=
  let start (low exponent : ℕ) :=
    let start := low / 2 ^ exponent * 2 ^ exponent
    if r.resolution > 0 then start / 2 else start
  .fromXywh
    (x * 2 ^ r.bandExponent r.precinctExponentX + start r.rect.x0 r.precinctExponentX)
    (y * 2 ^ r.bandExponent r.precinctExponentY + start r.rect.y0 r.precinctExponentY)
    (2 ^ r.bandExponent r.precinctExponentX) (2 ^ r.bandExponent r.precinctExponentY)

theorem ResolutionTile.precincts_eq (hcut : r.Cut) (h : r.PrecinctsFormed) :
    r.precincts = some ((List.range r.numPrecincts).map fun i =>
      ⟨r.precinctX (i % r.numPrecinctsX), r.precinctY (i / r.numPrecinctsX),
        r.precinctRect (i % r.numPrecinctsX) (i / r.numPrecinctsX), i⟩) := by
  obtain ⟨hexp, ⟨hx, hy, hsx, hsy⟩, hstartX, hstartY⟩ := h
  have hx' : r.precinctExponentX < 32 := by omega
  have hy' : r.precinctExponentY < 32 := by omega
  have hdx := Nat.mul_pos hcut.horizontal_pos (Nat.two_pow_pos
    (r.componentTile.componentInfo.parameters.numDecompositionLevels - r.resolution))
  have hdy := Nat.mul_pos hcut.vertical_pos (Nat.two_pow_pos
    (r.componentTile.componentInfo.parameters.numDecompositionLevels - r.resolution))
  have hmulx : checkedMul r.componentTile.componentInfo.sizeInfo.horizontalResolution
      (2 ^ (r.precinctExponentX +
        (r.componentTile.componentInfo.parameters.numDecompositionLevels - r.resolution))) =
      some r.precinctXStep := if_pos hsx
  have hmuly : checkedMul r.componentTile.componentInfo.sizeInfo.verticalResolution
      (2 ^ (r.precinctExponentY +
        (r.componentTile.componentInfo.parameters.numDecompositionLevels - r.resolution))) =
      some r.precinctYStep := if_pos hsy
  have hrX := axisStart_eq (x := r.componentTile.tileRect.x0) hdx (Nat.two_pow_pos r.precinctExponentX)
  have hrY := axisStart_eq (x := r.componentTile.tileRect.y0) hdy (Nat.two_pow_pos r.precinctExponentY)
  have hstepX := axisStep_eq (x := r.componentTile.tileRect.x0) hdx
    (Nat.two_pow_pos r.precinctExponentX)
  have hstepY := axisStep_eq (x := r.componentTile.tileRect.y0) hdy
    (Nat.two_pow_pos r.precinctExponentY)
  rw [← hcut.x0, ← r.precinctXStep_eq] at hrX hstepX
  rw [← hcut.y0, ← r.precinctYStep_eq] at hrY hstepY
  have hrows (rect : ℕ → ℕ → IntRect) := precinctRows_eq (n := r.numPrecinctsX)
    (m := r.numPrecinctsY) (s := r.precinctXStep) (t := r.precinctYStep) hrX hrY hstepX hstepY rect
  unfold ResolutionTile.precincts
  by_cases hr : r.resolution > 0
  · simp only [if_pos hr, if_neg (hexp hr), Option.bind_eq_bind, Option.bind_some, checkedShl_eq hx,
      checkedShl_eq hy, checkedShl_eq hx', checkedShl_eq hy', hmulx, hmuly, checkedNext_eq hstartX,
      checkedNext_eq hstartY]
    rw [hrows]
    simp only [precinctRect, bandExponent, if_pos hr, Nat.one_shiftLeft]
    rfl
  · simp only [if_neg hr, Option.bind_eq_bind, Option.bind_some, checkedShl_eq hx,
      checkedShl_eq hy, checkedShl_eq hx', checkedShl_eq hy', hmulx, hmuly, checkedNext_eq hstartX,
      checkedNext_eq hstartY]
    rw [hrows]
    simp only [precinctRect, bandExponent, if_neg hr, Nat.one_shiftLeft]
    rfl

theorem startFits_of_checked {start low grid step q : ℕ}
    (h : (if start % step ≠ 0 ∧ low % grid = 0 then checkedNextMultipleOf start step
      else some start) = some q) : StartFits start low grid step := by
  intro hc
  rw [if_pos hc] at h
  exact (Option.ite_none_right_eq_some.mp h).1

/-- Otherwise the iterator is refused. -/
theorem ResolutionTile.precincts_eq_none (h : ¬ r.PrecinctsFormed) : r.precincts = none := by
  refine Option.eq_none_iff_forall_ne_some.mpr fun l hl => h ?_
  unfold ResolutionTile.precincts at hl
  simp only [Option.bind_eq_bind, Option.bind_eq_some_iff] at hl
  obtain ⟨_, hexp, xStride, hxs, yStride, hys, xStep, hxm, yStep, hym, gridX, hgx, gridY, hgy,
    startX, hstartX, startY, hstartY, -⟩ := hl
  unfold checkedShl at hxs hys hgx hgy
  unfold checkedMul at hxm hym
  obtain ⟨hx, hxs⟩ := Option.ite_none_right_eq_some.mp hxs
  obtain ⟨hy, hys⟩ := Option.ite_none_right_eq_some.mp hys
  obtain ⟨hmx, hxm⟩ := Option.ite_none_right_eq_some.mp hxm
  obtain ⟨hmy, hym⟩ := Option.ite_none_right_eq_some.mp hym
  have hgx := (Option.ite_none_right_eq_some.mp hgx).2
  have hgy := (Option.ite_none_right_eq_some.mp hgy).2
  rw [← Option.some.inj hxs, Nat.one_shiftLeft] at hmx hxm
  rw [← Option.some.inj hys, Nat.one_shiftLeft] at hmy hym
  rw [← Option.some.inj hgx, ← Option.some.inj hxm, Nat.one_shiftLeft] at hstartX
  rw [← Option.some.inj hgy, ← Option.some.inj hym, Nat.one_shiftLeft] at hstartY
  refine ⟨fun hr hzero => ?_, ⟨hx, hy, hmx, hmy⟩, startFits_of_checked hstartX,
    startFits_of_checked hstartY⟩
  rw [if_pos hr, if_pos hzero] at hexp
  cases hexp

end

end J2kNative.TileTree
