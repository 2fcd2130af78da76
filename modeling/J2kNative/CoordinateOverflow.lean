import J2kNative.DecodedBlocks
import J2kNative.TilePartParsing

/-!
# Coordinates of 32 bits

The parser of SIZ bounds the extent of the image and not its place on the reference grid, so
that corners of tiles may lie just below `2^32`. Tiles, component tiles, resolutions and
sub-bands stay below it; the precincts are formed here with every sum and product of the
source in 32 bits, and there is no result where one of them overflows.
-/
namespace J2kNative.CoordinateOverflow
open Fallible TileGeometry TileTree PacketContents DecodedBlocks TilePartParsing ParameterPrecedence

/-! ## SIZ -/

structure SizComponent where
  ssiz : UInt8
  xRsiz : UInt8
  yRsiz : UInt8

/-- The fields of a SIZ segment. -/
structure SizMarker where
  xsiz : UInt32
  ysiz : UInt32
  xOsiz : UInt32
  yOsiz : UInt32
  xtSiz : UInt32
  ytSiz : UInt32
  xtoSiz : UInt32
  ytoSiz : UInt32
  components : List SizComponent

inductive SizeError where
  | invalidDimensions
  | invalidComponentMetadata
  | tooManyChannels
  | imageTooLarge
  | invalidOffsets
  | tooManyTiles
  deriving DecidableEq, Repr

def maxSpecComponents : ℕ := 16384
def maxComponentPrecision : ℕ := 38
def maxImageDimension : ℕ := 60000
def maxTileCount : ℕ := 65536

/-- The size of a component's record in memory. -/
def componentSizeBytes : ℕ := 4

def SizMarker.sizeData (m : SizMarker) : SizeData :=
  ⟨m.xsiz.toNat,m.ysiz.toNat,m.xOsiz.toNat,m.yOsiz.toNat,m.xtSiz.toNat,m.ytSiz.toNat,
    m.xtoSiz.toNat,m.ytoSiz.toNat⟩

def SizComponent.info (c : SizComponent) : ComponentSizeInfo := ⟨c.xRsiz.toNat,c.yRsiz.toNat⟩

/-- The sampling that all components share, or one. -/
def shrinkFactor (resolution : ComponentSizeInfo → ℕ) (components : List ComponentSizeInfo) : ℕ :=
  match components with
  | [] => 1
  | first :: rest =>
      if rest.all fun c => c.horizontalResolution = first.horizontalResolution ∧
          c.verticalResolution = first.verticalResolution then resolution first
      else 1

def numYTiles (s : SizeData) : ℕ := divCeil (s.referenceGridHeight-s.tileYOffset) s.tileHeight

/-- `size_marker`. -/
def sizeMarker (maxComponentBytes : ℕ) (m : SizMarker) :
    Except SizeError (SizeData × List ComponentSizeInfo) := do
  let s := m.sizeData
  let components := m.components.map (·.info)
  refuse (s.imageAreaXOffset ≥ s.referenceGridWidth ∨
    s.imageAreaYOffset ≥ s.referenceGridHeight) .invalidDimensions
  refuse (m.components.length = 0) .invalidComponentMetadata
  refuse (m.components.length > maxSpecComponents) .tooManyChannels
  refuse (m.components.length*componentSizeBytes > maxComponentBytes) .imageTooLarge
  refuse (m.components.any fun c => (c.ssiz &&& 0x7F).toNat+1 > maxComponentPrecision)
    .invalidComponentMetadata
  refuse (s.tileWidth = 0 ∨ s.tileHeight = 0 ∨ s.referenceGridWidth = 0 ∨
    s.referenceGridHeight = 0) .invalidDimensions
  refuse (s.tileXOffset ≥ s.referenceGridWidth ∨ s.tileYOffset ≥ s.referenceGridHeight)
    .invalidDimensions
  refuse (s.tileXOffset > s.imageAreaXOffset ∨ s.tileYOffset > s.imageAreaYOffset) .invalidOffsets
  refuse (s.tileXOffset+s.tileWidth > u32Max ∨
    s.tileXOffset+s.tileWidth ≤ s.imageAreaXOffset) .invalidOffsets
  refuse (s.tileYOffset+s.tileHeight > u32Max ∨
    s.tileYOffset+s.tileHeight ≤ s.imageAreaYOffset) .invalidOffsets
  refuse (components.any fun c => c.verticalResolution = 0 ∨ c.horizontalResolution = 0)
    .invalidComponentMetadata
  let xShrink := shrinkFactor (·.horizontalResolution) components
  let yShrink := shrinkFactor (·.verticalResolution) components
  refuse (divCeil (s.referenceGridWidth-s.imageAreaXOffset) xShrink > maxImageDimension ∨
    divCeil (s.referenceGridHeight-s.imageAreaYOffset) yShrink > maxImageDimension) .imageTooLarge
  refuse (s.numXTiles*numYTiles s > maxTileCount) .tooManyTiles
  pure (s,components)

/-! ## Precincts in 32 bits -/

/-- A result of 32 bits; none where it overflows. -/
def u32 (value : ℕ) : Option ℕ := if value ≤ u32Max then some value else none

def fromXywh32 (x y w h : ℕ) : Option IntRect := do
  let x1 ← u32 (x+w)
  let y1 ← u32 (y+h)
  some ⟨x,y,x1,y1⟩

/-- The position of the next column or row. -/
def advance (position step : ℕ) : Option ℕ := do
  let next ← u32 (position+1)
  u32 (nextMultipleOf next step)

/-- The place and the extent of the precincts along an axis, and their step on the reference
grid. -/
structure AxisPlan where
  count : ℕ
  extent : ℕ
  start : ℕ
  step : ℕ

/-- Where a precinct starts along an axis. -/
def AxisPlan.corner (a : AxisPlan) (i : ℕ) : Option ℕ := do
  let offset ← u32 (i*a.extent)
  u32 (offset+a.start)

def precinctRow32 (ax ay : AxisPlan) (y y0 rY : ℕ) : ℕ → List ℕ → Option (List PrecinctData)
  | _, [] => some []
  | rX, x :: xs => do
      let x0 ← ax.corner x
      let rect ← fromXywh32 x0 y0 ax.extent ay.extent
      let next ← advance rX ax.step
      let rest ← precinctRow32 ax ay y y0 rY next xs
      some (⟨rX,rY,rect,ax.count*y+x⟩ :: rest)

def precinctRows32 (ax ay : AxisPlan) (rX : ℕ) : ℕ → List ℕ → Option (List PrecinctData)
  | _, [] => some []
  | rY, y :: ys => do
      let y0 ← ay.corner y
      let next ← advance rY ay.step
      let row ← precinctRow32 ax ay y y0 rY rX (List.range ax.count)
      let rest ← precinctRows32 ax ay rX next ys
      some (row ++ rest)

/-- `precincts`, and the enumeration of what it returns. An exponent that cannot be lowered is
refused, which is a result; where something overflows there is none. -/
def precincts32 (r : ResolutionTile) : Option (Option (List PrecinctData)) := do
  let (ppx,ppy) := (r.precinctExponentX,r.precinctExponentY)
  let yStart ← u32 (r.rect.y0/1 <<< ppy*1 <<< ppy)
  let xStart ← u32 (r.rect.x0/1 <<< ppx*1 <<< ppx)
  if r.resolution > 0 ∧ (ppx = 0 ∨ ppy = 0) then some none
  else
    let ppxPow2 := 1 <<< (if r.resolution > 0 then ppx-1 else ppx)
    let ppyPow2 := 1 <<< (if r.resolution > 0 then ppy-1 else ppy)
    let xStart := if r.resolution > 0 then xStart/2 else xStart
    let yStart := if r.resolution > 0 then yStart/2 else yStart
    let nlMinusR := r.componentTile.componentInfo.parameters.numDecompositionLevels-r.resolution
    let xStride ← checkedShl (r.precinctExponentX+nlMinusR)
    let yStride ← checkedShl (r.precinctExponentY+nlMinusR)
    let sizeInfo := r.componentTile.componentInfo.sizeInfo
    let precinctXStep ← checkedMul sizeInfo.horizontalResolution xStride
    let precinctYStep ← checkedMul sizeInfo.verticalResolution yStride
    let precinctGridWidth ← checkedShl r.precinctExponentX
    let precinctGridHeight ← checkedShl r.precinctExponentY
    let rX := r.componentTile.tileRect.x0
    let rY := r.componentTile.tileRect.y0
    let rX ← (if rX % precinctXStep ≠ 0 ∧ r.rect.x0 % precinctGridWidth = 0 then
      checkedNextMultipleOf rX precinctXStep else some rX)
    let rY ← (if rY % precinctYStep ≠ 0 ∧ r.rect.y0 % precinctGridHeight = 0 then
      checkedNextMultipleOf rY precinctYStep else some rY)
    let rows ← precinctRows32 ⟨r.numPrecinctsX,ppxPow2,xStart,precinctXStep⟩
      ⟨r.numPrecinctsY,ppyPow2,yStart,precinctYStep⟩ rX rY (List.range r.numPrecinctsY)
    some (some rows)

/-! ## Rows of precincts -/

theorem le_nextMultipleOf (value step : ℕ) : value ≤ nextMultipleOf value step := by
  unfold nextMultipleOf
  split_ifs
  · exact le_rfl
  · exact Nat.le_add_right _ _

theorem u32_eq {value : ℕ} (h : value ≤ u32Max) : u32 value = some value := if_pos h

theorem advance_eq {position step : ℕ} (h : nextMultipleOf (position+1) step ≤ u32Max) :
    advance position step = some (nextMultipleOf (position+1) step) := by
  unfold advance
  rw [u32_eq ((le_nextMultipleOf _ _).trans h),Option.bind_eq_bind,Option.bind_some,u32_eq h]

theorem advance_eq_none {position step : ℕ} (h : ¬nextMultipleOf (position+1) step ≤ u32Max) :
    advance position step = none := by
  unfold advance
  rw [Option.bind_eq_bind,Option.bind_eq_none_iff]
  intro next hnext
  obtain ⟨_,hnext⟩ := Option.ite_none_right_eq_some.mp hnext
  rw [← Option.some.inj hnext]
  exact if_neg h

/-- The end of precinct `i` along an axis. -/
def AxisPlan.stop (a : AxisPlan) (i : ℕ) : ℕ := i*a.extent+a.start+a.extent

/-- Positions on the reference grid that lie a step apart and never before the end of a
precinct. -/
structure AxisPlan.Positions (a : AxisPlan) (g : ℕ → ℕ) : Prop where
  next : ∀ i, nextMultipleOf (g i+1) a.step = g (i+1)
  stop_le : ∀ i, a.stop i ≤ g (i+1)

section
variable {a ax ay : AxisPlan} {g gx gy : ℕ → ℕ}

theorem AxisPlan.Positions.mono (h : a.Positions g) : Monotone g := by
  refine monotone_nat_of_le_succ fun i => ?_
  rw [← h.next i]
  exact (Nat.le_succ _).trans (le_nextMultipleOf _ _)

theorem corner_eq {i : ℕ} (h : a.stop i ≤ u32Max) :
    a.corner i = some (i*a.extent+a.start) := by
  unfold AxisPlan.stop at h
  unfold AxisPlan.corner
  rw [u32_eq (by omega),Option.bind_eq_bind,Option.bind_some,u32_eq (by omega)]

theorem fromXywh32_eq {x y w h : ℕ} (hx : x+w ≤ u32Max) (hy : y+h ≤ u32Max) :
    fromXywh32 x y w h = some (.fromXywh x y w h) := by
  unfold fromXywh32
  rw [u32_eq hx,u32_eq hy]
  rfl

/-- A row of precincts is formed where the position behind it is. -/
theorem precinctRow32_eq (hg : ax.Positions gx) (y rY : ℕ) (hy : ay.stop y ≤ u32Max) (n k : ℕ) :
    precinctRow32 ax ay y (y*ay.extent+ay.start) rY (gx k) (List.range' k n) =
      if n = 0 ∨ gx (k+n) ≤ u32Max then
        some ((List.range' k n).map fun x => ⟨gx x,rY,
          .fromXywh (x*ax.extent+ax.start) (y*ay.extent+ay.start) ax.extent ay.extent,
          ax.count*y+x⟩)
      else none := by
  induction n generalizing k with
  | zero => simp [precinctRow32]
  | succ n ih =>
      rw [List.range'_succ]
      unfold precinctRow32
      simp only [Option.bind_eq_bind,List.map_cons]
      have hsum : k+(n+1) = k+1+n := by omega
      have hmono : gx (k+1) ≤ gx (k+1+n) := hg.mono (Nat.le_add_right _ _)
      by_cases hnext : gx (k+1) ≤ u32Max
      · have hstop := (hg.stop_le k).trans hnext
        rw [corner_eq hstop,Option.bind_some,fromXywh32_eq hstop hy,Option.bind_some,
          advance_eq (by rwa [hg.next]),Option.bind_some,hg.next,ih,hsum]
        by_cases hlast : gx (k+1+n) ≤ u32Max
        · rw [if_pos (Or.inr hlast),if_pos (Or.inr hlast),Option.bind_some]
        · have hn : n ≠ 0 := by
            rintro rfl
            exact hlast hnext
          rw [if_neg (by simp [hn,hlast]),if_neg (by simp [hlast]),Option.bind_none]
      · rw [advance_eq_none (by rwa [hg.next]),
          if_neg (by rw [hsum]; exact fun h => h.elim (Nat.succ_ne_zero n) (by omega))]
        simp only [Option.bind_none,Option.bind_fun_none]

/-- All rows of precincts are formed where the positions behind them are. -/
theorem precinctRows32_eq (hgx : ax.Positions gx) (hgy : ay.Positions gy) (n k : ℕ) :
    precinctRows32 ax ay (gx 0) (gy k) (List.range' k n) =
      if n = 0 ∨ gy (k+n) ≤ u32Max ∧ (ax.count = 0 ∨ gx ax.count ≤ u32Max) then
        some ((List.range' k n).map fun y => (List.range ax.count).map fun x => ⟨gx x,gy y,
          .fromXywh (x*ax.extent+ax.start) (y*ay.extent+ay.start) ax.extent ay.extent,
          ax.count*y+x⟩).flatten
      else none := by
  induction n generalizing k with
  | zero => simp [precinctRows32]
  | succ n ih =>
      rw [List.range'_succ]
      unfold precinctRows32
      simp only [Option.bind_eq_bind,List.map_cons,List.flatten_cons]
      have hsum : k+(n+1) = k+1+n := by omega
      have hmono : gy (k+1) ≤ gy (k+1+n) := hgy.mono (Nat.le_add_right _ _)
      by_cases hnext : gy (k+1) ≤ u32Max
      · have hstop := (hgy.stop_le k).trans hnext
        rw [corner_eq hstop,Option.bind_some,advance_eq (by rwa [hgy.next]),Option.bind_some,
          List.range_eq_range',precinctRow32_eq hgx k (gy k) hstop ax.count 0,hgy.next,ih,hsum,
          Nat.zero_add,List.range_eq_range']
        by_cases hrow : ax.count = 0 ∨ gx ax.count ≤ u32Max
        · rw [if_pos hrow,Option.bind_some]
          by_cases hlast : gy (k+1+n) ≤ u32Max
          · rw [if_pos (Or.inr ⟨hlast,hrow⟩),if_pos (Or.inr ⟨hlast,hrow⟩),Option.bind_some]
          · have hn : n ≠ 0 := by
              rintro rfl
              exact hlast hnext
            rw [if_neg (by simp [hn,hlast]),if_neg (by simp [hlast]),Option.bind_none]
        · rw [if_neg hrow,Option.bind_none,
            if_neg (fun h => h.elim (Nat.succ_ne_zero n) fun h => hrow h.2)]
      · rw [advance_eq_none (by rwa [hgy.next]),
          if_neg (by rw [hsum]; exact fun h => h.elim (Nat.succ_ne_zero n) (by omega))]
        simp only [Option.bind_none,Option.bind_fun_none]

end

/-! ## Precincts of a resolution -/

section
variable {r : ResolutionTile}

/-- Where the first precinct starts in the coordinates of the sub-bands. -/
def bandStart (r : ResolutionTile) (low exponent : ℕ) : ℕ :=
  if r.resolution > 0 then low/2 ^ exponent*2 ^ exponent/2 else low/2 ^ exponent*2 ^ exponent

def columnPlan (r : ResolutionTile) : AxisPlan :=
  ⟨r.numPrecinctsX,2 ^ r.bandExponent r.precinctExponentX,
    bandStart r r.rect.x0 r.precinctExponentX,r.precinctXStep⟩

def rowPlan (r : ResolutionTile) : AxisPlan :=
  ⟨r.numPrecinctsY,2 ^ r.bandExponent r.precinctExponentY,
    bandStart r r.rect.y0 r.precinctExponentY,r.precinctYStep⟩

/-- Precincts of a sub-band end at multiples of their extent. -/
theorem stop_eq {exponent : ℕ} (hexp : r.resolution > 0 → exponent ≠ 0) (low i : ℕ) :
    i*2 ^ r.bandExponent exponent+bandStart r low exponent+2 ^ r.bandExponent exponent =
      (low/2 ^ exponent+i+1)*2 ^ r.bandExponent exponent := by
  have hstart : bandStart r low exponent = low/2 ^ exponent*2 ^ r.bandExponent exponent := by
    unfold bandStart ResolutionTile.bandExponent
    split_ifs with hr
    · obtain ⟨e,rfl⟩ := Nat.exists_eq_succ_of_ne_zero (hexp hr)
      rw [Nat.succ_sub_one,pow_succ 2 e,← Nat.mul_assoc,Nat.mul_div_cancel _ two_pos]
    · rfl
  rw [hstart]
  ring

theorem two_pow_band_le (r : ResolutionTile) (exponent : ℕ) :
    2 ^ r.bandExponent exponent ≤ 2 ^ exponent := by
  unfold ResolutionTile.bandExponent
  split_ifs
  · exact Nat.pow_le_pow_right two_pos (Nat.sub_le _ _)
  · exact le_rfl

theorem columnPlan_positions (hcut : r.Cut)
    (hexp : r.resolution > 0 → r.precinctExponentX ≠ 0) :
    (columnPlan r).Positions r.precinctX := by
  have hd := Nat.mul_pos hcut.horizontal_pos (Nat.two_pow_pos
    (r.componentTile.componentInfo.parameters.numDecompositionLevels-r.resolution))
  have hnext := axisStep_eq (x := r.componentTile.tileRect.x0) hd
    (Nat.two_pow_pos r.precinctExponentX)
  rw [← hcut.x0,← r.precinctXStep_eq] at hnext
  refine ⟨hnext,fun i => ?_⟩
  unfold AxisPlan.stop columnPlan
  dsimp only
  unfold ResolutionTile.precinctX axisPosition
  rw [stop_eq hexp,if_neg (fun h => Nat.succ_ne_zero i h.1),r.precinctXStep_eq,← Nat.add_assoc]
  exact Nat.mul_le_mul_left _ ((two_pow_band_le r _).trans (Nat.le_mul_of_pos_left _ hd))

theorem rowPlan_positions (hcut : r.Cut)
    (hexp : r.resolution > 0 → r.precinctExponentY ≠ 0) :
    (rowPlan r).Positions r.precinctY := by
  have hd := Nat.mul_pos hcut.vertical_pos (Nat.two_pow_pos
    (r.componentTile.componentInfo.parameters.numDecompositionLevels-r.resolution))
  have hnext := axisStep_eq (x := r.componentTile.tileRect.y0) hd
    (Nat.two_pow_pos r.precinctExponentY)
  rw [← hcut.y0,← r.precinctYStep_eq] at hnext
  refine ⟨hnext,fun i => ?_⟩
  unfold AxisPlan.stop rowPlan
  dsimp only
  unfold ResolutionTile.precinctY axisPosition
  rw [stop_eq hexp,if_neg (fun h => Nat.succ_ne_zero i h.1),r.precinctYStep_eq,← Nat.add_assoc]
  exact Nat.mul_le_mul_left _ ((two_pow_band_le r _).trans (Nat.le_mul_of_pos_left _ hd))

/-- The positions behind the last row and the last column of precincts fit. -/
def LastFits (r : ResolutionTile) : Prop :=
  r.numPrecinctsY = 0 ∨ r.precinctY r.numPrecinctsY ≤ u32Max ∧
    (r.numPrecinctsX = 0 ∨ r.precinctX r.numPrecinctsX ≤ u32Max)

instance (r : ResolutionTile) : Decidable (LastFits r) := by
  unfold LastFits
  infer_instance

theorem gridStart_le {low g : ℕ} (h : low ≤ u32Max) : low/1 <<< g*1 <<< g ≤ u32Max :=
  (Nat.div_mul_le_self _ _).trans h

/-- An exponent that cannot be lowered is refused. -/
theorem precincts32_refused (hx : r.rect.x0 ≤ u32Max) (hy : r.rect.y0 ≤ u32Max)
    (h : r.resolution > 0 ∧ (r.precinctExponentX = 0 ∨ r.precinctExponentY = 0)) :
    precincts32 r = some none := by
  unfold precincts32
  simp only [Option.bind_eq_bind,u32_eq (gridStart_le hy),u32_eq (gridStart_le hx),
    Option.bind_some]
  exact if_pos h

/-- The numbers of 32 bits are the exact ones, or there is an overflow behind the last
precincts. -/
theorem precincts32_formed (hcut : r.Cut) (hx : r.rect.x0 ≤ u32Max) (hy : r.rect.y0 ≤ u32Max)
    (h : r.PrecinctsFormed) :
    precincts32 r = if LastFits r then some r.precincts else none := by
  have hprecincts := ResolutionTile.precincts_eq hcut h
  obtain ⟨hexp,⟨hsx,hsy,hmx,hmy⟩,hstartX,hstartY⟩ := h
  have hexpX (hr : r.resolution > 0) : r.precinctExponentX ≠ 0 := fun h => hexp hr (.inl h)
  have hexpY (hr : r.resolution > 0) : r.precinctExponentY ≠ 0 := fun h => hexp hr (.inr h)
  have hgridX : r.precinctExponentX < 32 := by omega
  have hgridY : r.precinctExponentY < 32 := by omega
  have hmulx : checkedMul r.componentTile.componentInfo.sizeInfo.horizontalResolution
      (2 ^ (r.precinctExponentX +
        (r.componentTile.componentInfo.parameters.numDecompositionLevels - r.resolution))) =
      some r.precinctXStep := if_pos hmx
  have hmuly : checkedMul r.componentTile.componentInfo.sizeInfo.verticalResolution
      (2 ^ (r.precinctExponentY +
        (r.componentTile.componentInfo.parameters.numDecompositionLevels - r.resolution))) =
      some r.precinctYStep := if_pos hmy
  have hrX := axisStart_eq (x := r.componentTile.tileRect.x0)
    (Nat.mul_pos hcut.horizontal_pos (Nat.two_pow_pos
      (r.componentTile.componentInfo.parameters.numDecompositionLevels-r.resolution)))
    (Nat.two_pow_pos r.precinctExponentX)
  have hrY := axisStart_eq (x := r.componentTile.tileRect.y0)
    (Nat.mul_pos hcut.vertical_pos (Nat.two_pow_pos
      (r.componentTile.componentInfo.parameters.numDecompositionLevels-r.resolution)))
    (Nat.two_pow_pos r.precinctExponentY)
  rw [← hcut.x0,← r.precinctXStep_eq] at hrX
  rw [← hcut.y0,← r.precinctYStep_eq] at hrY
  have hrows : precinctRows32 (columnPlan r) (rowPlan r) (r.precinctX 0) (r.precinctY 0)
      (List.range r.numPrecinctsY) = if LastFits r then r.precincts else none := by
    have hrows := precinctRows32_eq (columnPlan_positions hcut hexpX)
      (rowPlan_positions hcut hexpY) r.numPrecinctsY 0
    rw [← List.range_eq_range',Nat.zero_add,range_mul_flatMap] at hrows
    rw [hrows,hprecincts]
    refine if_congr Iff.rfl (congrArg some (List.map_congr_left fun i _ => ?_)) rfl
    rw [Nat.div_add_mod]
    rfl
  have heval : precincts32 r = (precinctRows32 (columnPlan r) (rowPlan r) (r.precinctX 0)
      (r.precinctY 0) (List.range r.numPrecinctsY)).map some := by
    unfold precincts32
    simp only [Option.bind_eq_bind,u32_eq (gridStart_le hy),u32_eq (gridStart_le hx),
      Option.bind_some,checkedShl_eq hsx,checkedShl_eq hsy,checkedShl_eq hgridX,
      checkedShl_eq hgridY,hmulx,hmuly,checkedNext_eq hstartX,checkedNext_eq hstartY]
    rw [if_neg fun hr => hexp hr.1 hr.2,hrX,hrY,Option.map_eq_bind]
    simp only [Nat.one_shiftLeft]
    rfl
  rw [heval,hrows]
  split_ifs
  · rw [hprecincts,Option.map_some]
  · rfl

/-- Steps or starts that do not fit are refused. -/
theorem precincts32_eq_none (hexp : ¬(r.resolution > 0 ∧
      (r.precinctExponentX = 0 ∨ r.precinctExponentY = 0))) (h : ¬r.PrecinctsFormed) :
    precincts32 r = none := by
  refine Option.eq_none_iff_forall_ne_some.mpr fun l hl => h ?_
  unfold precincts32 at hl
  simp only [Option.bind_eq_bind,Option.bind_eq_some_iff] at hl
  obtain ⟨yStart,-,xStart,-,hl⟩ := hl
  rw [if_neg hexp] at hl
  simp only [Option.bind_eq_some_iff] at hl
  obtain ⟨xStride,hxs,yStride,hys,xStep,hxm,yStep,hym,gridX,hgx,gridY,hgy,startX,hstartX,startY,
    hstartY,-⟩ := hl
  unfold checkedShl at hxs hys hgx hgy
  unfold checkedMul at hxm hym
  obtain ⟨hx,hxs⟩ := Option.ite_none_right_eq_some.mp hxs
  obtain ⟨hy,hys⟩ := Option.ite_none_right_eq_some.mp hys
  obtain ⟨hmx,hxm⟩ := Option.ite_none_right_eq_some.mp hxm
  obtain ⟨hmy,hym⟩ := Option.ite_none_right_eq_some.mp hym
  have hgx := (Option.ite_none_right_eq_some.mp hgx).2
  have hgy := (Option.ite_none_right_eq_some.mp hgy).2
  rw [← Option.some.inj hxs,Nat.one_shiftLeft] at hmx hxm
  rw [← Option.some.inj hys,Nat.one_shiftLeft] at hmy hym
  rw [← Option.some.inj hgx,← Option.some.inj hxm,Nat.one_shiftLeft] at hstartX
  rw [← Option.some.inj hgy,← Option.some.inj hym,Nat.one_shiftLeft] at hstartY
  exact ⟨fun hr hzero => hexp ⟨hr,hzero⟩,⟨hx,hy,hmx,hmy⟩,startFits_of_checked hstartX,
    startFits_of_checked hstartY⟩

/-! ## Rectangles -/

/-- Corners in order and below `2^32`. -/
structure Bounded (rect : IntRect) : Prop where
  x0_le : rect.x0 ≤ rect.x1
  y0_le : rect.y0 ≤ rect.y1
  x1_le : rect.x1 ≤ u32Max
  y1_le : rect.y1 ≤ u32Max

theorem Bounded.mapAxes {rect : IntRect} (h : Bounded rect) {f g : ℕ → ℕ}
    (hf : ∀ u v, u ≤ v → v ≤ u32Max → f u ≤ f v ∧ f v ≤ v)
    (hg : ∀ u v, u ≤ v → v ≤ u32Max → g u ≤ g v ∧ g v ≤ v) :
    Bounded ⟨f rect.x0,g rect.y0,f rect.x1,g rect.y1⟩ :=
  ⟨(hf _ _ h.x0_le h.x1_le).1,(hg _ _ h.y0_le h.y1_le).1,
    (hf _ _ h.x0_le h.x1_le).2.trans h.x1_le,(hg _ _ h.y0_le h.y1_le).2.trans h.y1_le⟩

theorem divCeil_shrinks {d : ℕ} (hd : 0 < d) (u v : ℕ) (huv : u ≤ v) :
    divCeil u d ≤ divCeil v d ∧ divCeil v d ≤ v :=
  ⟨divCeil_mono hd huv,divCeil_le hd⟩

theorem ceilDiv_shrinks (k u v : ℕ) (huv : u ≤ v) (hv : v ≤ u32Max) :
    ceilDivByPowerOfTwo u k ≤ ceilDivByPowerOfTwo v k ∧ ceilDivByPowerOfTwo v k ≤ v := by
  have hmax : u32Max ≤ 2 ^ 32 := by decide
  rw [ceilDiv_eq k (hv.trans hmax),ceilDiv_eq k ((huv.trans hv).trans hmax)]
  exact divCeil_shrinks (Nat.two_pow_pos k) u v huv

theorem subband_shrinks (level : ℕ) (highPass : Bool) (u v : ℕ) (huv : u ≤ v) (hv : v ≤ u32Max) :
    subbandCoordinate u level highPass ≤ subbandCoordinate v level highPass ∧
      subbandCoordinate v level highPass ≤ v := by
  unfold subbandCoordinate
  dsimp only
  split_ifs
  · exact ceilDiv_shrinks level u v huv hv
  · have hzero := ceilDiv_shrinks level 0 0 le_rfl (Nat.zero_le _)
    exact ⟨le_rfl,hzero.2.trans (Nat.zero_le v)⟩
  · have h := ceilDiv_shrinks level _ _ (Nat.sub_le_sub_right huv (1 <<< (level-1)))
      ((Nat.sub_le _ _).trans hv)
    exact ⟨h.1,h.2.trans (Nat.sub_le _ _)⟩

section
variable {tile : IntRect} {info : ComponentInfo}

theorem componentTile_bounded (h : Bounded tile) (hx : 0 < info.sizeInfo.horizontalResolution)
    (hy : 0 < info.sizeInfo.verticalResolution) : Bounded (ComponentTile.new tile info).rect := by
  rw [ComponentTile.new_rect]
  exact h.mapAxes (fun u v huv _ => divCeil_shrinks hx u v huv)
    (fun u v huv _ => divCeil_shrinks hy u v huv)

theorem resolutionTile_bounded {componentTile : ComponentTile} (h : Bounded componentTile.rect)
    (resolution : ℕ) : Bounded (ResolutionTile.new componentTile resolution).rect :=
  h.mapAxes (ceilDiv_shrinks _) (ceilDiv_shrinks _)

theorem subBandRect_bounded (h : Bounded r.componentTile.rect) (t : SubBandType) :
    Bounded (r.subBandRect t) :=
  h.mapAxes (subband_shrinks _ _) (subband_shrinks _ _)

end

/-! ## Code blocks -/

/-- The code blocks of a precinct in a sub-band are not refused for an overflow, and where
their grid is accepted all are formed. -/
structure BlocksFit (r : ResolutionTile) (subBandRect precinctRect : IntRect) : Prop where
  grid : codeBlockGrid r subBandRect precinctRect ≠ .error .imageTooLarge
  blocks : ∀ grid, codeBlockGrid r subBandRect precinctRect = .ok grid →
    ∃ blocks, buildCodeBlocks r subBandRect grid = .ok blocks

theorem codeBlockWidth_dvd (r : ResolutionTile) :
    r.codeBlockWidth ∣ 2 ^ r.bandExponent r.precinctExponentX := by
  unfold ResolutionTile.codeBlockWidth ResolutionTile.bandExponent
  split_ifs <;> exact pow_dvd_pow 2 (min_le_right _ _)

theorem codeBlockHeight_dvd (r : ResolutionTile) :
    r.codeBlockHeight ∣ 2 ^ r.bandExponent r.precinctExponentY := by
  unfold ResolutionTile.codeBlockHeight ResolutionTile.bandExponent
  split_ifs <;> exact pow_dvd_pow 2 (min_le_right _ _)

theorem codeBlockWidth_pos (r : ResolutionTile) : 0 < r.codeBlockWidth := Nat.two_pow_pos _

theorem codeBlockHeight_pos (r : ResolutionTile) : 0 < r.codeBlockHeight := Nat.two_pow_pos _

theorem blocksEnd_le {w upper : ℕ} (hw : 0 < w) (hdvd : w ∣ upper) (other : ℕ) :
    divCeil (min upper other) w*w ≤ upper := by
  obtain ⟨q,rfl⟩ := hdvd
  rw [Nat.mul_comm w q]
  exact Nat.mul_le_mul_right w ((divCeil_le_iff hw).mpr (min_le_left _ _))

/-- The blocks of a grid end where its area does. -/
theorem start_add_blocks_le {x0 x1 w : ℕ} (h : x0 ≤ x1) (empty : Prop) [Decidable empty] :
    x0+(if empty then 0 else (x1-x0)/w)*w ≤ x1 := by
  have hdiv := Nat.div_mul_le_self (x1-x0) w
  split_ifs <;> omega

theorem blocksFit {precinct : IntRect} (hx : precinct.x1 ≤ u32Max) (hy : precinct.y1 ≤ u32Max)
    (hdvdX : r.codeBlockWidth ∣ precinct.x1) (hdvdY : r.codeBlockHeight ∣ precinct.y1)
    (subBandRect : IntRect) : BlocksFit r subBandRect precinct := by
  have hendX := (blocksEnd_le (codeBlockWidth_pos r) hdvdX subBandRect.x1).trans hx
  have hendY := (blocksEnd_le (codeBlockHeight_pos r) hdvdY subBandRect.y1).trans hy
  refine ⟨?_,fun grid hgrid => ?_⟩
  · unfold codeBlockGrid
    dsimp only
    rw [checkedExtent_eq hendX,checkedExtent_eq hendY,ok_bind,ok_bind]
    split_ifs <;> simp
  · unfold codeBlockGrid at hgrid
    dsimp only at hgrid
    rw [checkedExtent_eq hendX,checkedExtent_eq hendY,ok_bind,ok_bind] at hgrid
    by_cases horder : max precinct.x0 subBandRect.x0/r.codeBlockWidth*r.codeBlockWidth >
        divCeil (min precinct.x1 subBandRect.x1) r.codeBlockWidth*r.codeBlockWidth ∨
      max precinct.y0 subBandRect.y0/r.codeBlockHeight*r.codeBlockHeight >
        divCeil (min precinct.y1 subBandRect.y1) r.codeBlockHeight*r.codeBlockHeight
    · rw [if_pos horder] at hgrid
      cases hgrid
    · rw [if_neg horder] at hgrid
      rw [← Except.ok.inj hgrid]
      obtain ⟨hx,hy⟩ := not_or.mp horder
      exact ⟨_,buildCodeBlockRows_eq _ _ _ _ _
        ((start_add_blocks_le (Nat.le_of_not_lt hx) _).trans hendX)
        ((start_add_blocks_le (Nat.le_of_not_lt hy) _).trans hendY)⟩

/-! ## Enumeration -/

/-- The precincts and the code blocks of a resolution are enumerated without an overflow and
are those of exact arithmetic. -/
structure Unwrapped (r : ResolutionTile) : Prop where
  precincts : precincts32 r = some r.precincts
  codeBlocks : ∀ t ∈ subBandTypes r.resolution, ∀ precincts, r.precincts = some precincts →
    ∀ precinct ∈ precincts, BlocksFit r (r.subBandRect t) precinct.rect

/-- Precincts are refused on another ground, or their steps and their first positions fit, and
where there are any the tile's far edges do too when they are rounded up to the steps. -/
def CoordinatesFit (r : ResolutionTile) : Prop :=
  r.resolution > 0 ∧ (r.precinctExponentX = 0 ∨ r.precinctExponentY = 0) ∨
    r.StepsFit ∧
    StartFits r.componentTile.tileRect.x0 r.rect.x0 (2 ^ r.precinctExponentX) r.precinctXStep ∧
    StartFits r.componentTile.tileRect.y0 r.rect.y0 (2 ^ r.precinctExponentY) r.precinctYStep ∧
    (r.rect.y0 = r.rect.y1 ∨
      divCeil r.componentTile.tileRect.y1 r.precinctYStep*r.precinctYStep ≤ u32Max ∧
        (r.rect.x0 = r.rect.x1 ∨
          divCeil r.componentTile.tileRect.x1 r.precinctXStep*r.precinctXStep ≤ u32Max))

theorem axisCount_eq_zero {low high g : ℕ} (hg : 0 < g) (h : low ≤ high) :
    (if low = high then 0 else divCeil high g-low/g) = 0 ↔ low = high := by
  split_ifs with heq
  · exact iff_of_true rfl heq
  · refine iff_of_false (Nat.sub_ne_zero_of_lt ((lt_divCeil_iff hg).mpr ?_)) heq
    have := Nat.div_mul_le_self low g
    omega

/-- Behind the last precinct lies the first step at or behind the far edge of the tile. -/
theorem axisPosition_last {start stop d low high g : ℕ} (hd : 0 < d) (hg : 0 < g)
    (hhigh : high = divCeil stop d) (hne : divCeil high g-low/g ≠ 0) :
    axisPosition start low g (d*g) (divCeil high g-low/g) = divCeil stop (d*g)*(d*g) := by
  unfold axisPosition
  rw [if_neg (fun h => hne h.1),Nat.add_sub_cancel' (by omega),hhigh,divCeil_divCeil _ hd hg]

/-- A resolution of a component of a tile, with its far edges. -/
structure Spans (r : ResolutionTile) : Prop where
  cut : r.Cut
  bounded : Bounded r.rect
  x1 : r.rect.x1 = divCeil r.componentTile.tileRect.x1
    (r.componentTile.componentInfo.sizeInfo.horizontalResolution*
      2 ^ (r.componentTile.componentInfo.parameters.numDecompositionLevels-r.resolution))
  y1 : r.rect.y1 = divCeil r.componentTile.tileRect.y1
    (r.componentTile.componentInfo.sizeInfo.verticalResolution*
      2 ^ (r.componentTile.componentInfo.parameters.numDecompositionLevels-r.resolution))

theorem spans_new {tile : IntRect} {info : ComponentInfo} (h : Bounded tile)
    (hx : 0 < info.sizeInfo.horizontalResolution) (hy : 0 < info.sizeInfo.verticalResolution)
    (resolution : ℕ) : Spans (ResolutionTile.new (ComponentTile.new tile info) resolution) := by
  have hmax : u32Max ≤ 2 ^ 32 := by decide
  have hedge (e d v : ℕ) (hd : 0 < d) (hv : v ≤ u32Max) :
      ceilDivByPowerOfTwo (divCeil v d) e = divCeil v (d*2 ^ e) := by
    rw [ceilDiv_eq _ ((divCeil_le hd).trans (hv.trans hmax)),
      divCeil_divCeil _ hd (Nat.two_pow_pos _)]
  refine ⟨ResolutionTile.cut_new hx hy (h.x0_le.trans h.x1_le) (h.y0_le.trans h.y1_le) resolution,
    resolutionTile_bounded (componentTile_bounded h hx hy) resolution,?_,?_⟩
  · unfold ResolutionTile.new
    dsimp only
    rw [ComponentTile.new_rect,hedge _ _ _ hx h.x1_le]
    rfl
  · unfold ResolutionTile.new
    dsimp only
    rw [ComponentTile.new_rect,hedge _ _ _ hy h.y1_le]
    rfl

theorem lastFits_iff (h : Spans r) : LastFits r ↔
    (r.rect.y0 = r.rect.y1 ∨
      divCeil r.componentTile.tileRect.y1 r.precinctYStep*r.precinctYStep ≤ u32Max ∧
        (r.rect.x0 = r.rect.x1 ∨
          divCeil r.componentTile.tileRect.x1 r.precinctXStep*r.precinctXStep ≤ u32Max)) := by
  have hx : r.numPrecinctsX = 0 ↔ r.rect.x0 = r.rect.x1 :=
    axisCount_eq_zero (Nat.two_pow_pos _) h.bounded.x0_le
  have hy : r.numPrecinctsY = 0 ↔ r.rect.y0 = r.rect.y1 :=
    axisCount_eq_zero (Nat.two_pow_pos _) h.bounded.y0_le
  have hlastX (hne : r.rect.x0 ≠ r.rect.x1) : r.precinctX r.numPrecinctsX =
      divCeil r.componentTile.tileRect.x1 r.precinctXStep*r.precinctXStep := by
    have hcount := mt hx.mp hne
    unfold ResolutionTile.numPrecinctsX at hcount ⊢
    rw [if_neg hne] at hcount ⊢
    unfold ResolutionTile.precinctX
    rw [r.precinctXStep_eq]
    exact axisPosition_last (Nat.mul_pos h.cut.horizontal_pos (Nat.two_pow_pos _))
      (Nat.two_pow_pos _) h.x1 hcount
  have hlastY (hne : r.rect.y0 ≠ r.rect.y1) : r.precinctY r.numPrecinctsY =
      divCeil r.componentTile.tileRect.y1 r.precinctYStep*r.precinctYStep := by
    have hcount := mt hy.mp hne
    unfold ResolutionTile.numPrecinctsY at hcount ⊢
    rw [if_neg hne] at hcount ⊢
    unfold ResolutionTile.precinctY
    rw [r.precinctYStep_eq]
    exact axisPosition_last (Nat.mul_pos h.cut.vertical_pos (Nat.two_pow_pos _))
      (Nat.two_pow_pos _) h.y1 hcount
  unfold LastFits
  rw [hx,hy]
  refine or_congr_right' fun hne => ?_
  rw [hlastY hne]
  refine and_congr_right fun _ => or_congr_right' fun hne => ?_
  rw [hlastX hne]

/-- Precincts end where the position behind them lets them. -/
theorem precinctRect_bounds (h : Spans r) (hexp : r.resolution > 0 →
      ¬(r.precinctExponentX = 0 ∨ r.precinctExponentY = 0)) (hlast : LastFits r) {x y : ℕ}
    (hx : x < r.numPrecinctsX) (hy : y < r.numPrecinctsY) :
    (r.precinctRect x y).x1 ≤ u32Max ∧ (r.precinctRect x y).y1 ≤ u32Max ∧
      2 ^ r.bandExponent r.precinctExponentX ∣ (r.precinctRect x y).x1 ∧
      2 ^ r.bandExponent r.precinctExponentY ∣ (r.precinctRect x y).y1 := by
  have hexpX (hr : r.resolution > 0) : r.precinctExponentX ≠ 0 := fun h => hexp hr (.inl h)
  have hexpY (hr : r.resolution > 0) : r.precinctExponentY ≠ 0 := fun h => hexp hr (.inr h)
  have hcolumns := columnPlan_positions h.cut hexpX
  have hrows := rowPlan_positions h.cut hexpY
  obtain hzero | ⟨hlastY,hlastX⟩ := hlast
  · omega
  have hlastX := hlastX.resolve_left (by omega)
  refine ⟨((hcolumns.stop_le x).trans (hcolumns.mono hx)).trans hlastX,
    ((hrows.stop_le y).trans (hrows.mono hy)).trans hlastY,?_,?_⟩
  · exact Dvd.intro_left _ (stop_eq hexpX r.rect.x0 x).symm
  · exact Dvd.intro_left _ (stop_eq hexpY r.rect.y0 y).symm

theorem unwrapped_iff (h : Spans r) : Unwrapped r ↔ CoordinatesFit r := by
  have hx := h.bounded.x0_le.trans h.bounded.x1_le
  have hy := h.bounded.y0_le.trans h.bounded.y1_le
  by_cases hexp : r.resolution > 0 ∧ (r.precinctExponentX = 0 ∨ r.precinctExponentY = 0)
  · -- refused for its exponents, with or without wide coordinates
    have hnone := ResolutionTile.precincts_eq_none fun h => h.exponents hexp.1 hexp.2
    refine iff_of_true ⟨?_,fun t _ precincts hp => ?_⟩ (.inl hexp)
    · rw [precincts32_refused hx hy hexp,hnone]
    · rw [hnone] at hp
      cases hp
  · by_cases hformed : r.PrecinctsFormed
    · have heval := precincts32_formed h.cut hx hy hformed
      have hsides : CoordinatesFit r ↔ LastFits r := by
        rw [lastFits_iff h]
        unfold CoordinatesFit
        simp only [hexp,hformed.steps,hformed.startX,hformed.startY,false_or,true_and]
      rw [hsides]
      refine ⟨fun hu => ?_,fun hlast => ⟨heval.trans (if_pos hlast),?_⟩⟩
      · by_contra hlast
        rw [if_neg hlast,hu.precincts] at heval
        cases heval
      · intro t _ precincts hp precinct hmem
        rw [ResolutionTile.precincts_eq h.cut hformed] at hp
        rw [← Option.some.inj hp] at hmem
        obtain ⟨i,hi,rfl⟩ := List.mem_map.mp hmem
        have hi := List.mem_range.mp hi
        have hpos : 0 < r.numPrecinctsX := Nat.pos_of_mul_pos_right (Nat.zero_lt_of_lt hi)
        obtain ⟨hx1,hy1,hdx,hdy⟩ := precinctRect_bounds h hformed.exponents hlast
          (Nat.mod_lt i hpos) (Nat.div_lt_of_lt_mul hi)
        exact blocksFit hx1 hy1 ((codeBlockWidth_dvd r).trans hdx)
          ((codeBlockHeight_dvd r).trans hdy) _
    · refine iff_of_false (fun hu => ?_) (fun hfit => hformed ?_)
      · have hp := hu.precincts
        rw [precincts32_eq_none hexp hformed] at hp
        cases hp
      · obtain hzero | ⟨hsteps,hstartX,hstartY,-⟩ := hfit
        · exact absurd hzero hexp
        · exact ⟨fun hr hz => hexp ⟨hr,hz⟩,hsteps,hstartX,hstartY⟩

instance (start low grid step : ℕ) : Decidable (StartFits start low grid step) := by
  unfold StartFits
  infer_instance

instance (r : ResolutionTile) : Decidable (CoordinatesFit r) := by
  unfold CoordinatesFit
  infer_instance

end

/-! ## Accepted images -/

section
variable {maxComponentBytes : ℕ} {m : SizMarker} {s : SizeData}
  {components : List ComponentSizeInfo} {idx : ℕ}

/-- What the parser of SIZ has checked. -/
structure Checked (s : SizeData) : Prop where
  width_le : s.referenceGridWidth ≤ u32Max
  height_le : s.referenceGridHeight ≤ u32Max
  areaX_lt : s.imageAreaXOffset < s.referenceGridWidth
  areaY_lt : s.imageAreaYOffset < s.referenceGridHeight
  tileWidth_pos : 0 < s.tileWidth
  tileHeight_pos : 0 < s.tileHeight
  tileX_lt : s.tileXOffset < s.referenceGridWidth
  tileY_lt : s.tileYOffset < s.referenceGridHeight
  firstX : s.imageAreaXOffset < s.tileXOffset+s.tileWidth
  firstY : s.imageAreaYOffset < s.tileYOffset+s.tileHeight

theorem sizeMarker_checked (h : sizeMarker maxComponentBytes m = .ok (s,components)) :
    Checked s ∧ ∀ c ∈ components, 0 < c.horizontalResolution ∧ 0 < c.verticalResolution := by
  have hx := m.xsiz.toNat_lt
  have hy := m.ysiz.toNat_lt
  unfold sizeMarker at h
  obtain ⟨_,harea,h⟩ := bind_eq_ok.mp h
  obtain ⟨_,-,h⟩ := bind_eq_ok.mp h
  obtain ⟨_,-,h⟩ := bind_eq_ok.mp h
  obtain ⟨_,-,h⟩ := bind_eq_ok.mp h
  obtain ⟨_,-,h⟩ := bind_eq_ok.mp h
  obtain ⟨_,hpos,h⟩ := bind_eq_ok.mp h
  obtain ⟨_,htile,h⟩ := bind_eq_ok.mp h
  obtain ⟨_,-,h⟩ := bind_eq_ok.mp h
  obtain ⟨_,hfirstX,h⟩ := bind_eq_ok.mp h
  obtain ⟨_,hfirstY,h⟩ := bind_eq_ok.mp h
  obtain ⟨_,hsampling,h⟩ := bind_eq_ok.mp h
  obtain ⟨_,-,h⟩ := bind_eq_ok.mp h
  obtain ⟨_,-,h⟩ := bind_eq_ok.mp h
  obtain ⟨rfl,rfl⟩ := Prod.mk.inj (Except.ok.inj h)
  have harea := refuse_eq_ok.mp harea
  have hpos := refuse_eq_ok.mp hpos
  have htile := refuse_eq_ok.mp htile
  have hfirstX := refuse_eq_ok.mp hfirstX
  have hfirstY := refuse_eq_ok.mp hfirstY
  have hsampling := refuse_eq_ok.mp hsampling
  refine ⟨⟨Nat.le_pred_of_lt hx,Nat.le_pred_of_lt hy,?_,?_,?_,?_,?_,?_,?_,?_⟩,fun c hc => ?_⟩
  any_goals omega
  simp only [List.any_eq_true,decide_eq_true_eq,not_exists,not_and] at hsampling
  have := hsampling c hc
  omega

/-- The rectangle of a tile without bounds on numbers. -/
def exactTileRect (s : SizeData) (idx : ℕ) : IntRect :=
  ⟨max (s.tileXOffset+s.tileXCoord idx*s.tileWidth) s.imageAreaXOffset,
    max (s.tileYOffset+s.tileYCoord idx*s.tileHeight) s.imageAreaYOffset,
    min (s.tileXOffset+(s.tileXCoord idx+1)*s.tileWidth) s.referenceGridWidth,
    min (s.tileYOffset+(s.tileYCoord idx+1)*s.tileHeight) s.referenceGridHeight⟩

/-- Sums that saturate lie outside the image, where they are cut off. -/
theorem tileAxis_exact {offset size upper p : ℕ} (hupper : upper ≤ u32Max)
    (hp : p*size < upper-offset) :
    saturatingAdd 32 offset (saturatingMul p size) = offset+p*size ∧
      min (saturatingAdd 32 offset (saturatingMul (p+1) size)) upper =
        min (offset+(p+1)*size) upper := by
  unfold u32Max at hupper
  unfold saturatingAdd saturatingMul u32Max
  generalize (p+1)*size = next
  generalize p*size = start at hp ⊢
  constructor <;> omega

theorem tileAxis_ordered {offset size upper area p : ℕ} (hsize : 0 < size) (harea : area < upper)
    (hfirst : area < offset+size) (hp : p*size < upper-offset) :
    max (offset+p*size) area ≤ min (offset+(p+1)*size) upper := by
  rw [Nat.add_mul,Nat.one_mul]
  generalize p*size = start at hp ⊢
  omega

theorem tile_in_grid (h : Checked s) (hidx : idx < s.numXTiles*numYTiles s) :
    s.tileXCoord idx*s.tileWidth < s.referenceGridWidth-s.tileXOffset ∧
      s.tileYCoord idx*s.tileHeight < s.referenceGridHeight-s.tileYOffset := by
  have hpos : 0 < s.numXTiles := Nat.pos_of_mul_pos_right (Nat.zero_lt_of_lt hidx)
  exact ⟨(lt_divCeil_iff h.tileWidth_pos).mp (Nat.mod_lt idx hpos),
    (lt_divCeil_iff h.tileHeight_pos).mp (Nat.div_lt_of_lt_mul hidx)⟩

theorem tileRect_exact (h : Checked s) (hidx : idx < s.numXTiles*numYTiles s) :
    tileRect s idx = exactTileRect s idx := by
  obtain ⟨hp,hq⟩ := tile_in_grid h hidx
  obtain ⟨hx0,hx1⟩ := tileAxis_exact h.width_le hp
  obtain ⟨hy0,hy1⟩ := tileAxis_exact h.height_le hq
  unfold tileRect exactTileRect
  dsimp only
  rw [hx0,hx1,hy0,hy1]

theorem tileRect_bounded (h : Checked s) (hidx : idx < s.numXTiles*numYTiles s) :
    Bounded (tileRect s idx) := by
  obtain ⟨hp,hq⟩ := tile_in_grid h hidx
  rw [tileRect_exact h hidx]
  exact ⟨tileAxis_ordered h.tileWidth_pos h.areaX_lt h.firstX hp,
    tileAxis_ordered h.tileHeight_pos h.areaY_lt h.firstY hq,(min_le_right _ _).trans h.width_le,
    (min_le_right _ _).trans h.height_le⟩

/-- The rectangles of a tile, of its component and of a resolution and its sub-bands. -/
structure RectsFit (s : SizeData) (idx : ℕ) (r : ResolutionTile) : Prop where
  tile_eq : tileRect s idx = exactTileRect s idx
  tile : Bounded (tileRect s idx)
  component : Bounded r.componentTile.rect
  resolution : Bounded r.rect
  subBand : ∀ t, Bounded (r.subBandRect t)

/-- Tiles, component tiles, resolutions and sub-bands of an accepted image fit in 32 bits,
precincts and code blocks do under the condition only. -/
theorem coordinates_unwrapped_iff (h : sizeMarker maxComponentBytes m = .ok (s,components))
    (hidx : idx < s.numXTiles*numYTiles s) {size : ComponentSizeInfo} (hsize : size ∈ components)
    (parameters : CodingStyleParameters) (resolution : ℕ) :
    RectsFit s idx
        (ResolutionTile.new (ComponentTile.new (tileRect s idx) ⟨size,parameters⟩) resolution) ∧
      (Unwrapped
          (ResolutionTile.new (ComponentTile.new (tileRect s idx) ⟨size,parameters⟩) resolution) ↔
        CoordinatesFit
          (ResolutionTile.new (ComponentTile.new (tileRect s idx) ⟨size,parameters⟩)
            resolution)) := by
  obtain ⟨hchecked,hsampling⟩ := sizeMarker_checked h
  obtain ⟨hx,hy⟩ := hsampling size hsize
  have htile := tileRect_bounded hchecked hidx
  have hcomponent : Bounded (ComponentTile.new (tileRect s idx) ⟨size,parameters⟩).rect :=
    componentTile_bounded htile hx hy
  exact ⟨⟨tileRect_exact hchecked hidx,htile,hcomponent,
      resolutionTile_bounded hcomponent resolution,fun t => subBandRect_bounded hcomponent t⟩,
    unwrapped_iff (spans_new htile hx hy resolution)⟩

/-- An image of 100 by 80 samples in tiles of 64. -/
def nearMarker : SizMarker := ⟨100,80,0,0,64,64,0,0,[⟨7,1,1⟩]⟩

/-- Precincts and code blocks of its last tile. -/
theorem coordinates_unwrapped_near :
    Unwrapped (ResolutionTile.new (ComponentTile.new (tileRect nearMarker.sizeData 3)
      ⟨⟨1,1⟩,⟨1,2,4,4,[(15,15),(15,15)]⟩⟩) 1) :=
  (@coordinates_unwrapped_iff 64 nearMarker nearMarker.sizeData [⟨1,1⟩] 3 rfl (by decide) ⟨1,1⟩
    (by decide) ⟨1,2,4,4,[(15,15),(15,15)]⟩ 1).2.mpr (by decide)

/-- Fifteen columns of samples in front of the last coordinate of 32 bits. -/
def farMarker : SizMarker := ⟨0xFFFFFFFF,16,0xFFFFFFF0,0,0xFFFFFFFF,16,0,0,[⟨7,1,1⟩]⟩

/-- An accepted image and an accepted coding style, without decomposition and with the default
precincts, the only one of which ends at `2^32`. -/
theorem far_precinct_wraps : ∃ style,
    sizeMarker 64 farMarker = .ok (farMarker.sizeData,[⟨1,1⟩]) ∧
      codingStyleParameters 0 "COD" [0,4,4,0,1] = .ok (style,[]) ∧
      ¬Unwrapped (ResolutionTile.new (ComponentTile.new (tileRect farMarker.sizeData 0)
        ⟨⟨1,1⟩,style.geometry⟩) 0) := by
  refine ⟨⟨⟨0,1,6,6,[(15,15)]⟩,codeBlockStyleFromU8 0,.reversible53⟩,rfl,rfl,fun h => ?_⟩
  have hnone : precincts32 (ResolutionTile.new (ComponentTile.new (tileRect farMarker.sizeData 0)
      ⟨⟨1,1⟩,⟨0,1,6,6,[(15,15)]⟩⟩) 0) = none := by decide
  cases hnone.symm.trans h.precincts

end

end J2kNative.CoordinateOverflow
