import J2kNative.CountedLoops
import J2kNative.Lifting
import J2kNative.TileGeometry

/-!
# Inverse 5/3 wavelet transform on exact integers

The decoder's `i64` path: the four bands of a level are interleaved into a plane
as wide as the level, its rows and then its columns are filtered in place, and
the plane becomes the low-pass band of the next level. Two buffers take turns;
the order is chosen so that the last level lands in the output buffer. Buffers
are reused without being cleared, so their previous contents are arguments.

Only the region of interest and the irreversible transform, which this path
rejects before it starts, are left out.
-/
namespace J2kNative.InverseDwt
open CountedLoops Lifting TileGeometry

/-- `floor_div_i64`: truncated division corrected by the sign of the remainder. -/
def floorDivI64 (numerator denominator : ℤ) : ℤ :=
  let quotient := numerator.tdiv denominator
  let remainder := numerator.tmod denominator
  if remainder ≠ 0 ∧ remainder < 0 then quotient - 1 else quotient

def periodicSymmetricExtensionLeft (idx offset : ℕ) : ℕ := (offset - idx) + (idx - offset)

def periodicSymmetricExtensionRight (idx offset length : ℕ) : ℕ :=
  let newIdx := idx + offset
  if newIdx ≥ length then
    let overshoot := newIdx - length
    length - 2 - overshoot
  else newIdx

/-- `filter_step_horizontal_i64`. -/
def filterStepHorizontal (scanline : Buffer ℤ) (width first : ℕ) (f : ℤ → ℤ → ℤ → ℤ) :
    Buffer ℤ :=
  let scanline := if first = 0 then
      let left := periodicSymmetricExtensionLeft 0 1
      let right := periodicSymmetricExtensionRight 0 1 width
      scanline.set 0 (f (scanline 0) (scanline left) (scanline right))
    else scanline
  let middleStart := if first = 0 then 2 else 1
  let scanline := forStep2 middleStart (width - 1) (fun i scanline =>
    scanline.set i (f (scanline i) (scanline (i - 1)) (scanline (i + 1)))) scanline
  if width > 1 ∧ (width - 1) % 2 = first then
    let i := width - 1
    let left := periodicSymmetricExtensionLeft i 1
    let right := periodicSymmetricExtensionRight i 1 width
    scanline.set i (f (scanline i) (scanline left) (scanline right))
  else scanline

/-- `filter_row_i64` with `reversible_filter_53r_i64`. -/
def filterRow (scanline : Buffer ℤ) (width x0 : ℕ) : Buffer ℤ :=
  if width = 1 then
    if x0 % 2 ≠ 0 then scanline.set 0 (floorDivI64 (scanline 0) 2) else scanline
  else
    let firstEven := x0 % 2
    let firstOdd := 1 - firstEven
    let scanline := filterStepHorizontal scanline width firstEven
      fun s left right => s - floorDivI64 (left + right + 2) 4
    filterStepHorizontal scanline width firstOdd
      fun s left right => s + floorDivI64 (left + right) 2

/-- An operation on the mutable slice `[start, start + length)` of a buffer. -/
def onSlice (start length : ℕ) (f : Buffer ℤ → Buffer ℤ) (b : Buffer ℤ) : Buffer ℤ := fun j =>
  if start ≤ j ∧ j < start + length then f (fun i => b (start + i)) (j - start) else b j

/-- `filter_horizontal_i64`. -/
def filterHorizontal (coefficients : Buffer ℤ) (rect : IntRect) : Buffer ℤ :=
  forRange rect.height (fun y coefficients =>
    onSlice (y * rect.width) rect.width (fun scanline => filterRow scanline rect.width rect.x0)
      coefficients) coefficients

/-- `filter_step_vertical_i64`. -/
def filterStepVertical (scanline : Buffer ℤ) (height width first : ℕ) (f : ℤ → ℤ → ℤ → ℤ) :
    Buffer ℤ :=
  forStep2 first height (fun row scanline =>
    let rowAbove := periodicSymmetricExtensionLeft row 1
    let rowBelow := periodicSymmetricExtensionRight row 1 height
    forRange width (fun col scanline =>
      let idx := row * width + col
      scanline.set idx (f (scanline idx) (scanline (rowAbove * width + col))
        (scanline (rowBelow * width + col)))) scanline) scanline

/-- `filter_vertical_i64`. -/
def filterVertical (coefficients : Buffer ℤ) (rect : IntRect) : Buffer ℤ :=
  if rect.height = 1 then
    if rect.y0 % 2 ≠ 0 then
      forRange rect.width (fun i coefficients =>
        coefficients.set i (floorDivI64 (coefficients i) 2)) coefficients
    else coefficients
  else
    let firstEven := rect.y0 % 2
    let firstOdd := 1 - firstEven
    let coefficients := filterStepVertical coefficients rect.height rect.width firstEven
      fun s above below => s - floorDivI64 (above + below + 2) 4
    filterStepVertical coefficients rect.height rect.width firstOdd
      fun s above below => s + floorDivI64 (above + below) 2

/-- `interleave_row_i64` into the slice of the output that starts at `start`. -/
def interleaveRow (first second : Buffer ℤ) (firstW secondW start : ℕ) (output : Buffer ℤ) :
    Buffer ℤ :=
  let numPairs := min firstW secondW
  let output := forRange numPairs (fun i output =>
    (output.set (start + i * 2) (first i)).set (start + (i * 2 + 1)) (second i)) output
  if firstW > numPairs then output.set (start + numPairs * 2) (first numPairs) else output

/-- `interleave_rows_i64`; the rows past `height` that the source breaks off at are
skipped one by one. -/
def interleaveRows (firstBand secondBand : Buffer ℤ) (firstW secondW : ℕ) (output : Buffer ℤ)
    (width height startRow numRows : ℕ) : Buffer ℤ :=
  forRange numRows (fun v output =>
    let outRow := startRow + v * 2
    if outRow ≥ height then output
    else
      interleaveRow (fun i => firstBand (v * firstW + i)) (fun i => secondBand (v * secondW + i))
        firstW secondW (outRow * width) output) output

/-- A decomposition level: its rectangle and the coefficients of its three detail bands. -/
structure Decomposition where
  rect : IntRect
  hl : Buffer ℤ
  lh : Buffer ℤ
  hh : Buffer ℤ

/-- `interleave_samples_i64`. -/
def interleaveSamples (ll : Buffer ℤ) (decomposition : Decomposition) (coefficients : Buffer ℤ) :
    Buffer ℤ :=
  let rect := decomposition.rect
  let numULow := divCeil rect.x1 2 - divCeil rect.x0 2
  let numUHigh := rect.x1 / 2 - rect.x0 / 2
  let numVLow := divCeil rect.y1 2 - divCeil rect.y0 2
  let numVHigh := rect.y1 / 2 - rect.y0 / 2
  let evenU := rect.x0 % 2 = 0
  let firstW := if evenU then numULow else numUHigh
  let secondW := if evenU then numUHigh else numULow
  let evenRowStart := if rect.y0 % 2 ≠ 0 then 1 else 0
  let oddRowStart := if rect.y0 % 2 = 0 then 1 else 0
  let coefficients := interleaveRows (if evenU then ll else decomposition.hl)
    (if evenU then decomposition.hl else ll) firstW secondW coefficients rect.width rect.height
    evenRowStart numVLow
  interleaveRows (if evenU then decomposition.lh else decomposition.hh)
    (if evenU then decomposition.hh else decomposition.lh) firstW secondW coefficients
    rect.width rect.height oddRowStart numVHigh

/-- `apply_level_i64` into a target with arbitrary previous contents. -/
def applyLevel (input target : Buffer ℤ) (decomposition : Decomposition) : Buffer ℤ :=
  let target := interleaveSamples input decomposition target
  if decomposition.rect.width > 0 ∧ decomposition.rect.height > 0 then
    filterVertical (filterHorizontal target decomposition.rect) decomposition.rect
  else target

inductive InputSource where
  | subBand | scratch | output
  deriving DecidableEq, Repr

/-- Loop variables of `apply_i64`. -/
structure LevelState where
  scratch : Buffer ℤ
  output : Buffer ℤ
  useScratch : Bool
  currentSource : InputSource
  rect : IntRect

/-- One turn of the level loop; `none` is the arm that the source marks unreachable. -/
def applyStep (ll : Buffer ℤ) (st : LevelState) (decomposition : Decomposition) :
    Option LevelState :=
  match st.currentSource, st.useScratch with
  | .subBand, true => some { st with
      scratch := applyLevel ll st.scratch decomposition
      currentSource := .scratch, useScratch := false, rect := decomposition.rect }
  | .subBand, false => some { st with
      output := applyLevel ll st.output decomposition
      currentSource := .output, useScratch := true, rect := decomposition.rect }
  | .scratch, false => some { st with
      output := applyLevel st.scratch st.output decomposition
      currentSource := .output, useScratch := true, rect := decomposition.rect }
  | .output, true => some { st with
      scratch := applyLevel st.output st.scratch decomposition
      currentSource := .scratch, useScratch := false, rect := decomposition.rect }
  | .scratch, true => none
  | .output, false => none

/-- `apply_i64`: the synthesized samples and their rectangle. -/
def applyI64 (ll : Buffer ℤ) (llRect : IntRect) (decompositions : List Decomposition)
    (skippedResolutionLevels : ℕ) (scratch output : Buffer ℤ) :
    Option (Buffer ℤ × IntRect) :=
  let decompositions := decompositions.take (decompositions.length - skippedResolutionLevels)
  if decompositions.isEmpty then some (ll, llRect)
  else
    let start : LevelState :=
      ⟨scratch, output, decompositions.length % 2 = 0, .subBand, llRect⟩
    (decompositions.foldlM (applyStep ll) start).map fun st => (st.output, st.rect)

/-! ## Filters -/

theorem floorDivI64_eq (numerator : ℤ) {denominator : ℤ} (h : 0 < denominator) :
    floorDivI64 numerator denominator = numerator / denominator := by
  unfold floorDivI64
  dsimp only
  have hsum := Int.mul_tdiv_add_tmod numerator denominator
  have hlt := Int.tmod_lt_of_pos numerator h
  have hgt : -denominator < numerator.tmod denominator := Int.lt_tmod_of_pos numerator h
  symm
  split_ifs with hneg
  · refine (Int.ediv_eq_iff_of_pos h).mpr ⟨?_, ?_⟩
    · rw [Int.sub_mul, Int.one_mul, Int.mul_comm]
      omega
    · rw [Int.sub_mul, Int.one_mul, Int.mul_comm]
      omega
  · refine (Int.ediv_eq_iff_of_pos h).mpr ⟨?_, ?_⟩
    · rw [Int.mul_comm]
      omega
    · rw [Int.mul_comm]
      omega

theorem extensionLeft_eq (i : ℕ) : periodicSymmetricExtensionLeft i 1 = left i := by
  unfold periodicSymmetricExtensionLeft left
  split_ifs <;> omega

theorem extensionRight_eq {n i : ℕ} (hi : i < n) :
    periodicSymmetricExtensionRight i 1 n = right n i := by
  unfold periodicSymmetricExtensionRight right
  dsimp only
  split_ifs <;> omega

/-- One horizontal step updates the samples of one parity from their neighbors. -/
theorem filterStepHorizontal_spec {width first j : ℕ} (f : ℤ → ℤ → ℤ → ℤ) (s : Buffer ℤ)
    (hw : 2 ≤ width) (hfirst : first < 2) (hj : j < width) :
    filterStepHorizontal s width first f j =
      if j % 2 = first then f (s j) (s (left j)) (s (right width j)) else s j := by
  unfold filterStepHorizontal
  dsimp only
  rw [extensionLeft_eq, extensionLeft_eq, extensionRight_eq (by omega), extensionRight_eq (by omega),
    left_zero, right_inner (by omega), left_of_pos (by omega), right_last (by omega)]
  -- the first sample has its mirror on both sides
  have h₁ : ∀ i, (if first = 0 then s.set 0 (f (s 0) (s 1) (s (0 + 1))) else s) i =
      if first = 0 ∧ i = 0 then f (s 0) (s 1) (s 1) else s i := by
    intro i
    by_cases h0 : first = 0
    · rw [if_pos h0]
      by_cases hi : i = 0
      · rw [if_pos ⟨h0, hi⟩, hi, Buffer.set_self]
      · rw [if_neg (fun h => hi h.2), Buffer.set_of_ne _ _ hi]
    · rw [if_neg h0, if_neg (fun h => h0 h.1)]
  generalize (if first = 0 then s.set 0 (f (s 0) (s 1) (s (0 + 1))) else s) = s₁ at h₁ ⊢
  have h₂ := forStep2_modify (a := if first = 0 then 2 else 1) (m := width - 1)
    (v := fun i t => f (t i) (t (i - 1)) (t (i + 1))) s₁ fun i t hi _ _ ht => by
      have h2 : (if first = 0 then 2 else 1) ≤ i := hi
      have h1 : 1 ≤ i := by split_ifs at h2 <;> omega
      rw [ht i (fun _ => rfl), ht (i - 1) (by omega), ht (i + 1) (by omega)]
  generalize forStep2 (if first = 0 then 2 else 1) (width - 1) _ s₁ = s₂ at h₂ ⊢
  have h₃ : ∀ i < width - 1, s₂ i =
      if i % 2 = first then f (s i) (s (left i)) (s (right width i)) else s i := by
    intro i hi
    rw [h₂]
    by_cases hi0 : i = 0
    · subst hi0
      rw [if_neg (by split_ifs <;> omega), h₁, left_zero, right_inner (by omega)]
      by_cases h0 : first = 0
      · rw [if_pos ⟨h0, rfl⟩, if_pos (by omega)]
      · rw [if_neg (fun h => h0 h.1), if_neg (by omega)]
    · by_cases hp : i % 2 = first
      · rw [if_pos (by split_ifs <;> omega), if_pos hp, h₁, h₁, h₁, if_neg (fun h => hi0 h.2),
          if_neg (by omega), if_neg (by omega), left_of_pos (by omega), right_inner (by omega)]
      · rw [if_neg (by split_ifs <;> omega), if_neg hp, h₁, if_neg (fun h => hi0 h.2)]
  have h₄ : s₂ (width - 1) = s (width - 1) := by
    rw [h₂, if_neg (by omega), h₁, if_neg (by omega)]
  by_cases hlast : (width - 1) % 2 = first
  · rw [if_pos ⟨by omega, hlast⟩]
    by_cases hjl : j = width - 1
    · have hprev : s₂ (width - 1 - 1) = s (width - 1 - 1) := by
        rw [h₃ _ (by omega), if_neg (by omega)]
      have hmirror : s₂ (width - 2) = s (width - 2) := hprev
      rw [hjl, Buffer.set_self, h₄, hprev, hmirror, if_pos hlast, left_of_pos (by omega),
        right_last (by omega)]
    · rw [Buffer.set_of_ne _ _ hjl, h₃ j (by omega)]
  · rw [if_neg (fun h => hlast h.2)]
    by_cases hjl : j = width - 1
    · rw [hjl, h₄, if_neg hlast]
    · rw [h₃ j (by omega)]

/-- Two steps of opposite parity are the inverse filter of the phase they start from. -/
theorem synthesize_of_steps {n phase i : ℕ} {x y z : Buffer ℤ} (hn : 2 ≤ n) (hphase : phase < 2)
    (hi : i < n)
    (hy : ∀ j < n, y j = if j % 2 = phase then
      x j - floorDivI64 (x (left j) + x (right n j) + 2) 4 else x j)
    (hz : ∀ j < n, z j = if j % 2 = 1 - phase then
      y j + floorDivI64 (y (left j) + y (right n j)) 2 else y j) :
    z i = synthesize phase n x i := by
  have hhigh (j : ℕ) : High phase j ↔ j % 2 = 1 - phase := by
    unfold High
    omega
  have hyu : ∀ j < n, y j = unlift (fun j => ¬ High phase j) (updateAmount n) x j := by
    intro j hj
    rw [hy j hj]
    by_cases hp : j % 2 = phase
    · rw [if_pos hp, unlift_of (T := fun j => ¬ High phase j) (by rw [hhigh]; omega),
        updateAmount, floorDivI64_eq _ (by decide)]
    · rw [if_neg hp, unlift_of_not (T := fun j => ¬ High phase j) (by rw [hhigh]; omega)]
  have hcongr := (amounts_congr hn hi hyu).1
  unfold synthesize
  rw [hz i hi]
  by_cases hp : i % 2 = 1 - phase
  · rw [if_pos hp, unlift_of ((hhigh i).mpr hp), ← hcongr, ← hyu i hi,
      predictAmount, floorDivI64_eq _ (by decide)]
    omega
  · rw [if_neg hp, unlift_of_not (fun h => hp ((hhigh i).mp h)), hyu i hi]

theorem filterRow_eq {width i : ℕ} (x0 : ℕ) (s : Buffer ℤ) (hw : 2 ≤ width) (hi : i < width) :
    filterRow s width x0 i = synthesize (x0 % 2) width s i := by
  unfold filterRow
  rw [if_neg (by omega)]
  exact synthesize_of_steps hw (by omega) hi
    (fun j hj => filterStepHorizontal_spec _ s hw (by omega) hj)
    (fun j hj => filterStepHorizontal_spec _ _ hw (by omega) hj)

/-- Inverse of a line of any length: a lone high-pass sample is halved. -/
def synthesizeLine (phase n : ℕ) (line : Buffer ℤ) : Buffer ℤ :=
  if n = 1 then (if phase % 2 ≠ 0 then fun i => line i / 2 else line)
  else synthesize (phase % 2) n line

theorem synthesizeLine_congr {n i : ℕ} (phase : ℕ) {x y : Buffer ℤ} (hi : i < n)
    (h : ∀ j < n, x j = y j) : synthesizeLine phase n x i = synthesizeLine phase n y i := by
  unfold synthesizeLine
  split_ifs with hn
  · exact congrArg (· / 2) (h i hi)
  · exact h i hi
  · exact synthesize_congr _ (by omega) hi h

theorem filterRow_line {width i : ℕ} (x0 : ℕ) (s : Buffer ℤ) (hi : i < width) :
    filterRow s width x0 i = synthesizeLine x0 width s i := by
  by_cases hw : width = 1
  · obtain rfl : i = 0 := by omega
    unfold filterRow synthesizeLine
    rw [if_pos hw, if_pos hw]
    split_ifs
    · rw [Buffer.set_self, floorDivI64_eq _ (by decide)]
    · rfl
  · rw [filterRow_eq x0 s (by omega) hi]
    unfold synthesizeLine
    rw [if_neg hw]

theorem onSlice_cell {width x : ℕ} (k y : ℕ) (f : Buffer ℤ → Buffer ℤ) (b : Buffer ℤ)
    (hx : x < width) : onSlice (k * width) width f b (y * width + x) =
      if y = k then f (fun i => b (k * width + i)) x else b (y * width + x) := by
  unfold onSlice
  by_cases hy : y = k
  · subst hy
    rw [if_pos ⟨by omega, by omega⟩, if_pos rfl, Nat.add_sub_cancel_left]
  · rw [if_neg hy, if_neg]
    intro ⟨h1, h2⟩
    have hd := cell_inj (u := y * width + x - k * width) hx (by omega) (y := y) (v := k)
      (by omega)
    exact hy hd.1

/-- Every row is replaced by its inverse. -/
theorem filterHorizontal_spec (rect : IntRect) (c : Buffer ℤ) {x y : ℕ} (hx : x < rect.width)
    (hy : y < rect.height) :
    filterHorizontal c rect (y * rect.width + x) =
      synthesizeLine rect.x0 rect.width (fun x => c (y * rect.width + x)) x := by
  have hrun := forRange_induction (n := rect.height) (s := c)
    (f := fun y coefficients => onSlice (y * rect.width) rect.width
      (fun scanline => filterRow scanline rect.width rect.x0) coefficients)
    (fun k t => ∀ y x, x < rect.width → t (y * rect.width + x) = if y < k then
      synthesizeLine rect.x0 rect.width (fun x => c (y * rect.width + x)) x
      else c (y * rect.width + x)) (fun _ _ _ => rfl) ?_
  · have h := hrun y x hx
    rwa [if_pos hy] at h
  · intro k hk t ht y x hx
    rw [onSlice_cell k y _ t hx]
    by_cases hyk : y = k
    · subst hyk
      rw [if_pos rfl, if_pos (Nat.lt_succ_self y), filterRow_line _ _ hx]
      refine synthesizeLine_congr _ hx fun j hj => ?_
      rw [ht y j hj, if_neg (Nat.lt_irrefl y)]
    · rw [if_neg hyk, ht y x hx]
      by_cases hlt : y < k
      · rw [if_pos hlt, if_pos (by omega)]
      · rw [if_neg hlt, if_neg (by omega)]

/-- One vertical step updates the rows of one parity from their neighbors. -/
theorem filterStepVertical_spec {height width first : ℕ} (f : ℤ → ℤ → ℤ → ℤ) (c : Buffer ℤ)
    (hh : 2 ≤ height) (hfirst : first < 2) {x y : ℕ} (hx : x < width) (hy : y < height) :
    filterStepVertical c height width first f (y * width + x) =
      if y % 2 = first then f (c (y * width + x)) (c (left y * width + x))
        (c (right height y * width + x)) else c (y * width + x) := by
  unfold filterStepVertical forStep2
  have hrun := forRange_induction (n := (height + 1 - first) / 2) (s := c)
    (f := fun k (scanline : Buffer ℤ) => forRange width (fun col scanline =>
      scanline.set ((first + 2 * k) * width + col) (f (scanline ((first + 2 * k) * width + col))
        (scanline (periodicSymmetricExtensionLeft (first + 2 * k) 1 * width + col))
        (scanline (periodicSymmetricExtensionRight (first + 2 * k) 1 height * width + col))))
      scanline)
    (fun k t => ∀ y x, x < width → t (y * width + x) =
      if y % 2 = first ∧ y < first + 2 * k then f (c (y * width + x)) (c (left y * width + x))
        (c (right height y * width + x)) else c (y * width + x)) ?_ ?_
  · have h := hrun y x hx
    dsimp only
    rw [h]
    by_cases hp : y % 2 = first
    · rw [if_pos ⟨hp, by omega⟩, if_pos hp]
    · rw [if_neg (fun h => hp h.1), if_neg hp]
  · intro y x hx
    rw [if_neg (by omega)]
  · intro k hk t ht y x hx
    have hrow : first + 2 * k < height := by omega
    rw [extensionLeft_eq, extensionRight_eq hrow]
    have hl : left (first + 2 * k) % 2 ≠ first := by
      unfold left
      split_ifs <;> omega
    have hr : right height (first + 2 * k) % 2 ≠ first := by
      unfold right
      split_ifs <;> omega
    have hinner := forRange_modify (n := width) (p := fun col => (first + 2 * k) * width + col)
      (v := fun col t => f (t ((first + 2 * k) * width + col))
        (t (left (first + 2 * k) * width + col))
        (t (right height (first + 2 * k) * width + col))) t
      (fun i _ j _ h => by omega) fun i hi u hu => by
        have hother (row : ℕ) (hne : row % 2 ≠ first) : u (row * width + i) = t (row * width + i) :=
          hu _ fun j hj hij h => by have := (cell_inj hi hj h).1; omega
        rw [hother _ hl, hother _ hr, hu _ fun j hj hij h => hij (by omega)]
    by_cases hyk : y = first + 2 * k
    · subst hyk
      have hw := hinner.written x hx
      rw [hw, if_pos ⟨by omega, by omega⟩, ht _ _ hx, ht _ _ hx, ht _ _ hx, if_neg (by omega),
        if_neg (fun h => hl h.1), if_neg (fun h => hr h.1)]
    · rw [hinner.kept _ fun j hj h => hyk (cell_inj hx hj h).1, ht _ _ hx]
      by_cases hp : y % 2 = first ∧ y < first + 2 * k
      · rw [if_pos hp, if_pos ⟨hp.1, by omega⟩]
      · rw [if_neg hp, if_neg (by omega)]

/-- Every column is replaced by its inverse. -/
theorem filterVertical_spec (rect : IntRect) (c : Buffer ℤ) {x y : ℕ} (hx : x < rect.width)
    (hy : y < rect.height) :
    filterVertical c rect (y * rect.width + x) =
      synthesizeLine rect.y0 rect.height (fun y => c (y * rect.width + x)) y := by
  unfold filterVertical
  by_cases hh : rect.height = 1
  · obtain rfl : y = 0 := by omega
    unfold synthesizeLine
    rw [if_pos hh, if_pos hh, Nat.zero_mul, Nat.zero_add]
    split_ifs
    · have hm := forRange_modify (n := rect.width) (p := fun i => i)
        (v := fun i t => floorDivI64 (t i) 2) c (fun _ _ _ _ h => h)
        fun i hi t ht => by rw [ht i fun k _ hne h => hne h.symm]
      have hw := hm.written x hx
      rw [hw, floorDivI64_eq _ (by decide)]
      simp only [Nat.zero_mul, Nat.zero_add]
    · simp only [Nat.zero_mul, Nat.zero_add]
  · unfold synthesizeLine
    rw [if_neg hh, if_neg hh]
    generalize hc₁ : filterStepVertical c rect.height rect.width (rect.y0 % 2) _ = c₁
    generalize hc₂ : filterStepVertical c₁ rect.height rect.width (1 - rect.y0 % 2) _ = c₂
    refine synthesize_of_steps (y := fun y => c₁ (y * rect.width + x))
      (z := fun y => c₂ (y * rect.width + x)) (by omega) (by omega) hy ?_ ?_
    · intro j hj
      rw [← hc₁]
      exact filterStepVertical_spec _ c (by omega) (by omega) hx hj
    · intro j hj
      rw [← hc₂]
      exact filterStepVertical_spec _ c₁ (by omega) (by omega) hx hj

/-! ## Interleaving -/

theorem interleaveRow_spec {firstW secondW : ℕ} (first second : Buffer ℤ) (start : ℕ)
    (output : Buffer ℤ) (hle : secondW ≤ firstW) (hle' : firstW ≤ secondW + 1) :
    (∀ x < firstW + secondW, interleaveRow first second firstW secondW start output (start + x) =
      if x % 2 = 0 then first (x / 2) else second (x / 2)) ∧
    ∀ j, j < start ∨ start + (firstW + secondW) ≤ j →
      interleaveRow first second firstW secondW start output j = output j := by
  have hmin : min firstW secondW = secondW := Nat.min_eq_right hle
  obtain ⟨hpairs, hkept⟩ := forRange_induction (n := secondW) (s := output)
    (f := fun i (output : Buffer ℤ) =>
      (output.set (start + i * 2) (first i)).set (start + (i * 2 + 1)) (second i))
    (fun k t => (∀ x < 2 * k, t (start + x) = if x % 2 = 0 then first (x / 2) else second (x / 2)) ∧
      ∀ j, j < start ∨ start + 2 * k ≤ j → t j = output j)
    ⟨fun _ h => by omega, fun _ _ => rfl⟩ (by
      intro k hk t ⟨hw, ho⟩
      refine ⟨fun x hx => ?_, fun j hj => ?_⟩
      · rcases Nat.lt_trichotomy x (k * 2) with h | h | h
        · rw [Buffer.set_of_ne _ _ (by omega), Buffer.set_of_ne _ _ (by omega)]
          exact hw x (by omega)
        · rw [Buffer.set_of_ne _ _ (by omega), h, Buffer.set_self, if_pos (by omega),
            show k * 2 / 2 = k by omega]
        · rw [show x = k * 2 + 1 by omega, Buffer.set_self, if_neg (by omega),
            show (k * 2 + 1) / 2 = k by omega]
      · rw [Buffer.set_of_ne _ _ (by omega), Buffer.set_of_ne _ _ (by omega)]
        exact ho j (by omega))
  unfold interleaveRow
  rw [hmin]
  generalize forRange secondW _ output = t at hpairs hkept ⊢
  by_cases hgt : firstW > secondW
  · rw [if_pos hgt]
    refine ⟨fun x hx => ?_, fun j hj => ?_⟩
    · by_cases hlast : x = secondW * 2
      · rw [hlast, Buffer.set_self, if_pos (by omega), show secondW * 2 / 2 = secondW by omega]
      · rw [Buffer.set_of_ne _ _ (by omega)]
        exact hpairs x (by omega)
    · rw [Buffer.set_of_ne _ _ (by omega)]
      exact hkept j (by omega)
  · rw [if_neg hgt]
    exact ⟨fun x hx => hpairs x (by omega), fun j hj => hkept j (by omega)⟩

/-- Rows of one parity receive two bands in alternation; other rows are kept. -/
theorem interleaveRows_spec {firstW secondW width : ℕ} (firstBand secondBand : Buffer ℤ)
    (output : Buffer ℤ) (height startRow numRows : ℕ) (hle : secondW ≤ firstW)
    (hle' : firstW ≤ secondW + 1) (hwidth : width = firstW + secondW) (y x : ℕ) (hx : x < width)
    (hy : y < height) (hrows : height ≤ startRow + 2 * numRows) :
    interleaveRows firstBand secondBand firstW secondW output width height startRow numRows
        (y * width + x) =
      if startRow ≤ y ∧ (y - startRow) % 2 = 0 then
        if x % 2 = 0 then firstBand ((y - startRow) / 2 * firstW + x / 2)
        else secondBand ((y - startRow) / 2 * secondW + x / 2)
      else output (y * width + x) := by
  have hrun := forRange_induction (n := numRows) (s := output)
    (f := fun v (output : Buffer ℤ) =>
      if startRow + v * 2 ≥ height then output
      else interleaveRow (fun i => firstBand (v * firstW + i))
        (fun i => secondBand (v * secondW + i)) firstW secondW ((startRow + v * 2) * width) output)
    (fun k t => ∀ y < height, ∀ x < width, t (y * width + x) =
      if startRow ≤ y ∧ (y - startRow) % 2 = 0 ∧ y < startRow + 2 * k then
        if x % 2 = 0 then firstBand ((y - startRow) / 2 * firstW + x / 2)
        else secondBand ((y - startRow) / 2 * secondW + x / 2)
      else output (y * width + x)) ?_ ?_
  · have h := hrun y hy x hx
    unfold interleaveRows
    rw [h]
    by_cases hp : startRow ≤ y ∧ (y - startRow) % 2 = 0
    · rw [if_pos ⟨hp.1, hp.2, by omega⟩, if_pos hp]
    · rw [if_neg (fun h => hp ⟨h.1, h.2.1⟩), if_neg hp]
  · intro y _ x _
    rw [if_neg (by omega)]
  · intro k hk t ht y hy x hx
    by_cases hbreak : startRow + k * 2 ≥ height
    · rw [if_pos hbreak, ht y hy x hx]
      by_cases hp : startRow ≤ y ∧ (y - startRow) % 2 = 0 ∧ y < startRow + 2 * k
      · rw [if_pos hp, if_pos (c := startRow ≤ y ∧ _) ⟨hp.1, hp.2.1, by omega⟩]
      · rw [if_neg hp, if_neg (by omega)]
    · rw [if_neg hbreak]
      obtain ⟨hrow, hother⟩ := interleaveRow_spec (fun i => firstBand (k * firstW + i))
        (fun i => secondBand (k * secondW + i)) ((startRow + k * 2) * width) t hle hle'
      by_cases hyk : y = startRow + k * 2
      · subst hyk
        rw [hrow x (by omega), if_pos (c := startRow ≤ _ ∧ _) ⟨by omega, by omega, by omega⟩,
          show (startRow + k * 2 - startRow) / 2 = k by omega]
      · rw [hother _ (by
          by_contra hin
          have := cell_inj (u := y * width + x - (startRow + k * 2) * width) hx (by omega)
            (y := y) (v := startRow + k * 2) (by omega)
          exact hyk this.1), ht y hy x hx]
        by_cases hp : startRow ≤ y ∧ (y - startRow) % 2 = 0 ∧ y < startRow + 2 * k
        · rw [if_pos hp, if_pos (c := startRow ≤ y ∧ _) ⟨hp.1, hp.2.1, by omega⟩]
        · rw [if_neg hp, if_neg (by omega)]

theorem divCeil_two (n : ℕ) : divCeil n 2 = n / 2 + n % 2 := by
  unfold divCeil
  omega

/-- The band that holds sample `(x, y)` of a level at the origin. -/
def bandSample (ll : Buffer ℤ) (d : Decomposition) (x y : ℕ) : ℤ :=
  let lowWidth := divCeil d.rect.x1 2
  let highWidth := d.rect.x1 / 2
  if y % 2 = 0 then
    if x % 2 = 0 then ll (y / 2 * lowWidth + x / 2) else d.hl (y / 2 * highWidth + x / 2)
  else
    if x % 2 = 0 then d.lh (y / 2 * lowWidth + x / 2) else d.hh (y / 2 * highWidth + x / 2)

/-- At the origin the interleaved plane alternates the four bands, whatever the
target held before. -/
theorem interleaveSamples_spec (ll target : Buffer ℤ) (d : Decomposition) {x y : ℕ}
    (hx0 : d.rect.x0 = 0) (hy0 : d.rect.y0 = 0) (hx : x < d.rect.x1) (hy : y < d.rect.y1) :
    interleaveSamples ll d target (y * d.rect.x1 + x) = bandSample ll d x y := by
  have hw : d.rect.width = d.rect.x1 := by
    unfold IntRect.width
    omega
  have hh : d.rect.height = d.rect.y1 := by
    unfold IntRect.height
    omega
  have h2 := divCeil_two d.rect.x1
  have h2' := divCeil_two d.rect.y1
  have hzero : divCeil 0 2 = 0 := rfl
  unfold interleaveSamples bandSample
  simp only [hx0, hy0, hw, hh, Nat.zero_mod, if_true, ne_eq, not_true_eq_false, if_false, hzero,
    Nat.zero_div, Nat.sub_zero]
  rw [interleaveRows_spec _ _ _ _ _ _ (by omega) (by omega) (by omega) y x hx hy (by omega),
    interleaveRows_spec _ _ _ _ _ _ (by omega) (by omega) (by omega) y x hx hy (by omega)]
  by_cases hp : y % 2 = 0
  · rw [if_neg (by omega), if_pos (by omega), if_pos hp, Nat.sub_zero]
  · rw [if_pos (by omega), if_neg hp, show (y - 1) / 2 = y / 2 by omega]

/-- A level at the origin: interleave, then invert rows, then columns. -/
theorem applyLevel_spec (ll target : Buffer ℤ) (d : Decomposition) {x y : ℕ}
    (hx0 : d.rect.x0 = 0) (hy0 : d.rect.y0 = 0) (hx : x < d.rect.x1) (hy : y < d.rect.y1) :
    applyLevel ll target d (y * d.rect.x1 + x) =
      synthesizeLine 0 d.rect.y1
        (fun y => synthesizeLine 0 d.rect.x1 (fun x => bandSample ll d x y) x) y := by
  have hw : d.rect.width = d.rect.x1 := by
    unfold IntRect.width
    omega
  have hh : d.rect.height = d.rect.y1 := by
    unfold IntRect.height
    omega
  unfold applyLevel
  rw [if_pos ⟨by omega, by omega⟩]
  have hv := filterVertical_spec d.rect
    (filterHorizontal (interleaveSamples ll d target) d.rect) (x := x) (y := y)
    (by omega) (by omega)
  rw [hw, hh, hy0] at hv
  rw [hv]
  refine synthesizeLine_congr 0 hy fun j hj => ?_
  have hz := filterHorizontal_spec d.rect (interleaveSamples ll d target) (x := x) (y := j)
    (by omega) (by omega)
  rw [hw, hx0] at hz
  rw [hz]
  exact synthesizeLine_congr 0 hx fun i hi => interleaveSamples_spec ll target d hx0 hy0 hi hj

end J2kNative.InverseDwt
