import J2kNative.ForwardDwt
import J2kNative.InterruptibleRuns

/-!
# From JPEG blocks to wavelet coefficients

Two ways of the transcoder from the blocks of a component to its reversible 5/3
coefficients. The reference path decodes the whole plane and transforms it in place.
The direct path never holds the plane: a row of the first level asks for vertically
lifted samples one by one, each from the inverse transforms of the blocks it touches,
which are kept once computed; the rest of the levels work on its low-pass band.

The inverse block transform is a parameter, as is the content of a block. Coefficients
are integers: sums within `i32` are not checked. The accelerator, which may take over the
first level, and the reservation of memory are left out.
-/
namespace J2kNative.DirectWavelet
open CountedLoops ForwardDwt Interruptible

inductive JpegToHtj2kError where
  | validation (what : String)
  deriving DecidableEq, Repr

/-- The coefficients of a block in row-major order. -/
abbrev DctBlock := ℕ → ℤ

structure JpegDctComponent where
  width : ℕ
  height : ℕ
  blockCols : ℕ
  blockRows : ℕ
  dequantizedBlocks : List DctBlock

/-! ## Lifting -/

def floorDivI32 (numerator denominator : ℤ) : ℤ := numerator / denominator

/-- `reversible_lift_53_i32` on a line of `n` samples. -/
def reversibleLift53 (n : ℕ) (values : Buffer ℤ) : Buffer ℤ :=
  if n < 2 then values
  else if n % 2 = 0 then
    let values := forStep2 1 (n - 1) (fun i values =>
      values.set i (values i - floorDivI32 (values (i - 1) + values (i + 1)) 2)) values
    let values := values.set (n - 1) (values (n - 1) - values (n - 2))
    let values := values.set 0 (values 0 + floorDivI32 (values 1 + 1) 2)
    forStep2 2 n (fun i values =>
      values.set i (values i + floorDivI32 (values (i - 1) + values (i + 1) + 2) 4)) values
  else
    let lastEven := n - 1
    let values := forStep2 1 n (fun i values =>
      let right := if i + 1 < n then values (i + 1) else values lastEven
      values.set i (values i - floorDivI32 (values (i - 1) + right) 2)) values
    forStep2 0 n (fun i values =>
      let left := if i > 0 then values (i - 1) else values 1
      let right := if i + 1 < n then values (i + 1) else left
      values.set i (values i + floorDivI32 (left + right + 2) 4)) values

section
variable {ε σ : Type}

/-- `reversible_lift_53_high_at_with`. -/
def reversibleLift53HighAt (sampleLen highIdx : ℕ) (sample : ℕ → Interruptible ε σ ℤ) :
    Interruptible ε σ ℤ := do
  let oddIdx := highIdx * 2 + 1
  let current ← sample oddIdx
  let left ← sample (oddIdx - 1)
  if sampleLen % 2 = 0 ∧ oddIdx + 1 = sampleLen then pure (current - left)
  else do
    let rightIdx := if oddIdx + 1 < sampleLen then oddIdx + 1 else sampleLen - 1
    let right ← sample rightIdx
    pure (current - floorDivI32 (left + right) 2)

/-- `reversible_lift_53_low_at_with`. -/
def reversibleLift53LowAt (sampleLen lowIdx : ℕ) (sample : ℕ → Interruptible ε σ ℤ) :
    Interruptible ε σ ℤ := do
  let evenIdx := lowIdx * 2
  let current ← sample evenIdx
  if sampleLen < 2 then pure current
  else if sampleLen % 2 = 0 then do
    let right ← reversibleLift53HighAt sampleLen lowIdx sample
    if lowIdx = 0 then pure (current + floorDivI32 (right + 1) 2)
    else do
      let left ← reversibleLift53HighAt sampleLen (lowIdx - 1) sample
      pure (current + floorDivI32 (left + right + 2) 4)
  else
    let highLen := sampleLen / 2
    if highLen = 0 then pure current
    else do
      let left ← (if lowIdx > 0 then reversibleLift53HighAt sampleLen (lowIdx - 1) sample
        else reversibleLift53HighAt sampleLen 0 sample)
      let right ← (if lowIdx < highLen then reversibleLift53HighAt sampleLen lowIdx sample
        else pure left)
      pure (current + floorDivI32 (left + right + 2) 4)

end

/-! ## Planes -/

structure IntegerWaveletLevel where
  width : ℕ
  height : ℕ
  lowWidth : ℕ
  lowHeight : ℕ
  highWidth : ℕ
  highHeight : ℕ
  hl : List ℤ
  lh : List ℤ
  hh : List ℤ
  deriving DecidableEq, Repr

structure IntegerWavelet where
  finalLl : List ℤ
  finalLlWidth : ℕ
  finalLlHeight : ℕ
  levels : List IntegerWaveletLevel
  deriving DecidableEq, Repr

/-- The samples of a plane row by row. -/
def planeList (f : ℕ → ℕ → ℤ) (width height : ℕ) : List ℤ :=
  (List.range height).flatMap fun y => (List.range width).map fun x => f x y

/-- A vector as a buffer. -/
def toBuffer (l : List ℤ) : Buffer ℤ := fun i => l.getD i 0

/-- The level loop of `reversible_dwt53_i32`: columns, rows, then the bands are copied out. -/
def dwtLevels (width : ℕ) : ℕ → ℕ → ℕ → Buffer ℤ → IntegerWavelet
  | 0, currentWidth, currentHeight, buffer =>
      ⟨planeList (fun x y => buffer (y * width + x)) currentWidth currentHeight, currentWidth,
        currentHeight, []⟩
  | levels + 1, currentWidth, currentHeight, buffer =>
      let buffer := transformColumns reversibleLift53 width currentWidth currentHeight buffer
      let buffer := transformRows reversibleLift53 width currentWidth currentHeight buffer
      let lowWidth := lowExtent currentWidth
      let lowHeight := lowExtent currentHeight
      let highWidth := currentWidth / 2
      let highHeight := currentHeight / 2
      let level : IntegerWaveletLevel :=
        { width := currentWidth
          height := currentHeight
          lowWidth, lowHeight, highWidth, highHeight
          hl := planeList (fun x y => buffer (y * width + (lowWidth + x))) highWidth lowHeight
          lh := planeList (fun x y => buffer ((lowHeight + y) * width + x)) lowWidth highHeight
          hh := planeList (fun x y => buffer ((lowHeight + y) * width + (lowWidth + x)))
            highWidth highHeight }
      let rest := dwtLevels width levels lowWidth lowHeight buffer
      { rest with levels := level :: rest.levels }

/-- `reversible_dwt53_i32`. -/
def reversibleDwt53 (buffer : List ℤ) (width height decompositionLevels : ℕ) :
    Except JpegToHtj2kError IntegerWavelet :=
  if buffer.length ≠ width * height then
    .error (.validation "integer DWT sample count does not match dimensions")
  else .ok (dwtLevels width decompositionLevels width height (toBuffer buffer))

/-- `flatten_integer_wavelet`: the lowest resolution first. -/
def flattenIntegerWavelet (wavelet : IntegerWavelet) : List ℤ :=
  wavelet.finalLl ++
    wavelet.levels.reverse.flatMap fun level => level.hl ++ level.lh ++ level.hh

/-- `validate_component_block_grid`. -/
def validateComponentBlockGrid (component : JpegDctComponent) : Except JpegToHtj2kError Unit :=
  if component.dequantizedBlocks.length ≠ component.blockCols * component.blockRows then
    .error (.validation "component block count does not match block grid")
  else .ok ()

section
variable (idctIslowBlock : DctBlock → ℕ → Fin 256)

/-- The samples of a block, shifted to the signed range. -/
def blockSamples (block : DctBlock) (localIdx : ℕ) : ℤ := (idctIslowBlock block localIdx : ℕ) - 128

/-! ## Reference path -/

/-- One block of `idct_component_samples_i32`. -/
def storeBlock (component : JpegDctComponent) (blockX blockY : ℕ) (block : DctBlock)
    (samples : Buffer ℤ) : Buffer ℤ :=
  forRange 8 (fun localY samples =>
    let y := blockY * 8 + localY
    if y ≥ component.height then samples
    else forRange 8 (fun localX samples =>
      let x := blockX * 8 + localX
      if x ≥ component.width then samples
      else samples.set (y * component.width + x)
        (blockSamples idctIslowBlock block (localY * 8 + localX))) samples) samples

/-- `idct_component_samples_i32`. -/
def idctComponentSamples (component : JpegDctComponent) :
    Except JpegToHtj2kError (List ℤ) := do
  validateComponentBlockGrid component
  let samples : Buffer ℤ := forRange component.blockRows (fun blockY samples =>
    forRange component.blockCols (fun blockX samples =>
      match component.dequantizedBlocks[blockY * component.blockCols + blockX]? with
      | none => samples
      | some block => storeBlock idctIslowBlock component blockX blockY block samples) samples)
    (fun _ => 0)
  .ok ((List.range (component.width * component.height)).map samples)

/-- The wavelet of `integer_reference_coefficients`. -/
def integerReferenceWavelet (component : JpegDctComponent) (decompositionLevels : ℕ) :
    Except JpegToHtj2kError IntegerWavelet := do
  let samples ← idctComponentSamples idctIslowBlock component
  reversibleDwt53 samples component.width component.height decompositionLevels

/-- `integer_reference_coefficients`. -/
def integerReferenceCoefficients (component : JpegDctComponent) (decompositionLevels : ℕ) :
    Except JpegToHtj2kError (List ℤ) := do
  let wavelet ← integerReferenceWavelet idctIslowBlock component decompositionLevels
  .ok (flattenIntegerWavelet wavelet)

/-! ## Direct path -/

/-- The decoded blocks at hand, `none` where a block has not been asked for. -/
abbrev IdctBlocks := List (Option (ℕ → ℤ))

abbrev Direct := Interruptible JpegToHtj2kError IdctBlocks

/-- `get_or_insert_with`: the samples of a block, decoded when first asked for. -/
def cachedBlock (blockIdx : ℕ) (block : DctBlock) : Direct (ℕ → ℤ) := fun idctBlocks =>
  match idctBlocks[blockIdx]? with
  | none => (.error (.validation "integer IDCT cache does not cover requested block"), idctBlocks)
  | some (some samples) => (.ok samples, idctBlocks)
  | some none =>
      (.ok (blockSamples idctIslowBlock block),
        idctBlocks.set blockIdx (some (blockSamples idctIslowBlock block)))

/-- `component_sample_i32`. -/
def componentSample (component : JpegDctComponent) (x y : ℕ) : Direct ℤ :=
  if x ≥ component.width ∨ y ≥ component.height then
    fail (.validation "component sample coordinate exceeds dimensions")
  else
    let blockIdx := y / 8 * component.blockCols + x / 8
    match component.dequantizedBlocks[blockIdx]? with
    | none => fail (.validation "component block grid does not cover requested sample")
    | some block => do
        let blockSamples ← cachedBlock idctIslowBlock blockIdx block
        let localIdx := y % 8 * 8 + x % 8
        pure (blockSamples localIdx)

/-- `vertical_53_i32_at`. -/
def vertical53At (component : JpegDctComponent) (x outputY : ℕ) (lowPass : Bool) : Direct ℤ :=
  if lowPass then reversibleLift53LowAt component.height outputY
    (componentSample idctIslowBlock component x)
  else reversibleLift53HighAt component.height outputY
    (componentSample idctIslowBlock component x)

/-- The even and the odd samples of a lifted row. -/
def liftedRow (width : ℕ) (row : List ℤ) : List ℤ × List ℤ :=
  let lifted := reversibleLift53 width (toBuffer row)
  ((List.range (lowExtent width)).map fun i => lifted (i * 2),
    (List.range (width / 2)).map fun i => lifted (i * 2 + 1))

/-- The loop over the vertically low-pass or high-pass rows. -/
def directRows (component : JpegDctComponent) (lowPass : Bool) (rows : ℕ) :
    Direct (List ℤ × List ℤ) := do
  let lifted ← (List.range rows).mapM fun outputY => do
    let row ← (List.range component.width).mapM fun x =>
      vertical53At idctIslowBlock component x outputY lowPass
    pure (liftedRow component.width row)
  pure (lifted.flatMap Prod.fst, lifted.flatMap Prod.snd)

/-- `integer_direct_first_level_from_component`, with the low-pass band apart. -/
def integerDirectFirstLevel (component : JpegDctComponent) :
    Direct (List ℤ × IntegerWaveletLevel) := do
  let (ll, hl) ← directRows idctIslowBlock component true (lowExtent component.height)
  let (lh, hh) ← directRows idctIslowBlock component false (component.height / 2)
  pure (ll,
    { width := component.width
      height := component.height
      lowWidth := lowExtent component.width
      lowHeight := lowExtent component.height
      highWidth := component.width / 2
      highHeight := component.height / 2
      hl, lh, hh })

/-- `integer_wavelet_from_first_parts`. -/
def integerWaveletFromFirstParts (finalLl : List ℤ) (firstLevel : IntegerWaveletLevel)
    (decompositionLevels : ℕ) : Except JpegToHtj2kError IntegerWavelet := do
  let remainingLevels := decompositionLevels - 1
  if remainingLevels > 0 then
    let tail ← reversibleDwt53 finalLl firstLevel.lowWidth firstLevel.lowHeight remainingLevels
    .ok { tail with levels := firstLevel :: tail.levels }
  else .ok ⟨finalLl, firstLevel.lowWidth, firstLevel.lowHeight, [firstLevel]⟩

/-- `integer_direct_wavelet_from_component` without an accelerator. -/
def integerDirectWavelet (component : JpegDctComponent) (decompositionLevels : ℕ) :
    Except JpegToHtj2kError IntegerWavelet := do
  validateComponentBlockGrid component
  let idctBlocks := List.replicate component.dequantizedBlocks.length none
  let (finalLl, firstLevel) ← (integerDirectFirstLevel idctIslowBlock component idctBlocks).1
  integerWaveletFromFirstParts finalLl firstLevel decompositionLevels

end

end J2kNative.DirectWavelet
