import J2kNative.RecordedRuns
import J2kNative.CountedLoops
import J2kNative.MqDecoder
import J2kNative.BitStuffing
import J2kNative.TileTree

/-!
# Coding passes of a classic code block

The arrays of the block have a margin of one cell on each side. The decoder goes over stripes of
four rows, column by column. Every change of the arrays is recorded together with the kind of pass
that makes it, so that a run can be spoken of in all of its states.
-/
namespace J2kNative.ClassicDecoder
open RecordedRuns CountedLoops MqStates MqDecoder BitStuffing
open TileTree (SubBandType)

/-! ## State -/

structure CodeBlockStyle where
  selectiveArithmeticCodingBypass : Bool
  resetContextProbabilities : Bool
  terminationOnEachPass : Bool
  verticallyCausalContext : Bool
  segmentationSymbols : Bool
  deriving DecidableEq, Repr

/-- The fields of `BitPlaneDecodeContext` that a job sets and no pass changes. -/
structure Job where
  width : ℕ
  height : ℕ
  bitplanes : ℕ
  maxCodingPasses : ℕ
  strict : Bool
  subBandType : SubBandType
  style : CodeBlockStyle
  deriving DecidableEq, Repr

/-- The fields of `BitPlaneDecodeContext` that the passes change. -/
structure BitPlaneDecodeContext where
  coefficientStates : Buffer ℕ
  significantScanMasks : Buffer ℕ
  zeroCodingScanMasks : Buffer ℕ
  neighborSignificances : Buffer ℕ
  coefficients : Buffer ℕ
  contexts : Buffer Context
  currentBitPosition : ℕ

def significanceBit : ℕ := 7

def magnitudeRefinementBit : ℕ := 6

def zeroCodingBit : ℕ := 5

/-- What is going on while the arrays are in a state. -/
inductive Phase where
  | cleanup
  | significancePropagation
  | magnitudeRefinement
  | betweenPasses
  deriving DecidableEq, Repr

structure Moment where
  phase : Phase
  ctx : BitPlaneDecodeContext

namespace Job
variable (job : Job)

def paddedWidth : ℕ := job.width + 2

/-- The place of a coefficient of the block in the arrays. -/
def cell (x y : ℕ) : ℕ := (y + 1) * job.paddedWidth + x + 1

def scanUnitMaskIndex (idx : ℕ) : ℕ × ℕ :=
  let row := idx / job.paddedWidth
  let col := idx - row * job.paddedWidth
  ((row - 1) / 4 * job.width + (col - 1),(row - 1) % 4)

def neighborInNextStripeY (y : ℕ) : Bool :=
  y + 1 < job.height ∧ (y + 1) / 4 > y / 4

def usesNormalArithmeticNeighborPath : Bool :=
  !job.style.selectiveArithmeticCodingBypass && !job.style.terminationOnEachPass &&
    !job.style.verticallyCausalContext

end Job

/-- Sets a bit of a cell. -/
def mark (b : Buffer ℕ) (idx bit : ℕ) : Buffer ℕ := b.set idx (b idx ||| 2 ^ bit)

def resetContexts : Buffer Context := fun label =>
  if label = 0 then 4 else if label = 17 then 3 else if label = 18 then 46 else 0

/-- The arrays behind `reset_for_job`. -/
def BitPlaneDecodeContext.reset : BitPlaneDecodeContext :=
  ⟨fun _ => 0,fun _ => 0,fun _ => 0,fun _ => 0,fun _ => 0,resetContexts,0⟩

namespace BitPlaneDecodeContext
variable (job : Job) (ctx : BitPlaneDecodeContext)

def isSignificant (idx : ℕ) : Bool := (ctx.coefficientStates idx).testBit significanceBit

def hasMagnitudeRefinement (idx : ℕ) : Bool :=
  (ctx.coefficientStates idx).testBit magnitudeRefinementBit

def hasZeroCoding (idx : ℕ) : Bool := (ctx.coefficientStates idx).testBit zeroCodingBit

def signIndex (idx : ℕ) : ℕ := (ctx.coefficients idx / 2 ^ 63) % 2

def setSignIndex (idx : ℕ) (sign : Bool) : BitPlaneDecodeContext :=
  { ctx with coefficients := ctx.coefficients.set idx (ctx.coefficients idx ||| sign.toNat <<< 63) }

def pushMagnitudeBitIndex (idx : ℕ) (bit : Bool) : BitPlaneDecodeContext :=
  { ctx with
    coefficients := ctx.coefficients.set idx
      (ctx.coefficients idx ||| bit.toNat <<< ctx.currentBitPosition) }

def setMagnitudeRefinement (idx : ℕ) : BitPlaneDecodeContext :=
  { ctx with coefficientStates := mark ctx.coefficientStates idx magnitudeRefinementBit }

def setZeroCodingIndex (idx : ℕ) : BitPlaneDecodeContext :=
  let unit := job.scanUnitMaskIndex idx
  { ctx with
    coefficientStates := mark ctx.coefficientStates idx zeroCodingBit
    zeroCodingScanMasks := mark ctx.zeroCodingScanMasks unit.1 unit.2 }

def setSignificantScanMask (idx : ℕ) : Buffer ℕ :=
  let unit := job.scanUnitMaskIndex idx
  mark ctx.significantScanMasks unit.1 unit.2

def setSignificantIndex (idx : ℕ) : BitPlaneDecodeContext :=
  let paddedWidth := job.paddedWidth
  if ctx.isSignificant idx then ctx
  else
    let n := ctx.neighborSignificances
    let n := mark n (idx - paddedWidth - 1) 1
    let n := mark n (idx - paddedWidth) 0
    let n := mark n (idx - paddedWidth + 1) 3
    let n := mark n (idx - 1) 2
    let n := mark n (idx + 1) 4
    let n := mark n (idx + paddedWidth - 1) 5
    let n := mark n (idx + paddedWidth) 6
    let n := mark n (idx + paddedWidth + 1) 7
    { ctx with
      coefficientStates := mark ctx.coefficientStates idx significanceBit
      significantScanMasks := ctx.setSignificantScanMask job idx
      neighborSignificances := n }

/-- The neighbors as three slices of three cells. -/
def setSignificantIndexNormal (idx : ℕ) : BitPlaneDecodeContext :=
  let paddedWidth := job.paddedWidth
  if ctx.isSignificant idx then ctx
  else
    let n := ctx.neighborSignificances
    let topStart := idx - paddedWidth - 1
    let n := mark n topStart 1
    let n := mark n (topStart + 1) 0
    let n := mark n (topStart + 2) 3
    let middleStart := idx - 1
    let n := mark n middleStart 2
    let n := mark n (middleStart + 2) 4
    let bottomStart := idx + paddedWidth - 1
    let n := mark n bottomStart 5
    let n := mark n (bottomStart + 1) 6
    let n := mark n (bottomStart + 2) 7
    { ctx with
      coefficientStates := mark ctx.coefficientStates idx significanceBit
      significantScanMasks := ctx.setSignificantScanMask job idx
      neighborSignificances := n }

def setSignificantIndexForPath (normalNeighbors : Bool) (idx : ℕ) : BitPlaneDecodeContext :=
  if normalNeighbors then ctx.setSignificantIndexNormal job idx
  else ctx.setSignificantIndex job idx

def normalNeighborhoodSignificanceStatesIndex (idx : ℕ) : ℕ := ctx.neighborSignificances idx

def neighborhoodSignificanceStatesIndex (idx y : ℕ) : ℕ :=
  if job.style.verticallyCausalContext && job.neighborInNextStripeY y then
    ctx.neighborSignificances idx &&& 0b11110100
  else ctx.neighborSignificances idx

def neighborhoodSignificanceStatesForPath (normalNeighbors : Bool) (idx y : ℕ) : ℕ :=
  if normalNeighbors then ctx.normalNeighborhoodSignificanceStatesIndex idx
  else ctx.neighborhoodSignificanceStatesIndex job idx y

/-- Whether an index is that of a coefficient of the block. -/
def inBlock (idx : ℕ) : Bool :=
  let row := idx / job.paddedWidth
  let col := idx - row * job.paddedWidth
  1 ≤ row ∧ row ≤ job.height ∧ 1 ≤ col ∧ col ≤ job.width

def resetForNextBitplane : BitPlaneDecodeContext :=
  { ctx with
    coefficientStates :=
      if job.style.selectiveArithmeticCodingBypass then
        fun idx => if inBlock job idx then ctx.coefficientStates idx &&& (2 ^ zeroCodingBit ^^^ 0xFF)
          else ctx.coefficientStates idx
      else ctx.coefficientStates
    zeroCodingScanMasks := fun _ => 0 }

end BitPlaneDecodeContext

/-! ## Context labels -/

def signContextLookup : List (ℕ × ℕ) :=
  [(9,0),(10,0),(10,1),(0,0),(12,0),(13,0),(11,0),(0,0),(12,1),(11,1),(13,1),(0,0),(0,0),(0,0),
   (0,0),(0,0),(12,0),(13,0),(11,0),(0,0),(12,0),(13,0),(11,0),(0,0),(9,0),(10,0),(10,1),(0,0),
   (0,0),(0,0),(0,0),(0,0),(12,1),(11,1),(13,1),(0,0),(9,0),(10,0),(10,1),(0,0),(12,1),(11,1),
   (13,1),(0,0),(0,0),(0,0),(0,0),(0,0),(0,0),(0,0),(0,0),(0,0),(0,0),(0,0),(0,0),(0,0),(0,0),
   (0,0),(0,0),(0,0),(0,0),(0,0),(0,0),(0,0),(10,0),(10,0),(9,0),(0,0),(13,0),(13,0),(12,0),(0,0),
   (11,1),(11,1),(12,1),(0,0),(0,0),(0,0),(0,0),(0,0),(13,0),(13,0),(12,0),(0,0),(13,0),(13,0),
   (12,0),(0,0),(10,0),(10,0),(9,0),(0,0),(0,0),(0,0),(0,0),(0,0),(11,1),(11,1),(12,1),(0,0),
   (10,0),(10,0),(9,0),(0,0),(11,1),(11,1),(12,1),(0,0),(0,0),(0,0),(0,0),(0,0),(0,0),(0,0),(0,0),
   (0,0),(0,0),(0,0),(0,0),(0,0),(0,0),(0,0),(0,0),(0,0),(0,0),(0,0),(0,0),(0,0),(10,1),(9,0),
   (10,1),(0,0),(11,0),(12,0),(11,0),(0,0),(13,1),(12,1),(13,1),(0,0),(0,0),(0,0),(0,0),(0,0),
   (11,0),(12,0),(11,0),(0,0),(11,0),(12,0),(11,0),(0,0),(10,1),(9,0),(10,1),(0,0),(0,0),(0,0),
   (0,0),(0,0),(13,1),(12,1),(13,1),(0,0),(10,1),(9,0),(10,1),(0,0),(13,1),(12,1),(13,1),(0,0),
   (0,0),(0,0),(0,0),(0,0),(0,0),(0,0),(0,0),(0,0),(0,0),(0,0),(0,0),(0,0),(0,0),(0,0),(0,0),
   (0,0),(0,0),(0,0),(0,0),(0,0),(0,0),(0,0),(0,0),(0,0),(0,0),(0,0),(0,0),(0,0),(0,0),(0,0),
   (0,0),(0,0),(0,0),(0,0),(0,0),(0,0),(0,0),(0,0),(0,0),(0,0),(0,0),(0,0),(0,0),(0,0),(0,0),
   (0,0),(0,0),(0,0),(0,0),(0,0),(0,0),(0,0),(0,0),(0,0),(0,0),(0,0),(0,0),(0,0),(0,0),(0,0),
   (0,0),(0,0),(0,0),(0,0),(0,0),(0,0),(0,0),(0,0),(0,0),(0,0),(0,0),(0,0),(0,0),(0,0),(0,0),
   (0,0),(0,0),(0,0),(0,0),(0,0),(0,0),(0,0),(0,0),(0,0)]

def zeroCtxLlLhLookup : List ℕ :=
  [0,3,1,3,5,7,6,7,1,3,2,3,6,7,6,7,5,7,6,7,8,8,8,8,6,7,6,7,8,8,8,8,1,3,2,3,6,7,6,7,2,3,2,3,6,7,6,
   7,6,7,6,7,8,8,8,8,6,7,6,7,8,8,8,8,3,4,3,4,7,7,7,7,3,4,3,4,7,7,7,7,7,7,7,7,8,8,8,8,7,7,7,7,8,8,
   8,8,3,4,3,4,7,7,7,7,3,4,3,4,7,7,7,7,7,7,7,7,8,8,8,8,7,7,7,7,8,8,8,8,1,3,2,3,6,7,6,7,2,3,2,3,6,
   7,6,7,6,7,6,7,8,8,8,8,6,7,6,7,8,8,8,8,2,3,2,3,6,7,6,7,2,3,2,3,6,7,6,7,6,7,6,7,8,8,8,8,6,7,6,7,
   8,8,8,8,3,4,3,4,7,7,7,7,3,4,3,4,7,7,7,7,7,7,7,7,8,8,8,8,7,7,7,7,8,8,8,8,3,4,3,4,7,7,7,7,3,4,3,
   4,7,7,7,7,7,7,7,7,8,8,8,8,7,7,7,7,8,8,8,8]

def zeroCtxHlLookup : List ℕ :=
  [0,5,1,6,3,7,3,7,1,6,2,6,3,7,3,7,3,7,3,7,4,7,4,7,3,7,3,7,4,7,4,7,1,6,2,6,3,7,3,7,2,6,2,6,3,7,3,
   7,3,7,3,7,4,7,4,7,3,7,3,7,4,7,4,7,5,8,6,8,7,8,7,8,6,8,6,8,7,8,7,8,7,8,7,8,7,8,7,8,7,8,7,8,7,8,
   7,8,6,8,6,8,7,8,7,8,6,8,6,8,7,8,7,8,7,8,7,8,7,8,7,8,7,8,7,8,7,8,7,8,1,6,2,6,3,7,3,7,2,6,2,6,3,
   7,3,7,3,7,3,7,4,7,4,7,3,7,3,7,4,7,4,7,2,6,2,6,3,7,3,7,2,6,2,6,3,7,3,7,3,7,3,7,4,7,4,7,3,7,3,7,
   4,7,4,7,6,8,6,8,7,8,7,8,6,8,6,8,7,8,7,8,7,8,7,8,7,8,7,8,7,8,7,8,7,8,7,8,6,8,6,8,7,8,7,8,6,8,6,
   8,7,8,7,8,7,8,7,8,7,8,7,8,7,8,7,8,7,8,7,8]

def zeroCtxHhLookup : List ℕ :=
  [0,1,3,4,1,2,4,5,3,4,6,7,4,5,7,7,1,2,4,5,2,2,5,5,4,5,7,7,5,5,7,7,3,4,6,7,4,5,7,7,6,7,8,8,7,7,8,
   8,4,5,7,7,5,5,7,7,7,7,8,8,7,7,8,8,1,2,4,5,2,2,5,5,4,5,7,7,5,5,7,7,2,2,5,5,2,2,5,5,5,5,7,7,5,5,
   7,7,4,5,7,7,5,5,7,7,7,7,8,8,7,7,8,8,5,5,7,7,5,5,7,7,7,7,8,8,7,7,8,8,3,4,6,7,4,5,7,7,6,7,8,8,7,
   7,8,8,4,5,7,7,5,5,7,7,7,7,8,8,7,7,8,8,6,7,8,8,7,7,8,8,8,8,8,8,8,8,8,8,7,7,8,8,7,7,8,8,8,8,8,8,
   8,8,8,8,4,5,7,7,5,5,7,7,7,7,8,8,7,7,8,8,5,5,7,7,5,5,7,7,7,7,8,8,7,7,8,8,7,7,8,8,7,7,8,8,8,8,8,
   8,8,8,8,8,7,7,8,8,7,7,8,8,8,8,8,8,8,8,8,8]

namespace BitPlaneDecodeContext
variable (job : Job) (ctx : BitPlaneDecodeContext)

/-- The signs of the cardinal neighbors, of two bits each: positive, negative or insignificant. -/
def signContext (significances topSign leftSign rightSign bottomSign : ℕ) : ℕ × ℕ :=
  let signs := topSign <<< 6 ||| leftSign <<< 4 ||| rightSign <<< 2 ||| bottomSign
  let negativeSignificances := significances &&& signs
  let positiveSignificances := significances &&& (signs ^^^ 0xFF)
  signContextLookup.getD ((negativeSignificances <<< 1) % 256 ||| positiveSignificances) (0,0)

def contextLabelSignCodingIndex (idx y : ℕ) : ℕ × ℕ :=
  signContext (ctx.neighborhoodSignificanceStatesIndex job idx y &&& 0b01010101)
    (ctx.signIndex (idx - job.paddedWidth)) (ctx.signIndex (idx - 1)) (ctx.signIndex (idx + 1))
    (if job.style.verticallyCausalContext && job.neighborInNextStripeY y then 0
      else ctx.signIndex (idx + job.paddedWidth))

def contextLabelSignCodingIndexNormal (idx : ℕ) : ℕ × ℕ :=
  signContext (ctx.normalNeighborhoodSignificanceStatesIndex idx &&& 0b01010101)
    (ctx.signIndex (idx - job.paddedWidth)) (ctx.signIndex (idx - 1)) (ctx.signIndex (idx + 1))
    (ctx.signIndex (idx + job.paddedWidth))

def contextLabelSignCodingIndexWithNeighbors (normalNeighbors : Bool) (idx y : ℕ) : ℕ × ℕ :=
  if normalNeighbors then ctx.contextLabelSignCodingIndexNormal job idx
  else ctx.contextLabelSignCodingIndex job idx y

def contextLabelMagnitudeRefinementCoding (normalNeighbors : Bool) (idx y : ℕ) : ℕ :=
  if ctx.hasMagnitudeRefinement idx then 16
  else 14 + min (ctx.neighborhoodSignificanceStatesForPath job normalNeighbors idx y) 1

end BitPlaneDecodeContext

def contextLabelZeroCodingFromNeighbors (neighbors : ℕ) : SubBandType → ℕ
  | .lowLow | .lowHigh => zeroCtxLlLhLookup.getD neighbors 0
  | .highLow => zeroCtxHlLookup.getD neighbors 0
  | .highHigh => zeroCtxHhLookup.getD neighbors 0

/-! ## Bits -/

/-- A change of the arrays. -/
def edit {δ : Type} (f : BitPlaneDecodeContext → BitPlaneDecodeContext) : Rec Moment δ Unit :=
  update fun m => { m with ctx := f m.ctx }

def enter {δ : Type} (phase : Phase) : Rec Moment δ Unit := update fun m => { m with phase }

/-- `ArithmeticDecoder::read_bit`, with the context of a label. -/
def readBitArithmetic (label : ℕ) : Rec Moment ArithmeticDecoder Bool := do
  let m ← current
  let (bit,context) ← consume fun d =>
    let (bit,d,context) := d.decode (m.ctx.contexts label)
    (some (bit,context),d)
  edit fun ctx => { ctx with contexts := ctx.contexts.set label context }
  return bit != 0

/-- A raw bit and the reader behind it, which has moved also where the stuffing is malformed. -/
def readRawBit (strict : Bool) (r : BitStuffing.BitReader) : Option Bool × BitStuffing.BitReader :=
  match r.readBit with
  | none => (some true,r)
  | some (bit,r') =>
      if r.needsToReadStuffBit then
        match r'.readBit with
        | none => (if strict then none else some true,r')
        | some (stuffBit,r'') =>
            if stuffBit then (if strict then none else some true,r'') else (some bit,r'')
      else (some bit,r')

/-- `BypassDecoder::read_bit`, which does not look at the context. -/
def readBitBypass (strict : Bool) (_label : ℕ) : Rec Moment BitStuffing.BitReader Bool :=
  consume (readRawBit strict)

section
variable {δ : Type} (job : Job) (normalNeighbors : Bool) (readBit : ℕ → Rec Moment δ Bool)

/-- The sign of a coefficient; a raw one is not told from the neighbors. -/
def decodeSignBit (raw : Bool) (idx y : ℕ) : Rec Moment δ Unit := do
  let m ← current
  let label := m.ctx.contextLabelSignCodingIndexWithNeighbors job normalNeighbors idx y
  let bit ← readBit label.1
  edit fun ctx => ctx.setSignIndex idx (if raw then bit else bit ^^ label.2 != 0)

/-- A coefficient that turned out significant. -/
def becomeSignificant (raw : Bool) (idx y : ℕ) : Rec Moment δ Unit := do
  decodeSignBit job normalNeighbors readBit raw idx y
  edit fun ctx => ctx.setSignificantIndexForPath job normalNeighbors idx

/-! ## Significance propagation -/

def propagateCoefficient (raw : Bool) (x y : ℕ) : Rec Moment δ Unit := do
  let idx := job.cell x y
  let m ← current
  let neighbors := m.ctx.neighborhoodSignificanceStatesForPath job normalNeighbors idx y
  if !m.ctx.isSignificant idx && neighbors != 0 then do
    let bit ← readBit (contextLabelZeroCodingFromNeighbors neighbors job.subBandType)
    edit fun ctx => ctx.pushMagnitudeBitIndex idx bit
    edit fun ctx => ctx.setZeroCodingIndex job idx
    if bit then becomeSignificant job normalNeighbors readBit raw idx y else pure ()
  else pure ()

def stripeHeight (stripe : ℕ) : ℕ := min (4 * stripe + 4) job.height - 4 * stripe

/-- The columns of all stripes, `(0..height).step_by(4)` and `0..width`. -/
def forColumns (column : ℕ → ℕ → Rec Moment δ Unit) : Rec Moment δ Unit :=
  (List.range ((job.height + 3) / 4)).forM fun stripe =>
    (List.range job.width).forM fun x => column stripe x

def significancePropagationPass (raw : Bool) : Rec Moment δ Unit :=
  forColumns job fun stripe x =>
    (List.range (stripeHeight job stripe)).forM fun bitY =>
      propagateCoefficient job normalNeighbors readBit raw x (4 * stripe + bitY)

/-! ## Magnitude refinement -/

/-- The bits of a mask, by `trailing_zeros`. -/
def maskBits (mask : ℕ) : List ℕ := (List.range 8).filter mask.testBit

def refineCoefficient (x y : ℕ) : Rec Moment δ Unit := do
  let idx := job.cell x y
  let m ← current
  let bit ← readBit (m.ctx.contextLabelMagnitudeRefinementCoding job normalNeighbors idx y)
  edit fun ctx => ctx.pushMagnitudeBitIndex idx bit
  edit fun ctx => ctx.setMagnitudeRefinement idx

def magnitudeRefinementPass : Rec Moment δ Unit :=
  forColumns job fun stripe x => do
    let m ← current
    let scanUnit := stripe * job.width + x
    let mask := m.ctx.significantScanMasks scanUnit &&&
      (m.ctx.zeroCodingScanMasks scanUnit ^^^ 0xFF)
    (maskBits mask).forM fun bitY =>
      if bitY ≥ stripeHeight job stripe then pure ()
      else refineCoefficient job normalNeighbors readBit x (4 * stripe + bitY)

/-! ## Clean-up -/

def scanUnitValidMask (stripeHeight : ℕ) : ℕ := 2 ^ stripeHeight - 1

def cleanupCandidateScanMask (ctx : BitPlaneDecodeContext) (scanUnit stripeHeight : ℕ) : ℕ :=
  scanUnitValidMask stripeHeight &&&
    ((ctx.significantScanMasks scanUnit ||| ctx.zeroCodingScanMasks scanUnit) ^^^ 0xFF)

def cleanupRunLengthCandidate (ctx : BitPlaneDecodeContext) (x baseY : ℕ) : Bool :=
  (List.range 4).all fun bitY =>
    !(ctx.isSignificant (job.cell x (baseY + bitY)) || ctx.hasZeroCoding (job.cell x (baseY + bitY)) ||
      ctx.neighborhoodSignificanceStatesForPath job normalNeighbors (job.cell x (baseY + bitY))
        (baseY + bitY) != 0)

/-- A coefficient that is coded in the clean-up. -/
def cleanupCoefficient (raw : Bool) (x y : ℕ) : Rec Moment δ Unit := do
  let idx := job.cell x y
  let m ← current
  let neighbors := m.ctx.neighborhoodSignificanceStatesForPath job normalNeighbors idx y
  let bit ← readBit (contextLabelZeroCodingFromNeighbors neighbors job.subBandType)
  edit fun ctx => ctx.pushMagnitudeBitIndex idx bit
  if bit then becomeSignificant job normalNeighbors readBit raw idx y else pure ()

/-- Four coefficients that start with a run; `rest` cleans up the ones behind it. -/
def cleanupRunLength (raw : Bool) (rest : ℕ → Rec Moment δ Unit) (x baseY : ℕ) :
    Rec Moment δ Unit := do
  let bit ← readBit 17
  if bit then do
    let high ← readBit 18
    let low ← readBit 18
    let firstSignificant := 2 * high.toNat + low.toNat
    let significantY := baseY + firstSignificant
    edit fun ctx => ctx.pushMagnitudeBitIndex (job.cell x significantY) true
    becomeSignificant job normalNeighbors readBit raw (job.cell x significantY) significantY
    (List.range' (firstSignificant + 1) (3 - firstSignificant)).forM fun bitY => rest (baseY + bitY)
  else pure ()

end

def cleanupPassArithmetic (job : Job) (normalNeighbors : Bool) : Rec Moment ArithmeticDecoder Unit :=
  forColumns job fun stripe x => do
    let m ← current
    let candidateMask :=
      cleanupCandidateScanMask m.ctx (stripe * job.width + x) (stripeHeight job stripe)
    if candidateMask = scanUnitValidMask (stripeHeight job stripe) ∧ stripeHeight job stripe = 4 ∧
        cleanupRunLengthCandidate job normalNeighbors m.ctx x (4 * stripe) then
      cleanupRunLength job normalNeighbors readBitArithmetic false
        (cleanupCoefficient job normalNeighbors readBitArithmetic false x) x (4 * stripe)
    else
      (maskBits candidateMask).forM fun bitY =>
        cleanupCoefficient job normalNeighbors readBitArithmetic false x (4 * stripe + bitY)

/-- Whether the raw clean-up codes a coefficient. -/
def rawCleanupCandidate (ctx : BitPlaneDecodeContext) (idx : ℕ) : Bool :=
  !(ctx.isSignificant idx || ctx.hasZeroCoding idx)

def cleanupCoefficientBypass (job : Job) (x y : ℕ) : Rec Moment BitStuffing.BitReader Unit := do
  let m ← current
  if rawCleanupCandidate m.ctx (job.cell x y) then
    cleanupCoefficient job false (readBitBypass job.strict) true x y
  else pure ()

def cleanupPassBypass (job : Job) : Rec Moment BitStuffing.BitReader Unit :=
  forColumns job fun stripe x => do
    let m ← current
    if stripeHeight job stripe = 4 ∧ cleanupRunLengthCandidate job false m.ctx x (4 * stripe) then
      cleanupRunLength job false (readBitBypass job.strict) true (cleanupCoefficientBypass job x) x
        (4 * stripe)
    else
      (List.range (stripeHeight job stripe)).forM fun bitY =>
        cleanupCoefficientBypass job x (4 * stripe + bitY)

/-! ## Schedule -/

section
variable {δ : Type} (job : Job)

def checkSegmentationSymbol (readBit : ℕ → Rec Moment δ Bool) : Rec Moment δ Unit :=
  if job.style.segmentationSymbols then do
    let b0 ← readBit 18
    let b1 ← readBit 18
    let b2 ← readBit 18
    let b3 ← readBit 18
    if (!b0 || b1 || !b2 || b3) && job.strict then giveUp else pure ()
  else pure ()

/-- The pass of a number: a bit plane ends with its clean-up. -/
def passOfNumber (readBit : ℕ → Rec Moment δ Bool)
    (cleanup significancePropagation magnitudeRefinement : Rec Moment δ Unit) (pass : ℕ) :
    Rec Moment δ Unit :=
  if pass % 3 = 0 then do
    enter .cleanup
    cleanup
    checkSegmentationSymbol job readBit
    enter .betweenPasses
    edit fun ctx => ctx.resetForNextBitplane job
  else if pass % 3 = 1 then do
    enter .significancePropagation
    significancePropagation
    enter .betweenPasses
  else do
    enter .magnitudeRefinement
    magnitudeRefinement
    enter .betweenPasses

/-- One turn of the loops over the coding passes, with the passes for the kind of source. -/
def codingPass (readBit : ℕ → Rec Moment δ Bool)
    (cleanup significancePropagation magnitudeRefinement : Rec Moment δ Unit) (pass : ℕ) :
    Rec Moment δ Unit := do
  edit fun ctx => { ctx with currentBitPosition := job.bitplanes - 1 - (pass + 2) / 3 }
  passOfNumber job readBit cleanup significancePropagation magnitudeRefinement pass
  if job.style.resetContextProbabilities then edit fun ctx => { ctx with contexts := resetContexts }
  else pure ()

end

def handleArithmeticCodingPassesWithNeighbors (job : Job) (normalNeighbors : Bool) (start stop : ℕ) :
    Rec Moment ArithmeticDecoder Unit :=
  (List.range' start (stop - start)).forM <| codingPass job readBitArithmetic
    (cleanupPassArithmetic job normalNeighbors)
    (significancePropagationPass job normalNeighbors readBitArithmetic false)
    (magnitudeRefinementPass job normalNeighbors readBitArithmetic)

def handleBypassCodingPasses (job : Job) (start stop : ℕ) : Rec Moment BitStuffing.BitReader Unit :=
  (List.range' start (stop - start)).forM <| codingPass job (readBitBypass job.strict)
    (cleanupPassBypass job)
    (significancePropagationPass job false (readBitBypass job.strict) true)
    (magnitudeRefinementPass job false (readBitBypass job.strict))

/-- A segment and its data. -/
structure CodeBlockSegment where
  data : List ℕ
  startCodingPass : ℕ
  endCodingPass : ℕ
  useArithmetic : Bool
  deriving DecidableEq, Repr

/-- The passes of a segment, by the path that the style allows. -/
def decodeSegment (job : Job) (segment : CodeBlockSegment) : Rec Moment Unit Unit :=
  let stop := min segment.endCodingPass job.maxCodingPasses
  if segment.useArithmetic then
    withSource (ArithmeticDecoder.new segment.data)
      (handleArithmeticCodingPassesWithNeighbors job job.usesNormalArithmeticNeighborPath
        segment.startCodingPass stop)
  else
    withSource (⟨segment.data,0⟩ : BitStuffing.BitReader)
      (handleBypassCodingPasses job segment.startCodingPass stop)

/-- `decode_code_block_segments_inner`, over the data that the segments are cut from. -/
def decodeCodeBlockSegments (job : Job) :
    List CodeBlockSegment → ℕ → ℕ → Rec Moment Unit Unit
  | [], expectedStart, numberOfCodingPasses =>
      if expectedStart ≠ numberOfCodingPasses then giveUp else pure ()
  | segment :: segments, expectedStart, numberOfCodingPasses =>
      if segment.startCodingPass ≠ expectedStart ∨
          segment.startCodingPass > segment.endCodingPass then giveUp
      else do
        decodeSegment job segment
        decodeCodeBlockSegments job segments segment.endCodingPass numberOfCodingPasses

/-- The segments of a code block, from the data and the number of passes of each. -/
def scheduledSegments (style : CodeBlockStyle) : ℕ → List (List ℕ × ℕ) → List CodeBlockSegment
  | _, [] => []
  | start, (data,codingPasses) :: segments =>
      ⟨data,start,start + codingPasses,
          if style.selectiveArithmeticCodingBypass then start ≤ 9 || start % 3 = 0 else true⟩ ::
        scheduledSegments style (start + codingPasses) segments

/-- `decode_inner`, behind its collecting the segments from the layers. -/
def decodeInner (job : Job) (segments : List (List ℕ × ℕ)) (numberOfCodingPasses : ℕ) :
    Rec Moment Unit Unit :=
  if (segments.map Prod.snd).sum ≠ numberOfCodingPasses then giveUp
  else if !job.style.selectiveArithmeticCodingBypass && !job.style.terminationOnEachPass then
    decodeSegment job ⟨segments.flatMap Prod.fst,0,numberOfCodingPasses,true⟩
  else (scheduledSegments job.style 0 segments).forM (decodeSegment job)

/-- The run from the state that `reset_for_job` leaves. -/
def startOfRun : Run Moment Unit :=
  ⟨⟨.betweenPasses,.reset⟩,(),[⟨.betweenPasses,.reset⟩]⟩

end J2kNative.ClassicDecoder
