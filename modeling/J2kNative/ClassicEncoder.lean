import J2kNative.SymbolChannels
import J2kNative.ClassicPasses
import J2kNative.PayloadPlan
import J2kNative.ClassicSegments
import Mathlib.Data.Nat.Size

/-!
# The classic block encoder

The encoder keeps its magnitudes, states and neighbors in arrays with a margin of one cell, and goes
over stripes of four rows as the decoder does. Nothing that a coding pass does depends on the coder
behind it, so a pass is a sender of decisions, which the coder of the segment then takes in their
order. Coders refuse bytes beyond the payload that is planned for the block. Allocation does not
fail here, and distortions are left out.
-/
namespace J2kNative.ClassicEncoder
open SymbolChannels CountedLoops MqStates PayloadPlan Fallible
open TileTree (SubBandType)
open ClassicDecoder (CodeBlockStyle mark)

/-- What a pass hands to its coder: a bit under a context label, or a raw one. The schedule sets
the contexts back in between. -/
inductive Decision where
  | symbol (label : ℕ) (bit : Bool)
  | raw (bit : Bool)
  | resetContexts
  deriving DecidableEq, Repr

/-- A block of coefficients with what the encoder is asked to do with it. -/
structure CodeBlock where
  width : ℕ
  height : ℕ
  coefficient : ℕ → ℕ → ℤ
  subBandType : SubBandType
  style : CodeBlockStyle

/-- The arrays that the passes change. -/
structure Arrays where
  states : Buffer ℕ
  neighbors : Buffer ℕ
  codedIndices : List ℕ

/-! ## States of a coefficient -/

def significantBit : ℕ := 7

def magnitudeRefinedBit : ℕ := 6

def codedInCurrentPassBit : ℕ := 5

def negativeBit : ℕ := 4

namespace Arrays
variable (a : Arrays)

def isSignificant (idx : ℕ) : Bool := (a.states idx).testBit significantBit

def isCoded (idx : ℕ) : Bool := (a.states idx).testBit codedInCurrentPassBit

def isNegative (idx : ℕ) : Bool := (a.states idx).testBit negativeBit

def markCodedInCurrentPass (idx : ℕ) : Arrays :=
  if a.isCoded idx then a
  else { a with
    states := mark a.states idx codedInCurrentPassBit
    codedIndices := a.codedIndices ++ [idx] }

def clearCodedInCurrentPass : Arrays :=
  { a with
    states := a.codedIndices.foldl
      (fun states idx => states.set idx (states idx &&& (2 ^ codedInCurrentPassBit ^^^ 0xFF))) a.states
    codedIndices := [] }

def setMagnitudeRefined (idx : ℕ) : Arrays :=
  { a with states := mark a.states idx magnitudeRefinedBit }

def setSignificant (paddedWidth idx : ℕ) : Arrays :=
  let top := idx - paddedWidth
  let bottom := idx + paddedWidth
  let n := a.neighbors
  let n := mark n (top - 1) 1
  let n := mark n top 0
  let n := mark n (top + 1) 3
  let n := mark n (idx - 1) 2
  let n := mark n (idx + 1) 4
  let n := mark n (bottom - 1) 5
  let n := mark n bottom 6
  let n := mark n (bottom + 1) 7
  { a with states := mark a.states idx significantBit, neighbors := n }

end Arrays

/-! ## Context labels -/

def signContextLookup : List (ℕ × ℕ) :=
  [(9,0),(10,0),(10,1),(0,0),(12,0),(13,0),(11,0),(0,0),(12,1),(11,1),(13,1),(0,0),(0,0),(0,0),
   (0,0),(0,0),(12,0),(13,0),(11,0),(0,0),(12,0),(13,0),(11,0),(0,0),(9,0),(10,0),(10,1),(0,0),
   (0,0),(0,0),(0,0),(0,0),(12,1),(11,1),(13,1),(0,0),(9,0),(10,0),(10,1),(0,0),(12,1),(11,1),
   (13,1),(0,0),(0,0),(0,0),(0,0),(0,0),(0,0),(0,0),(0,0),(0,0),(0,0),(0,0),(0,0),(0,0),(0,0),
   (0,0),(0,0),(0,0),(0,0),(0,0),(0,0),(0,0),(10,0),(10,0),(9,0),(0,0),(13,0),(13,0),(12,0),(0,0),
   (11,1),(11,1),(12,1),(0,0),(0,0),(0,0),(0,0),(0,0),(13,0),(13,0),(12,0),(0,0),(13,0),(13,0),
   (12,0),(0,0),(10,0),(10,0),(9,0),(0,0),(0,0),(0,0),(0,0),(0,0),(11,1),(11,1),(12,1),(0,0),
   (10,0),(10,0),(9,0),(0,0),(11,1),(11,1),(12,1),(0,0),(0,0),(0,0),(0,0),(0,0),(0,0),(0,0),(0,0),
   (0,0),(0,0),(0,0),(0,0),(0,0),(0,0),(0,0),(0,0),(0,0),(0,0),(0,0),(0,0),(0,0),(10,1),(9,0),
   (10,1),(0,0),(11,0),(12,0),(11,0),(0,0),(13,1),(12,1),(13,1),(0,0),(0,0),(0,0),(0,0),(0,0),
   (11,0),(12,0),(11,0),(0,0),(11,0),(12,0),(11,0),(0,0),(10,1),(9,0),(10,1),(0,0),(0,0),(0,0),
   (0,0),(0,0),(13,1),(12,1),(13,1),(0,0),(10,1),(9,0),(10,1),(0,0),(13,1),(12,1),(13,1),(0,0),
   (0,0),(0,0),(0,0),(0,0),(0,0),(0,0),(0,0),(0,0),(0,0),(0,0),(0,0),(0,0),(0,0),(0,0),(0,0),
   (0,0),(0,0),(0,0),(0,0),(0,0),(0,0),(0,0),(0,0),(0,0),(0,0),(0,0),(0,0),(0,0),(0,0),(0,0),
   (0,0),(0,0),(0,0),(0,0),(0,0),(0,0),(0,0),(0,0),(0,0),(0,0),(0,0),(0,0),(0,0),(0,0),(0,0),
   (0,0),(0,0),(0,0),(0,0),(0,0),(0,0),(0,0),(0,0),(0,0),(0,0),(0,0),(0,0),(0,0),(0,0),(0,0),
   (0,0),(0,0),(0,0),(0,0),(0,0),(0,0),(0,0),(0,0),(0,0),(0,0),(0,0),(0,0),(0,0),(0,0),(0,0),
   (0,0),(0,0),(0,0),(0,0),(0,0),(0,0),(0,0),(0,0),(0,0)]

def zeroCtxLlLh : List ℕ :=
  [0,3,1,3,5,7,6,7,1,3,2,3,6,7,6,7,5,7,6,7,8,8,8,8,6,7,6,7,8,8,8,8,1,3,2,3,6,7,6,7,2,3,2,3,6,7,6,
   7,6,7,6,7,8,8,8,8,6,7,6,7,8,8,8,8,3,4,3,4,7,7,7,7,3,4,3,4,7,7,7,7,7,7,7,7,8,8,8,8,7,7,7,7,8,8,
   8,8,3,4,3,4,7,7,7,7,3,4,3,4,7,7,7,7,7,7,7,7,8,8,8,8,7,7,7,7,8,8,8,8,1,3,2,3,6,7,6,7,2,3,2,3,6,
   7,6,7,6,7,6,7,8,8,8,8,6,7,6,7,8,8,8,8,2,3,2,3,6,7,6,7,2,3,2,3,6,7,6,7,6,7,6,7,8,8,8,8,6,7,6,7,
   8,8,8,8,3,4,3,4,7,7,7,7,3,4,3,4,7,7,7,7,7,7,7,7,8,8,8,8,7,7,7,7,8,8,8,8,3,4,3,4,7,7,7,7,3,4,3,
   4,7,7,7,7,7,7,7,7,8,8,8,8,7,7,7,7,8,8,8,8]

def zeroCtxHl : List ℕ :=
  [0,5,1,6,3,7,3,7,1,6,2,6,3,7,3,7,3,7,3,7,4,7,4,7,3,7,3,7,4,7,4,7,1,6,2,6,3,7,3,7,2,6,2,6,3,7,3,
   7,3,7,3,7,4,7,4,7,3,7,3,7,4,7,4,7,5,8,6,8,7,8,7,8,6,8,6,8,7,8,7,8,7,8,7,8,7,8,7,8,7,8,7,8,7,8,
   7,8,6,8,6,8,7,8,7,8,6,8,6,8,7,8,7,8,7,8,7,8,7,8,7,8,7,8,7,8,7,8,7,8,1,6,2,6,3,7,3,7,2,6,2,6,3,
   7,3,7,3,7,3,7,4,7,4,7,3,7,3,7,4,7,4,7,2,6,2,6,3,7,3,7,2,6,2,6,3,7,3,7,3,7,3,7,4,7,4,7,3,7,3,7,
   4,7,4,7,6,8,6,8,7,8,7,8,6,8,6,8,7,8,7,8,7,8,7,8,7,8,7,8,7,8,7,8,7,8,7,8,6,8,6,8,7,8,7,8,6,8,6,
   8,7,8,7,8,7,8,7,8,7,8,7,8,7,8,7,8,7,8,7,8]

def zeroCtxHh : List ℕ :=
  [0,1,3,4,1,2,4,5,3,4,6,7,4,5,7,7,1,2,4,5,2,2,5,5,4,5,7,7,5,5,7,7,3,4,6,7,4,5,7,7,6,7,8,8,7,7,8,
   8,4,5,7,7,5,5,7,7,7,7,8,8,7,7,8,8,1,2,4,5,2,2,5,5,4,5,7,7,5,5,7,7,2,2,5,5,2,2,5,5,5,5,7,7,5,5,
   7,7,4,5,7,7,5,5,7,7,7,7,8,8,7,7,8,8,5,5,7,7,5,5,7,7,7,7,8,8,7,7,8,8,3,4,6,7,4,5,7,7,6,7,8,8,7,
   7,8,8,4,5,7,7,5,5,7,7,7,7,8,8,7,7,8,8,6,7,8,8,7,7,8,8,8,8,8,8,8,8,8,8,7,7,8,8,7,7,8,8,8,8,8,8,
   8,8,8,8,4,5,7,7,5,5,7,7,7,7,8,8,7,7,8,8,5,5,7,7,5,5,7,7,7,7,8,8,7,7,8,8,7,7,8,8,7,7,8,8,8,8,8,
   8,8,8,8,8,7,7,8,8,7,7,8,8,8,8,8,8,8,8,8,8]

def zeroCodingCtx (neighborSig : ℕ) : SubBandType → ℕ
  | .lowLow | .lowHigh => zeroCtxLlLh.getD neighborSig 0
  | .highLow => zeroCtxHl.getD neighborSig 0
  | .highHigh => zeroCtxHh.getD neighborSig 0

namespace CodeBlock
variable (b : CodeBlock) (a : Arrays)

def paddedWidth : ℕ := b.width + 2

def cell (x y : ℕ) : ℕ := (y + 1) * b.paddedWidth + (x + 1)

def neighborInNextStripe (y : ℕ) : Bool := y + 1 < b.height ∧ (y + 1) >>> 2 > y >>> 2

def effectiveNeighborSig (neighborSig y : ℕ) : ℕ :=
  if b.style.verticallyCausalContext && b.neighborInNextStripe y then neighborSig &&& 0b11110100
  else neighborSig

def magnitudeRefinementCtx (state neighborSig : ℕ) : ℕ :=
  if state.testBit magnitudeRefinedBit then 16 else 14 + min neighborSig 1

/-- The sign of a neighbor, where it is significant. -/
def neighborSign (idx : ℕ) : ℕ := if a.isSignificant idx then (a.isNegative idx).toNat else 0

/-- The label of a sign, and the bit by which it is flipped. -/
def signContext (idx y : ℕ) : ℕ × ℕ :=
  let significances := b.effectiveNeighborSig (a.neighbors idx) y &&& 0b01010101
  let topSign := neighborSign a (idx - b.paddedWidth)
  let leftSign := neighborSign a (idx - 1)
  let rightSign := neighborSign a (idx + 1)
  let bottomSign :=
    if b.style.verticallyCausalContext && b.neighborInNextStripe y then 0
    else neighborSign a (idx + b.paddedWidth)
  let signBits := topSign <<< 6 ||| leftSign <<< 4 ||| rightSign <<< 2 ||| bottomSign
  let negativeSigs := significances &&& signBits
  let positiveSigs := significances &&& (signBits ^^^ 0xFF)
  signContextLookup.getD ((negativeSigs <<< 1) % 256 ||| positiveSigs) (0,0)

/-! ## Coding passes -/

def preparePaddedCoefficients : Buffer ℕ × Buffer ℕ :=
  (List.range b.height).foldl (fun buffers y => (List.range b.width).foldl (fun buffers x =>
    let idx := b.cell x y
    (buffers.1.set idx (b.coefficient x y).natAbs,
      if b.coefficient x y < 0 then buffers.2.set idx (2 ^ negativeBit) else buffers.2)) buffers)
    (fun _ => 0,fun _ => 0)

def magnitudes : Buffer ℕ := b.preparePaddedCoefficients.1

/-- The bit of a magnitude under the mask of the bit plane. -/
def bitAt (bitplane idx : ℕ) : Bool := b.magnitudes idx &&& 2 ^ bitplane != 0

/-- A bit for the arithmetic coder, or for the raw one, which knows no labels. -/
def sendBit (raw : Bool) (label : ℕ) (bit : Bool) : Send Arrays Decision Unit :=
  send (if raw then .raw bit else .symbol label bit)

/-- A raw sign is not told from the neighbors. -/
def encodeSign (raw : Bool) (idx y : ℕ) : Send Arrays Decision Unit := do
  let a ← look
  let label := b.signContext a idx y
  sendBit raw label.1 (if raw then a.isNegative idx else (a.isNegative idx).toNat ^^^ label.2 != 0)

/-- A coefficient that turns out significant. -/
def becomeSignificant (raw : Bool) (idx y : ℕ) : Send Arrays Decision Unit := do
  b.encodeSign raw idx y
  change fun a => a.setSignificant b.paddedWidth idx

/-- The columns of all stripes, `(0..h).step_by(4)` and `0..w`. -/
def forColumns (column : ℕ → ℕ → Send Arrays Decision Unit) : Send Arrays Decision Unit :=
  (List.range ((b.height + 3) / 4)).forM fun stripe =>
    (List.range b.width).forM fun x => column stripe x

def stripeHeight (stripe : ℕ) : ℕ := min (4 * stripe + 4) b.height - 4 * stripe

def propagateCoefficient (raw : Bool) (bitplane x y : ℕ) : Send Arrays Decision Unit := do
  let idx := b.cell x y
  let a ← look
  let neighborSig := b.effectiveNeighborSig (a.neighbors idx) y
  if !a.isSignificant idx && neighborSig != 0 then do
    let bit := b.bitAt bitplane idx
    sendBit raw (zeroCodingCtx neighborSig b.subBandType) bit
    change fun a => a.markCodedInCurrentPass idx
    if bit then b.becomeSignificant raw idx y else pure ()
  else pure ()

def propagationPass (raw : Bool) (bitplane : ℕ) : Send Arrays Decision Unit :=
  b.forColumns fun stripe x => (List.range (b.stripeHeight stripe)).forM fun j =>
    b.propagateCoefficient raw bitplane x (4 * stripe + j)

def significancePropagationPass (bitplane : ℕ) : Send Arrays Decision Unit :=
  b.propagationPass false bitplane

def significancePropagationPassRaw (bitplane : ℕ) : Send Arrays Decision Unit :=
  b.propagationPass true bitplane

def refineCoefficient (raw : Bool) (bitplane x y : ℕ) : Send Arrays Decision Unit := do
  let idx := b.cell x y
  let a ← look
  if a.isSignificant idx && !a.isCoded idx then do
    let label := magnitudeRefinementCtx (a.states idx) (b.effectiveNeighborSig (a.neighbors idx) y)
    sendBit raw label (b.bitAt bitplane idx)
    change fun a => a.setMagnitudeRefined idx
  else pure ()

def refinementPass (raw : Bool) (bitplane : ℕ) : Send Arrays Decision Unit :=
  b.forColumns fun stripe x => (List.range (b.stripeHeight stripe)).forM fun j =>
    b.refineCoefficient raw bitplane x (4 * stripe + j)

def magnitudeRefinementPass (bitplane : ℕ) : Send Arrays Decision Unit :=
  b.refinementPass false bitplane

def magnitudeRefinementPassRaw (bitplane : ℕ) : Send Arrays Decision Unit :=
  b.refinementPass true bitplane

/-- One sample of a clean-up outside a run. -/
def cleanupCoefficient (bitplane x y : ℕ) : Send Arrays Decision Unit := do
  let idx := b.cell x y
  let a ← look
  if !(a.isSignificant idx || a.isCoded idx) then do
    let bit := b.bitAt bitplane idx
    let neighborSig := b.effectiveNeighborSig (a.neighbors idx) y
    sendBit false (zeroCodingCtx neighborSig b.subBandType) bit
    if bit then b.becomeSignificant false idx y else pure ()
  else pure ()

/-- `all_zero_uncoded`. -/
def runOfZeros (x baseY : ℕ) : Bool :=
  (List.range 4).all fun j => !(a.isSignificant (b.cell x (baseY + j)) ||
    a.isCoded (b.cell x (baseY + j)) ||
    b.effectiveNeighborSig (a.neighbors (b.cell x (baseY + j))) (baseY + j) != 0)

/-- A column of four that starts with a run. -/
def cleanupRun (bitplane x baseY : ℕ) : Send Arrays Decision Unit :=
  match (List.range 4).find? fun j => b.bitAt bitplane (b.cell x (baseY + j)) with
  | some pos => do
      sendBit false 17 true
      sendBit false 18 (pos >>> 1 &&& 1 != 0)
      sendBit false 18 (pos &&& 1 != 0)
      b.becomeSignificant false (b.cell x (baseY + pos)) (baseY + pos)
      (List.range' (pos + 1) (3 - pos)).forM fun j => b.cleanupCoefficient bitplane x (baseY + j)
  | none => sendBit false 17 false

def cleanupPass (bitplane : ℕ) : Send Arrays Decision Unit :=
  b.forColumns fun stripe x => do
    let a ← look
    if b.stripeHeight stripe = 4 ∧ b.runOfZeros a x (4 * stripe) then
      b.cleanupRun bitplane x (4 * stripe)
    else
      (List.range (b.stripeHeight stripe)).forM fun j =>
        b.cleanupCoefficient bitplane x (4 * stripe + j)

def encodeSegmentationSymbols : Send Arrays Decision Unit := do
  sendBit false 18 true
  sendBit false 18 false
  sendBit false 18 true
  sendBit false 18 false

def resetContextsIfAsked : Send Arrays Decision Unit :=
  if b.style.resetContextProbabilities then send .resetContexts else pure ()

def segmentationSymbolsIfAsked : Send Arrays Decision Unit :=
  if b.style.segmentationSymbols then encodeSegmentationSymbols else pure ()

/-- One turn of the loop of `try_encode_code_block_with_style_view` over the bit planes. -/
def encodeBitplane (numBitplanes bitplane : ℕ) : Send Arrays Decision Unit := do
  if bitplane = numBitplanes - 1 then do
    b.cleanupPass bitplane
    b.segmentationSymbolsIfAsked
    b.resetContextsIfAsked
  else do
    b.significancePropagationPass bitplane
    b.resetContextsIfAsked
    b.magnitudeRefinementPass bitplane
    b.resetContextsIfAsked
    b.cleanupPass bitplane
    b.segmentationSymbolsIfAsked
    b.resetContextsIfAsked
  change Arrays.clearCodedInCurrentPass

def encodeBitplanes (numBitplanes : ℕ) : Send Arrays Decision Unit :=
  (List.range numBitplanes).reverse.forM (b.encodeBitplane numBitplanes)

def encodeCodingPass (useArithmetic : Bool) (numBitplanes codingPass : ℕ) :
    Send Arrays Decision Unit :=
  let bitplane := numBitplanes - 1 - (codingPass + 2) / 3
  if codingPass % 3 = 0 then do
    b.cleanupPass bitplane
    b.segmentationSymbolsIfAsked
    change Arrays.clearCodedInCurrentPass
  else if codingPass % 3 = 1 then
    if useArithmetic then b.significancePropagationPass bitplane
    else b.significancePropagationPassRaw bitplane
  else
    if useArithmetic then b.magnitudeRefinementPass bitplane
    else b.magnitudeRefinementPassRaw bitplane

/-- One turn of the loop of `try_encode_all_passes`, within its segment. -/
def encodeTurn (useArithmetic : Bool) (numBitplanes codingPass : ℕ) : Send Arrays Decision Unit := do
  b.encodeCodingPass useArithmetic numBitplanes codingPass
  b.resetContextsIfAsked

/-- The arrays that the first pass finds. -/
def startArrays : Arrays := ⟨b.preparePaddedCoefficients.2,fun _ => 0,[]⟩

end CodeBlock

end J2kNative.ClassicEncoder
