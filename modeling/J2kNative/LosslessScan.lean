import J2kNative.JpegHuffman
import Mathlib.Data.List.GetD

/-!
# Lossless JPEG scans

The loops of the lossless decoder over whole buffers: gray, three interleaved
components of one sampling, and three components with subsampled chroma. A buffer
is kept by component and position, so the interleaving and the byte order of the
samples are left out, as are the bounds of the caller's buffer and what is done
with the decoded samples.
-/
namespace J2kNative

/-- A sample type: the value the first sample of a scan is predicted from, and how many
values there are. -/
structure LosslessSample where
  restartPredictor : ℤ
  bitDepth : ℕ
  deriving DecidableEq, Repr

namespace LosslessSample

def u8 : LosslessSample := ⟨128,8⟩
def u16 : LosslessSample := ⟨32768,16⟩

def fromI32 (P : LosslessSample) (value : ℤ) : Read ℤ :=
  if 0 ≤ value ∧ value < 2^P.bitDepth then pure value
  else throw (huffmanFailure .invalidSymbol)

end LosslessSample

/-- The prediction of the sample at `(x, y)` from the samples before it. -/
def losslessPredict (predictor : ℕ) (bias : ℤ) (x y : ℕ) (at_ : ℕ → ℕ → ℤ) : ℤ :=
  if x = 0 ∧ y = 0 then bias
  else if y = 0 then at_ (x-1) 0
  else if x = 0 then at_ 0 (y-1)
  else
    let ra := at_ (x-1) y
    let rb := at_ x (y-1)
    let rc := at_ (x-1) (y-1)
    match predictor with
    | 1 => ra
    | 2 => rb
    | 3 => rc
    | 4 => ra+rb-rc
    | 5 => ra+(rb-rc)/2
    | 6 => rb+(ra-rc)/2
    | 7 => (ra+rb)/2
    | _ => bias

/-- A prediction reads the neighbours to the left and above. -/
theorem losslessPredict_congr {x y : ℕ} {f g : ℕ → ℕ → ℤ} (predictor : ℕ) (bias : ℤ)
    (hleft : 0 < x → f (x-1) y = g (x-1) y) (habove : 0 < y → f x (y-1) = g x (y-1))
    (hcorner : 0 < x → 0 < y → f (x-1) (y-1) = g (x-1) (y-1)) :
    losslessPredict predictor bias x y f = losslessPredict predictor bias x y g := by
  unfold losslessPredict
  by_cases hx : x = 0
  · by_cases hy : y = 0
    · simp [hx,hy]
    · subst hx
      simp only [hy,true_and,if_false,if_true]
      exact habove (Nat.pos_of_ne_zero hy)
  · have hxpos := Nat.pos_of_ne_zero hx
    by_cases hy : y = 0
    · subst hy
      simp only [hx,false_and,if_false,if_true]
      exact hleft hxpos
    · have hypos := Nat.pos_of_ne_zero hy
      simp only [hx,hy,false_and,if_false]
      rw [hleft hxpos,habove hypos,hcorner hxpos hypos]

structure LosslessRestartTracker where
  restartInterval : ℕ
  totalUnits : ℕ
  unitsSinceRestart : ℕ
  expectedRst : ℕ
  deriving DecidableEq, Repr

def consumeLosslessRestart (sampleIndex totalSamples expectedRst : ℕ) : Read ℕ := do
  modify BitReader.resetAtRestart
  BitReader.consumeRestartMarker expectedRst sampleIndex totalSamples

namespace LosslessRestartTracker

def new (restartInterval : Option ℕ) (totalUnits : ℕ) : LosslessRestartTracker :=
  ⟨restartInterval.getD 0,totalUnits,0,0⟩

/-- The tracker after the restart that is due before a unit, if one is. -/
def restarted (t : LosslessRestartTracker) (unitIndex : ℕ) : Read LosslessRestartTracker :=
  if 0 < t.restartInterval ∧ t.unitsSinceRestart = t.restartInterval then do
    let expectedRst ← consumeLosslessRestart unitIndex t.totalUnits t.expectedRst
    pure { t with expectedRst := expectedRst, unitsSinceRestart := 0 }
  else pure t

/-- Whether the unit is the first one after a restart, or of the scan. -/
def isFirst (t : LosslessRestartTracker) : Bool :=
  0 < t.restartInterval && t.unitsSinceRestart = 0

def finishUnit (t : LosslessRestartTracker) : LosslessRestartTracker :=
  { t with unitsSinceRestart := t.unitsSinceRestart+1 }

end LosslessRestartTracker

/-- Decoded samples by component, column and row. -/
abbrev Samples := ℕ → ℕ → ℕ → ℤ

def Samples.set (s : Samples) (component x y : ℕ) (v : ℤ) : Samples := fun c i j =>
  if c = component ∧ i = x ∧ j = y then v else s c i j

/-- A component of the scan with its place in the output and the size of its plane. -/
structure ResolvedLosslessComponent where
  h : ℕ
  v : ℕ
  outputIndex : ℕ
  planeWidth : ℕ
  planeHeight : ℕ
  dcTable : HuffmanTable

/-- What the loops of a scan share: the units are MCUs, `unitsPerRow` in a row. -/
structure LosslessScan where
  sample : LosslessSample
  predictor : ℕ
  components : List ResolvedLosslessComponent
  unitsPerRow : ℕ
  unitRows : ℕ
  restartInterval : Option ℕ

namespace LosslessScan

def decodePlaneSample (scan : LosslessScan) (c : ResolvedLosslessComponent) (x y : ℕ)
    (restartFirstSample : Bool) (s : Samples) : Read Samples := do
  let predicted := if restartFirstSample then scan.sample.restartPredictor
    else losslessPredict scan.predictor scan.sample.restartPredictor x y (s c.outputIndex)
  let diff ← c.dcTable.decodeFastDc
  let sample ← scan.sample.fromI32 (predicted+diff)
  pure (s.set c.outputIndex x y sample)

/-- The samples of a component in a MCU, row by row; those outside the plane are not coded. -/
def decodeMcuComponent (scan : LosslessScan) (mcuX mcuY : ℕ) (restartFirstMcu : Bool)
    (s : Samples) (c : ResolvedLosslessComponent) : Read Samples :=
  (List.range c.v).foldlM (fun s localY => (List.range c.h).foldlM (fun s localX =>
    let x := mcuX*c.h+localX
    let y := mcuY*c.v+localY
    if c.planeWidth ≤ x ∨ c.planeHeight ≤ y then pure s
    else scan.decodePlaneSample c x y (restartFirstMcu && localX = 0 && localY = 0) s) s) s

def decodeMcu (scan : LosslessScan) (mcuX mcuY : ℕ) (restartFirstMcu : Bool) (s : Samples) :
    Read Samples :=
  scan.components.foldlM (scan.decodeMcuComponent mcuX mcuY restartFirstMcu) s

/-- One turn of the loop over the units. -/
def decodeUnit (scan : LosslessScan) (state : LosslessRestartTracker × Samples) (unit : ℕ × ℕ) :
    Read (LosslessRestartTracker × Samples) := do
  let t ← state.1.restarted (unit.2*scan.unitsPerRow+unit.1)
  let s ← scan.decodeMcu unit.1 unit.2 t.isFirst state.2
  pure (t.finishUnit,s)

/-- The units in the order of the loops: row by row. -/
def units (scan : LosslessScan) : List (ℕ × ℕ) :=
  (List.range scan.unitRows).flatMap fun y => (List.range scan.unitsPerRow).map fun x => (x,y)

def tracker (scan : LosslessScan) : LosslessRestartTracker :=
  .new scan.restartInterval (scan.unitsPerRow*scan.unitRows)

/-- The samples that the first `count` units leave in a buffer of zeros. -/
def decodeUnits (scan : LosslessScan) (count : ℕ) (bytes : List ℕ) : Except JpegError Samples := do
  let ((_,s),_) ← (scan.units.take count).foldlM scan.decodeUnit (scan.tracker,fun _ _ _ => 0)
    (BitReader.new bytes)
  .ok s

def decode (scan : LosslessScan) (bytes : List ℕ) : Except JpegError Samples :=
  scan.decodeUnits scan.units.length bytes

end LosslessScan

/-- The gray loops, of eight and of sixteen bits: a unit is a sample. -/
def losslessGray (P : LosslessSample) (predictor width height : ℕ) (restartInterval : Option ℕ)
    (dcTable : HuffmanTable) : LosslessScan where
  sample := P
  predictor := predictor
  components := [⟨1,1,0,width,height,dcTable⟩]
  unitsPerRow := width
  unitRows := height
  restartInterval := restartInterval

/-- The components of a scan in the order of its header, by their places in the frame. -/
structure ScanOrder where
  outputIndices : List ℕ
  perm : outputIndices.Perm (List.range 3)
  deriving DecidableEq, Repr

/-- The order of the frame. -/
def ScanOrder.frame : ScanOrder := ⟨List.range 3,.refl _⟩

theorem ScanOrder.mem_outputIndices (order : ScanOrder) {i : ℕ} :
    i ∈ order.outputIndices ↔ i < 3 := order.perm.mem_iff.trans List.mem_range

/-- The loop over three components of one sampling: a unit is a pixel. -/
def losslessColorComponents (P : LosslessSample) (predictor width height : ℕ)
    (restartInterval : Option ℕ) (order : ScanOrder) (dcTables : ℕ → HuffmanTable) :
    LosslessScan where
  sample := P
  predictor := predictor
  components := order.outputIndices.map fun i => ⟨1,1,i,width,height,dcTables i⟩
  unitsPerRow := width
  unitRows := height
  restartInterval := restartInterval

inductive LosslessColorSampling where
  | s422
  | s420
  deriving DecidableEq, Repr

def LosslessColorSampling.v : LosslessColorSampling → ℕ
  | .s422 => 1
  | .s420 => 2

theorem LosslessColorSampling.v_pos (sampling : LosslessColorSampling) : 0 < sampling.v := by
  cases sampling
  · exact Nat.one_pos
  · exact Nat.two_pos

/-- A component of a scan with subsampled chroma: the luma is the first one of the frame. -/
def sampledComponent (width height : ℕ) (sampling : LosslessColorSampling)
    (dcTables : ℕ → HuffmanTable) (i : ℕ) : ResolvedLosslessComponent :=
  if i = 0 then ⟨2,sampling.v,i,width,height,dcTables i⟩
  else ⟨1,1,i,(width+1)/2,(height+sampling.v-1)/sampling.v,dcTables i⟩

/-- The loop over MCUs with subsampled chroma. -/
def losslessColorSampled (P : LosslessSample) (predictor width height : ℕ)
    (sampling : LosslessColorSampling) (restartInterval : Option ℕ) (order : ScanOrder)
    (dcTables : ℕ → HuffmanTable) : LosslessScan where
  sample := P
  predictor := predictor
  components := order.outputIndices.map (sampledComponent width height sampling dcTables)
  unitsPerRow := (width+1)/2
  unitRows := (height+sampling.v-1)/sampling.v
  restartInterval := restartInterval

end J2kNative
