import J2kNative.TileGeometry
import J2kNative.InterruptibleRuns
import J2kNative.ProgressiveScript
import Mathlib.Data.BitVec

/-!
# Decoding the scans of a progressive frame

All scans write into one table of coefficients. What the entropy data give is a
parameter: a reader with any answer, or an error, to every request. A scan that
ends with an error leaves the coefficients written so far. Two entries are kept
for the proofs and read by no code: `coded`, the approximation position of the
last scan that coded a coefficient, and `refined`, the coefficients a refinement
scan met with the position it refined.
-/
namespace J2kNative

open Interruptible TileGeometry

def zigzag : List ℕ :=
  [ 0, 1, 8,16, 9, 2, 3,10,
   17,24,32,25,18,11, 4, 5,
   12,19,26,33,40,48,41,34,
   27,20,13, 6, 7,14,21,28,
   35,42,49,56,57,50,43,36,
   29,22,15,23,30,37,44,51,
   58,59,52,45,38,31,39,46,
   53,60,61,54,47,55,62,63]

/-- The natural position of the zigzag position `k`. -/
def natural (k : ℕ) : ℕ := zigzag.getD k 0

structure Coefficient where
  value : BitVec 32
  coded : Option ℕ
  deriving DecidableEq, Repr

instance : Inhabited Coefficient := ⟨⟨0,none⟩⟩

/-- A block by natural positions. -/
abbrev DctBlock := ℕ → Coefficient

structure PreparedProgressiveComponentPlan where
  h : ℕ
  v : ℕ
  blockCols : ℕ
  blockRows : ℕ
  sampleWidth : ℕ
  sampleHeight : ℕ

structure PreparedProgressiveScanComponent (τ : Type) where
  componentIndex : ℕ
  dcTable : Option τ
  acTable : Option τ

structure PreparedProgressiveScan (τ : Type) where
  components : List (PreparedProgressiveScanComponent τ)
  ss : ℕ
  se : ℕ
  ah : ℕ
  al : ℕ
  entropyOffset : ℕ
  terminalOffset : ℕ
  terminalCode : ℕ
  restartInterval : Option ℕ

structure PreparedProgressivePlan (τ : Type) where
  components : List PreparedProgressiveComponentPlan
  scans : List (PreparedProgressiveScan τ)
  mcuCols : ℕ
  mcuRows : ℕ

/-- What the entropy data answer: opening a scan, a Huffman symbol, raw bits, a signed
value of a category, a restart marker, and the reconciliation at the scan's end. -/
structure EntropyReader (ρ τ : Type) where
  start : PreparedProgressiveScan τ → Except JpegError ρ
  decode : τ → ρ → Except JpegError (ℕ × ρ)
  readBits : ℕ → ρ → Except JpegError (ℕ × ρ)
  receiveExtend : ℕ → ρ → Except JpegError (BitVec 32 × ρ)
  consumeRestartMarker : ℕ → ℕ → ℕ → ρ → Except JpegError (ℕ × ρ)
  reconcile : PreparedProgressiveScan τ → ρ → Except JpegError Unit

structure BlockState (ρ : Type) where
  reader : ρ
  block : DctBlock
  dcPredictor : BitVec 32
  eobRun : ℕ
  refined : List (BitVec 32 × ℕ)

abbrev BlockDecoder (ρ : Type) := Interruptible JpegError (BlockState ρ)

variable {ρ τ : Type}

namespace BlockDecoder

def ask {α : Type} (f : ρ → Except JpegError (α × ρ)) : BlockDecoder ρ α := fun s =>
  match f s.reader with
  | .ok (a,reader) => (.ok a,{ s with reader := reader })
  | .error e => (.error e,s)

def store (index : ℕ) (value : BitVec 32) : BlockDecoder ρ Unit :=
  change fun s => { s with
    block := Function.update s.block index ⟨value,(s.block index).coded⟩ }

def setEobRun (run : ℕ) : BlockDecoder ρ Unit := change fun s => { s with eobRun := run }

/-- The coefficient a refinement at `al` meets. -/
def meet (value : BitVec 32) (al : ℕ) : BlockDecoder ρ Unit :=
  change fun s => { s with refined := s.refined ++ [(value,al)] }

end BlockDecoder

open BlockDecoder

def invalidSymbol : JpegError := .huffmanDecode 0 .invalidSymbol

def missingTable : JpegError :=
  .internalInvariant "progressive scan references a missing prepared Huffman table"

def tableOf (id : Option τ) : BlockDecoder ρ τ :=
  match id with
  | some table => pure table
  | none => fail missingTable

def decodeEobRun (E : EntropyReader ρ τ) (runBits : ℕ) : BlockDecoder ρ ℕ :=
  if 0 < runBits then do
    let bits ← ask (E.readBits runBits)
    pure (2^runBits-1+bits)
  else pure (2^runBits-1)

/-- The AC positions of a block from `k` on, in an initial scan. -/
def firstAcLoop (E : EntropyReader ρ τ) (scan : PreparedProgressiveScan τ) (table : τ) (k : ℕ) :
    BlockDecoder ρ Unit :=
  if _h : k ≤ scan.se then do
    let symbol ← ask (E.decode table)
    if symbol % 16 = 0 then
      if symbol / 16 = 15 then firstAcLoop E scan table (k+16)
      else do
        let run ← decodeEobRun E (symbol/16)
        setEobRun run
    else if scan.se < k+symbol/16 then fail invalidSymbol
    else do
      let value ← ask (E.receiveExtend (symbol % 16))
      store (natural (k+symbol/16)) (value <<< scan.al)
      firstAcLoop E scan table (k+symbol/16+1)
  else pure ()
termination_by scan.se+1-k

def decodeProgressiveBlockFirst (E : EntropyReader ρ τ) (scan : PreparedProgressiveScan τ)
    (scanComponent : PreparedProgressiveScanComponent τ) : BlockDecoder ρ Unit :=
  if scan.ss = 0 then do
    let table ← tableOf scanComponent.dcTable
    let ssss ← ask (E.decode table)
    if 15 < ssss then fail invalidSymbol
    else do
      let diff ← ask (E.receiveExtend ssss)
      change fun s => { s with dcPredictor := s.dcPredictor+diff }
      let s ← read
      store 0 (s.dcPredictor <<< scan.al)
  else do
    let table ← tableOf scanComponent.acTable
    let s ← read
    if 0 < s.eobRun then setEobRun (s.eobRun-1)
    else firstAcLoop E scan table scan.ss

/-- A correction bit applied to a nonzero coefficient, away from zero. -/
def correct (al k correction : ℕ) (coeff : BitVec 32) : BlockDecoder ρ Unit :=
  if correction ≠ 0 ∧ coeff &&& 1#32 <<< al = 0 then
    if 0 < coeff.toInt then store (natural k) (coeff+1#32 <<< al)
    else store (natural k) (coeff-1#32 <<< al)
  else pure ()

/-- Corrections of the nonzero coefficients from `k` on, up to the zero coefficient that
ends a run of `zeroRunLength` others; the position where the pass stopped. -/
def refineNonZeroes (E : EntropyReader ρ τ) (stop al zeroRunLength k : ℕ) :
    BlockDecoder ρ { stopped : ℕ // min k stop ≤ stopped } :=
  if _h : k ≤ stop then do
    let s ← read
    let coeff := (s.block (natural k)).value
    if coeff = 0 then
      if zeroRunLength = 0 then pure ⟨k,by omega⟩
      else do
        let stopped ← refineNonZeroes E stop al (zeroRunLength-1) (k+1)
        pure ⟨stopped.1,by have := stopped.2; omega⟩
    else do
      meet coeff al
      let correction ← ask (E.readBits 1)
      correct al k correction coeff
      let stopped ← refineNonZeroes E stop al zeroRunLength (k+1)
      pure ⟨stopped.1,by have := stopped.2; omega⟩
  else pure ⟨stop,by omega⟩
termination_by stop+1-k

/-- The new value a refinement symbol announces, and the zeros before it. -/
def refineSymbol (E : EntropyReader ρ τ) (al symbol : ℕ) : BlockDecoder ρ (BitVec 32 × ℕ) :=
  if symbol % 16 = 0 then
    if symbol / 16 = 15 then pure (0,15)
    else do
      let run ← decodeEobRun E (symbol/16)
      setEobRun run
      pure (0,64)
  else if symbol % 16 = 1 then do
    let sign ← ask (E.readBits 1)
    pure (if sign ≠ 0 then 1#32 <<< al else -(1#32 <<< al),symbol/16)
  else fail invalidSymbol

def storeAnnounced (scan : PreparedProgressiveScan τ) (value : BitVec 32) (k : ℕ) :
    BlockDecoder ρ Unit :=
  if value ≠ 0 then
    if scan.se < k then fail invalidSymbol
    else store (natural k) value
  else pure ()

/-- The AC positions of a block from `k` on, in a refinement scan. -/
def refineAcLoop (E : EntropyReader ρ τ) (scan : PreparedProgressiveScan τ) (table : τ) (k : ℕ) :
    BlockDecoder ρ Unit :=
  if _h : k ≤ scan.se then do
    let symbol ← ask (E.decode table)
    let announced ← refineSymbol E scan.al symbol
    let stopped ← refineNonZeroes E scan.se scan.al announced.2 k
    storeAnnounced scan announced.1 stopped.1
    refineAcLoop E scan table (stopped.1+1)
  else pure ()
termination_by scan.se+1-k
decreasing_by have := stopped.2; omega

def decodeProgressiveBlockRefine (E : EntropyReader ρ τ) (scan : PreparedProgressiveScan τ)
    (scanComponent : PreparedProgressiveScanComponent τ) : BlockDecoder ρ Unit :=
  if scan.ss = 0 then do
    let bit ← ask (E.readBits 1)
    let s ← read
    meet (s.block 0).value scan.al
    if bit ≠ 0 then store 0 ((s.block 0).value ||| 1#32 <<< scan.al)
  else do
    let table ← tableOf scanComponent.acTable
    let s ← read
    if 0 < s.eobRun then do
      setEobRun (s.eobRun-1)
      let _ ← refineNonZeroes E scan.se scan.al 64 scan.ss
    else refineAcLoop E scan table scan.ss

/-- The positions of the scan's band are now coded at `al`. -/
def PreparedProgressiveScan.mark (scan : PreparedProgressiveScan τ) (block : DctBlock) : DctBlock :=
  fun i => if (List.range' scan.ss (scan.se+1-scan.ss)).any fun k => natural k == i then
    ⟨(block i).value,some scan.al⟩ else block i

/-- The coefficients of all components, by component and block, and what refinements met. -/
structure CoefficientState where
  coeffs : List (List DctBlock)
  refined : List (BitVec 32 × ℕ)

structure ScanState (ρ : Type) extends CoefficientState where
  reader : ρ
  dcPredictors : List (BitVec 32)
  eobRun : ℕ
  mcusSinceRestart : ℕ
  expectedRst : ℕ

abbrev ScanDecoder (ρ : Type) := Interruptible JpegError (ScanState ρ)

structure ProgressiveBlockTarget (τ : Type) where
  component : PreparedProgressiveComponentPlan
  scanComponent : PreparedProgressiveScanComponent τ
  blockX : ℕ
  blockY : ℕ

namespace ProgressiveBlockTarget

def blockIndex (target : ProgressiveBlockTarget τ) : ℕ :=
  target.blockY*target.component.blockCols+target.blockX

def find (target : ProgressiveBlockTarget τ) (coeffs : List (List DctBlock)) : Option DctBlock :=
  coeffs[target.scanComponent.componentIndex]?.bind fun blocks => blocks[target.blockIndex]?

/-- The decoder of one block works on that block, its component's predictor and the
state of the scan. -/
def enter (target : ProgressiveBlockTarget τ) (scan : PreparedProgressiveScan τ)
    (block : DctBlock) (s : ScanState ρ) : BlockState ρ where
  reader := s.reader
  block := scan.mark block
  dcPredictor := s.dcPredictors.getD target.scanComponent.componentIndex 0
  eobRun := s.eobRun
  refined := s.refined

def leave (target : ProgressiveBlockTarget τ) (s : ScanState ρ) (b : BlockState ρ) :
    ScanState ρ :=
  { s with
    coeffs := s.coeffs.modify target.scanComponent.componentIndex fun blocks =>
      blocks.set target.blockIndex b.block
    refined := b.refined
    reader := b.reader
    dcPredictors := s.dcPredictors.set target.scanComponent.componentIndex b.dcPredictor
    eobRun := b.eobRun }

end ProgressiveBlockTarget

def decodeProgressiveBlockAt (E : EntropyReader ρ τ) (scan : PreparedProgressiveScan τ)
    (target : ProgressiveBlockTarget τ) : ScanDecoder ρ Unit := do
  let s ← read
  match target.find s.coeffs with
  | none => fail invalidSymbol
  | some block =>
    within (target.enter scan block) target.leave
      (if scan.ah = 0 then decodeProgressiveBlockFirst E scan target.scanComponent
       else decodeProgressiveBlockRefine E scan target.scanComponent)

def progressiveCodedBlockCols (component : PreparedProgressiveComponentPlan) : ℕ :=
  min (max (divCeil component.sampleWidth 8) 1) component.blockCols

def progressiveCodedBlockRows (component : PreparedProgressiveComponentPlan) : ℕ :=
  min (max (divCeil component.sampleHeight 8) 1) component.blockRows

namespace PreparedProgressivePlan

def component (plan : PreparedProgressivePlan τ)
    (scanComponent : PreparedProgressiveScanComponent τ) :
    Except JpegError PreparedProgressiveComponentPlan :=
  match plan.components[scanComponent.componentIndex]? with
  | some component => .ok component
  | none =>
    .error (.internalInvariant "prepared progressive scan references an unknown component")

/-- The component of a scan that is not interleaved. -/
def singleComponent (plan : PreparedProgressivePlan τ) (scan : PreparedProgressiveScan τ) :
    Except JpegError (PreparedProgressiveScanComponent τ × PreparedProgressiveComponentPlan) :=
  match scan.components with
  | [] => .error (.internalInvariant "prepared progressive scan has no components")
  | scanComponent::_ => do
    let component ← plan.component scanComponent
    .ok (scanComponent,component)

end PreparedProgressivePlan

def scanMcuCount (plan : PreparedProgressivePlan τ) (scan : PreparedProgressiveScan τ) :
    Except JpegError ℕ :=
  if 1 < scan.components.length then .ok (min (plan.mcuCols*plan.mcuRows) (2^32-1))
  else do
    let single ← plan.singleComponent scan
    .ok (min (progressiveCodedBlockCols single.2*progressiveCodedBlockRows single.2) (2^32-1))

def decodeProgressiveMcu (E : EntropyReader ρ τ) (plan : PreparedProgressivePlan τ)
    (scan : PreparedProgressiveScan τ) (mcuIndex : ℕ) : ScanDecoder ρ Unit :=
  if 1 < scan.components.length then
    scan.components.forM fun scanComponent => do
      let component ← lift (plan.component scanComponent)
      (List.range component.v).forM fun row =>
        (List.range component.h).forM fun col =>
          decodeProgressiveBlockAt E scan
            ⟨component,scanComponent,mcuIndex % plan.mcuCols*component.h+col,
              mcuIndex/plan.mcuCols*component.v+row⟩
  else do
    let single ← lift (plan.singleComponent scan)
    let codedCols := progressiveCodedBlockCols single.2
    decodeProgressiveBlockAt E scan
      ⟨single.2,single.1,mcuIndex % codedCols,mcuIndex/codedCols⟩

def consumeRestart (E : EntropyReader ρ τ) (mcuIndex totalMcus : ℕ) : ScanDecoder ρ Unit := fun s =>
  match E.consumeRestartMarker s.expectedRst mcuIndex totalMcus s.reader with
  | .ok (expectedRst,reader) =>
    (.ok (),{ s with
      reader := reader
      expectedRst := expectedRst
      dcPredictors := s.dcPredictors.map fun _ => 0
      eobRun := 0
      mcusSinceRestart := 0 })
  | .error e => (.error e,s)

def restartIfDue (E : EntropyReader ρ τ) (scan : PreparedProgressiveScan τ)
    (mcuIndex totalMcus : ℕ) : ScanDecoder ρ Unit := do
  let s ← read
  if 0 < scan.restartInterval.getD 0 ∧ s.mcusSinceRestart = scan.restartInterval.getD 0 then
    consumeRestart E mcuIndex totalMcus
  else pure ()

def finishProgressiveScan (E : EntropyReader ρ τ) (scan : PreparedProgressiveScan τ) :
    ScanDecoder ρ Unit := do
  let s ← read
  if s.eobRun ≠ 0 then fail (.residualEobRun scan.terminalOffset scan.entropyOffset s.eobRun)
  else lift (E.reconcile scan s.reader)

/-- One pass of the loop over the MCUs of a scan. -/
def decodeProgressiveStep (E : EntropyReader ρ τ) (plan : PreparedProgressivePlan τ)
    (scan : PreparedProgressiveScan τ) (totalMcus mcuIndex : ℕ) : ScanDecoder ρ Unit := do
  restartIfDue E scan mcuIndex totalMcus
  decodeProgressiveMcu E plan scan mcuIndex
  change fun s => { s with mcusSinceRestart := s.mcusSinceRestart+1 }

def decodeProgressiveScan (E : EntropyReader ρ τ) (plan : PreparedProgressivePlan τ)
    (scan : PreparedProgressiveScan τ) : Interruptible JpegError CoefficientState Unit := do
  let reader ← lift (E.start scan)
  within
    (fun s => ⟨s,reader,List.replicate plan.components.length 0,0,0,0⟩)
    (fun _ t => t.toCoefficientState)
    (do
      let totalMcus ← lift (scanMcuCount plan scan)
      (List.range totalMcus).forM (decodeProgressiveStep E plan scan totalMcus)
      finishProgressiveScan E scan)

def allocateCoefficients (plan : PreparedProgressivePlan τ) : CoefficientState where
  coeffs := plan.components.map fun component =>
    List.replicate (component.blockCols*component.blockRows) fun _ => default
  refined := []

def decodeProgressiveDctBlocks (E : EntropyReader ρ τ) (plan : PreparedProgressivePlan τ) :
    Except JpegError Unit × CoefficientState :=
  plan.scans.forM (decodeProgressiveScan E plan) (allocateCoefficients plan)

/-- A scan as the header walk retains it; `T` stands for the captured table state. -/
structure ParsedProgressiveScan (T : Type) where
  markerOffset : ℕ
  scan : ParsedScan
  entropyOffset : ℕ
  terminalOffset : ℕ
  terminalCode : ℕ
  tableState : T
  restartInterval : Option ℕ

variable {T : Type}

/-- The scan's components with their tables; `resolve` finds a compiled table by table
state, component, class and selector. -/
def prepareScanComponents (componentIds : List ℕ) (resolve : T → ℕ → ℕ → ℕ → Except JpegError τ)
    (parsed : ParsedProgressiveScan T) :
    Except JpegError (List (PreparedProgressiveScanComponent τ)) :=
  parsed.scan.components.mapM fun component =>
    match findComponentIndex componentIds component.id with
    | none => .error (.unknownScanComponent parsed.entropyOffset component.id)
    | some componentIndex =>
      if parsed.scan.ss = 0 then do
        let table ← resolve parsed.tableState component.id 0 component.dcTable
        .ok ⟨componentIndex,some table,none⟩
      else do
        let table ← resolve parsed.tableState component.id 1 component.acTable
        .ok ⟨componentIndex,none,some table⟩

def prepareScan (componentIds : List ℕ) (resolve : T → ℕ → ℕ → ℕ → Except JpegError τ)
    (parsed : ParsedProgressiveScan T) : Except JpegError (PreparedProgressiveScan τ) := do
  let components ← prepareScanComponents componentIds resolve parsed
  .ok ⟨components,parsed.scan.ss,parsed.scan.se,parsed.scan.ah,parsed.scan.al,
    parsed.entropyOffset,parsed.terminalOffset,parsed.terminalCode,parsed.restartInterval⟩

def ParsedSof.maxH (sof : ParsedSof) : ℕ := (sof.sampling.map Prod.fst).foldl max 0

def ParsedSof.maxV (sof : ParsedSof) : ℕ := (sof.sampling.map Prod.snd).foldl max 0

/-- One component of the frame: the block grid covers whole MCUs, the samples need not. -/
def prepareComponent (sof : ParsedSof) (outputIndex : ℕ) :
    Except JpegError PreparedProgressiveComponentPlan :=
  match sof.sampling[outputIndex]? with
  | none => .error .missingFrame
  | some (h,v) => .ok
    { h := h
      v := v
      blockCols := divCeil sof.width (8*sof.maxH)*h
      blockRows := divCeil sof.height (8*sof.maxV)*v
      sampleWidth := divCeil (sof.width*h) sof.maxH
      sampleHeight := divCeil (sof.height*v) sof.maxV }

def buildProgressivePlan (sof : ParsedSof) (resolve : T → ℕ → ℕ → ℕ → Except JpegError τ)
    (scans : List (ParsedProgressiveScan T)) : Except JpegError (PreparedProgressivePlan τ) := do
  let components ← (List.range sof.componentIds.length).mapM (prepareComponent sof)
  let prepared ← scans.mapM (prepareScan sof.componentIds resolve)
  .ok ⟨components,prepared,divCeil sof.width (8*sof.maxH),divCeil sof.height (8*sof.maxV)⟩

end J2kNative
