import J2kNative.CountedLoops
import J2kNative.ProgressiveInvariant
import Mathlib.Tactic.Ring

/-!
# Scans of a frame with one component

The sequential decoder of 8-bit samples runs over MCUs and, in each, over the
blocks of its components, also where the scan has one component only; the one of
12-bit samples and the progressive decoder take such a scan block by block. What
happens at a restart and at a block is a parameter, so the order of the blocks and
the restarts between them are all that is compared. The Huffman and quantization
tables of the components are left out.
-/
namespace J2kNative.SingleComponentScan

open TileGeometry Fallible

/-! ## The sequential decoder -/

structure PreparedComponentPlan where
  h : ℕ
  v : ℕ
  outputIndex : ℕ
  deriving DecidableEq, Repr

structure PreparedDecodePlan where
  components : List PreparedComponentPlan
  width : ℕ
  height : ℕ
  maxH : ℕ
  maxV : ℕ
  restartInterval : Option ℕ
  deriving DecidableEq, Repr

def buildDecodePlan (scanOffset : ℕ) (sof : ParsedSof) (scan : ParsedScan)
    (restartInterval : Option ℕ) : Except JpegError PreparedDecodePlan := do
  let components ← scan.components.mapM fun component =>
    match findComponentIndex sof.componentIds component.id with
    | none => .error (.unknownScanComponent scanOffset component.id)
    | some outputIndex =>
      match sof.sampling[outputIndex]? with
      | none => .error .missingFrame
      | some (h,v) => .ok (⟨h,v,outputIndex⟩ : PreparedComponentPlan)
  .ok ⟨components,sof.width,sof.height,sof.maxH,sof.maxV,restartInterval⟩

/-- The frames with a sequential plan. -/
def sequentialKind (kind : SofKind) : Bool :=
  match kind with
  | .baseline8 | .extended8 | .extended12 => true
  | .progressive8 | .progressive12 | .lossless => false

def checkSampling (kind : SofKind) (maxH maxV : ℕ) (sampling : ℕ × ℕ) : Except JpegError Unit :=
  let (h,v) := sampling
  if h = 0 ∨ v = 0 ∨ 4 < h ∨ 4 < v then .error (.notImplemented kind)
  else if ¬(h ∣ maxH ∧ v ∣ maxV) then .error (.notImplemented kind)
  else .ok ()

def buildPreparedPlan (kind : SofKind) (scanOffset : ℕ) (sof : ParsedSof) (scan : ParsedScan)
    (restartInterval : Option ℕ) : Except JpegError PreparedDecodePlan := do
  if sequentialKind kind = false then .error (.notImplemented kind) else .ok ()
  sof.sampling.forM (checkSampling kind sof.maxH sof.maxV)
  buildDecodePlan scanOffset sof scan restartInterval

/-- What a decoder does at the marker due before an MCU, and at a block of a component. -/
structure ScanActions (σ : Type) where
  consumeRestart : ℕ → ℕ → σ → Except JpegError σ
  block : ℕ → ℕ → ℕ → σ → Except JpegError σ

variable {σ : Type}

/-- The state with the MCUs since the last restart. -/
def consumeRestartMarkerIfDue (A : ScanActions σ) (restart current total : ℕ) (s : ℕ × σ) :
    Except JpegError (ℕ × σ) :=
  if restart = 0 ∨ s.1 ≠ restart then .ok s
  else do
    let t ← A.consumeRestart current total s.2
    .ok (0,t)

/-- The blocks of the components of an MCU. -/
def decodeMcu (A : ScanActions σ) (components : List PreparedComponentPlan) (mcuX mcuY : ℕ)
    (s : σ) : Except JpegError σ :=
  components.foldlM (fun s component => (List.range component.v).foldlM (fun s vy =>
    (List.range component.h).foldlM (fun s vx => A.block component.outputIndex
      (mcuX*component.h+vx) (mcuY*component.v+vy) s) s) s) s

def PreparedDecodePlan.mcusPerRow (plan : PreparedDecodePlan) : ℕ :=
  divCeil plan.width (8*plan.maxH)

def PreparedDecodePlan.mcuRows (plan : PreparedDecodePlan) : ℕ :=
  divCeil plan.height (8*plan.maxV)

def decodeMcuRow (A : ScanActions σ) (plan : PreparedDecodePlan) (mcuY : ℕ) (s : ℕ × σ) :
    Except JpegError (ℕ × σ) :=
  (List.range plan.mcusPerRow).foldlM (fun s mx => do
    let s ← consumeRestartMarkerIfDue A (plan.restartInterval.getD 0)
      (mcuY*plan.mcusPerRow+mx) (plan.mcuRows*plan.mcusPerRow) s
    let t ← decodeMcu A plan.components mx mcuY s.2
    .ok (s.1+1,t)) s

/-- All rows of a scan. -/
def decodeScanRows (A : ScanActions σ) (plan : PreparedDecodePlan) (s : σ) :
    Except JpegError σ := do
  let s ← (List.range plan.mcuRows).foldlM (fun s mcuY => decodeMcuRow A plan mcuY s) (0,s)
  .ok s.2

/-! ## Frames of 12 bits -/

/-- The marker expected next and the prediction belong to what happens at a restart. -/
structure Extended12RestartTracker where
  restartInterval : ℕ
  totalMcus : ℕ
  mcusSinceRestart : ℕ
  deriving DecidableEq, Repr

namespace Extended12RestartTracker

def new (restartInterval : Option ℕ) (totalMcus : ℕ) : Extended12RestartTracker :=
  ⟨restartInterval.getD 0,totalMcus,0⟩

def beginMcu (A : ScanActions σ) (mcuIndex : ℕ) (s : Extended12RestartTracker × σ) :
    Except JpegError (Extended12RestartTracker × σ) :=
  if 0 < s.1.restartInterval ∧ s.1.mcusSinceRestart = s.1.restartInterval then do
    let t ← A.consumeRestart mcuIndex s.1.totalMcus s.2
    .ok ({ s.1 with mcusSinceRestart := 0 },t)
  else .ok s

def finishMcu (tracker : Extended12RestartTracker) : Extended12RestartTracker :=
  { tracker with mcusSinceRestart := tracker.mcusSinceRestart+1 }

end Extended12RestartTracker

/-- One block, with the restart due before it. -/
def decodeExtended12Mcu (A : ScanActions σ) (component : PreparedComponentPlan)
    (mcuCols mcuY mcuX : ℕ) (s : Extended12RestartTracker × σ) :
    Except JpegError (Extended12RestartTracker × σ) := do
  let s ← Extended12RestartTracker.beginMcu A (mcuY*mcuCols+mcuX) s
  let t ← A.block component.outputIndex mcuX mcuY s.2
  .ok (s.1.finishMcu,t)

/-- The pass over a gray frame of 12 bits: an MCU is one block. -/
def decodeExtended12Region (A : ScanActions σ) (kind : SofKind) (plan : PreparedDecodePlan)
    (s : σ) : Except JpegError σ :=
  if kind ≠ .extended12 then .error (.notImplemented kind)
  else
    match plan.components with
    | [component] => do
      let mcuCols := divCeil plan.width 8
      let mcuRows := divCeil plan.height 8
      let s ← (List.range mcuRows).foldlM (fun s mcuY => (List.range mcuCols).foldlM
        (fun s mcuX => decodeExtended12Mcu A component mcuCols mcuY mcuX s) s)
        (Extended12RestartTracker.new plan.restartInterval (mcuCols*mcuRows),s)
      .ok s.2
    | _ => .error (.notImplemented kind)

/-! ## The pass a request comes to -/

inductive PixelFormat where
  | rgb8
  | rgba8
  | gray8
  | rgb16
  | rgba16
  | gray16
  | rgbI16
  | rgbaI16
  | grayI16
  deriving DecidableEq, Repr

inductive OutputFormat where
  | rgb8
  | rgba8 (alpha : ℕ)
  | gray8
  | rgb16
  | rgba16 (alpha : ℕ)
  | gray16
  deriving DecidableEq, Repr

/-- The formats at full scale that a sequential frame can be decoded to. -/
def outputFormatFromParts (kind : SofKind) (fmt : PixelFormat) : Except JpegError OutputFormat :=
  if kind = .extended12 then
    match fmt with
    | .gray16 => .ok .gray16
    | .rgb16 => .ok .rgb16
    | .rgba16 => .ok (.rgba16 (2^16-1))
    | _ => .error (.unsupportedBitDepth 12)
  else
    match fmt with
    | .rgb8 => .ok .rgb8
    | .gray8 => .ok .gray8
    | .rgba8 => .ok (.rgba8 255)
    | .rgb16 | .rgba16 | .gray16 => .error (.unsupportedBitDepth 16)
    | _ => .error (.downscaleUnsupported kind)

/-- A whole image is asked for as pixels or as the rows of its components. -/
inductive DecodeRequest where
  | pixels (fmt : PixelFormat)
  | componentRows
  deriving DecidableEq, Repr

/-- The format that the scan is decoded to, if any. -/
def DecodeRequest.output (kind : SofKind) : DecodeRequest → Except JpegError (Option OutputFormat)
  | .pixels fmt => do
    let fmt ← outputFormatFromParts kind fmt
    .ok (some fmt)
  | .componentRows => .ok none

/-- The passes over interleaved color are for three components and are not reached here. -/
def dispatchFullOutput (A : ScanActions σ) (kind : SofKind) (plan : PreparedDecodePlan) (s : σ) :
    OutputFormat → Except JpegError σ
  | .rgb8 | .rgba8 _ | .gray8 => decodeScanRows A plan s
  | .gray16 | .rgb16 => decodeExtended12Region A kind plan s
  | .rgba16 _ =>
    if kind = .extended12 then decodeExtended12Region A kind plan s
    else .error (.notImplemented kind)

/-- Rows of components are decoded as samples of 8 bits whatever the frame is. -/
def decodeScan (A : ScanActions σ) (kind : SofKind) (plan : PreparedDecodePlan)
    (output : Option OutputFormat) (s : σ) : Except JpegError σ :=
  match output with
  | some fmt => dispatchFullOutput A kind plan s fmt
  | none => decodeScanRows A plan s

/-! ## Frames with one component -/

/-- What a scan that is not interleaved stands for: its blocks row by row, with restarts
counted in blocks. -/
def rasterScan (A : ScanActions σ) (cols rows restart : ℕ) (s : σ) : Except JpegError σ := do
  let s ← (List.range (rows*cols)).foldlM (fun s i => do
    let s ← consumeRestartMarkerIfDue A restart i (rows*cols) s
    let t ← A.block 0 (i % cols) (i/cols) s.2
    .ok (s.1+1,t)) (0,s)
  .ok s.2

def singleFrame (id h v width height : ℕ) : ParsedSof := ⟨[id],[(h,v)],width,height⟩

def singleScan (id dcTable acTable : ℕ) : ParsedScan := ⟨[⟨id,dcTable,acTable⟩],0,63,0,0⟩

/-- The sequential decoder treats the scan as not interleaved where it decodes it. -/
def SequentialRaster (kind : SofKind) (request : DecodeRequest)
    (id dcTable acTable h v width height : ℕ) (restart : Option ℕ) : Prop :=
  ∀ scanOffset plan output, buildPreparedPlan kind scanOffset (singleFrame id h v width height)
      (singleScan id dcTable acTable) restart = .ok plan → request.output kind = .ok output →
    ∀ (σ : Type) (A : ScanActions σ) (s : σ), decodeScan A kind plan output s =
      rasterScan A (divCeil width 8) (divCeil height 8) (restart.getD 0) s

/-- The progressive decoder treats every scan of such a frame as not interleaved. -/
def ProgressiveRaster (id h v width height : ℕ) : Prop :=
  ∀ (T τ ρ : Type) (resolve : T → ℕ → ℕ → ℕ → Except JpegError τ)
    (parsed : List (ParsedProgressiveScan T)) (plan : PreparedProgressivePlan τ),
    buildProgressivePlan (singleFrame id h v width height) resolve parsed = .ok plan →
    ∀ scan ∈ plan.scans, scan.components.length = 1 →
      scanMcuCount plan scan = .ok (divCeil height 8*divCeil width 8) ∧
      ∃ component scanComponent, plan.components[0]? = some component ∧
        scan.components = [scanComponent] ∧ ∀ (E : EntropyReader ρ τ) mcuIndex,
        decodeProgressiveMcu E plan scan mcuIndex = decodeProgressiveBlockAt E scan
          ⟨component,scanComponent,mcuIndex % divCeil width 8,mcuIndex/divCeil width 8⟩

/-! ## The order of restarts and blocks -/

inductive Event where
  | restart (current total : ℕ)
  | block (component x y : ℕ)
  deriving DecidableEq, Repr

def perform (A : ScanActions σ) (s : σ) : Event → Except JpegError σ
  | .restart current total => A.consumeRestart current total s
  | .block component x y => A.block component x y s

/-- The restart due before a unit, and the blocks of the unit. -/
def unitEvents (restart total : ℕ) (blocks : ℕ → List Event) (i : ℕ) : List Event :=
  (if 0 < restart ∧ 0 < i ∧ i % restart = 0 then [.restart i total] else []) ++ blocks i

/-- The count of units since the last restart. -/
def sinceRestart (restart n : ℕ) : ℕ := if restart = 0 ∨ n = 0 then n else (n-1) % restart+1

theorem sinceRestart_eq_iff {restart n : ℕ} (hrestart : 0 < restart) :
    sinceRestart restart n = restart ↔ 0 < n ∧ n % restart = 0 := by
  unfold sinceRestart
  rcases Nat.eq_zero_or_pos n with rfl | hn
  · rw [if_pos (Or.inr rfl)]
    omega
  · rw [if_neg (by omega)]
    have hgroups := CountedLoops.pred_div_mod hrestart hn
    have hlt := Nat.mod_lt n hrestart
    constructor
    · intro hlast
      refine ⟨hn,?_⟩
      by_contra hne
      have := (hgroups.2 hne).2
      omega
    · rintro ⟨-,hzero⟩
      exact (hgroups.1 hzero).2

theorem sinceRestart_succ {restart n : ℕ} :
    sinceRestart restart (n+1) =
      (if 0 < restart ∧ 0 < n ∧ n % restart = 0 then 0 else sinceRestart restart n)+1 := by
  unfold sinceRestart
  rcases Nat.eq_zero_or_pos restart with rfl | hrestart
  · simp
  · rcases Nat.eq_zero_or_pos n with rfl | hn
    · simp
    · have hgroups := CountedLoops.pred_div_mod hrestart hn
      have hnext : ¬(restart = 0 ∨ n+1 = 0) := by omega
      have hthis : ¬(restart = 0 ∨ n = 0) := by omega
      rw [if_neg hnext,if_neg hthis,Nat.add_sub_cancel]
      split_ifs with hzero
      · rw [hzero.2.2]
      · rw [(hgroups.2 fun h => hzero ⟨hrestart,hn,h⟩).2]

/-- A loop over units performs their events. -/
theorem foldlM_units (A : ScanActions σ) (restart total : ℕ) {f : ℕ → σ → Except JpegError σ}
    {blocks : ℕ → List Event} (hf : ∀ i s, f i s = (blocks i).foldlM (perform A) s) (n : ℕ)
    (s : σ) :
    (List.range n).foldlM (fun s i => do
      let s ← consumeRestartMarkerIfDue A restart i total s
      let t ← f i s.2
      .ok (s.1+1,t)) (0,s) =
    (((List.range n).flatMap (unitEvents restart total blocks)).foldlM (perform A) s) >>=
      fun t => .ok (sinceRestart restart n,t) := by
  induction n with
  | zero =>
      show Except.ok (0,s) = Except.ok (sinceRestart restart 0,s)
      rw [sinceRestart,if_pos (Or.inr rfl)]
  | succ n ih =>
      rw [List.range_succ,List.foldlM_append,ih,List.flatMap_append,List.foldlM_append,bind_assoc,
        bind_assoc]
      refine congrArg _ (funext fun t => ?_)
      rw [Fallible.ok_bind,List.flatMap_singleton,List.foldlM_cons,bind_assoc,
        unitEvents,List.foldlM_append,bind_assoc,sinceRestart_succ]
      unfold consumeRestartMarkerIfDue
      by_cases hdue : 0 < restart ∧ 0 < n ∧ n % restart = 0
      · have heq := (sinceRestart_eq_iff hdue.1).mpr hdue.2
        rw [if_neg (by dsimp only; omega),if_pos hdue,if_pos hdue]
        simp only [List.foldlM_cons,List.foldlM_nil,bind_pure,bind_assoc,Fallible.ok_bind,hf,perform]
      · have hne : restart = 0 ∨ sinceRestart restart n ≠ restart := by
          by_contra hboth
          obtain ⟨hpos,heq⟩ := not_or.mp hboth
          have hpos := Nat.pos_of_ne_zero hpos
          exact hdue ⟨hpos,(sinceRestart_eq_iff hpos).mp (not_not.mp heq)⟩
        rw [if_pos hne,if_neg hdue,if_neg hdue]
        simp only [List.foldlM_nil,bind_assoc,Fallible.ok_bind,hf]
        rfl

/-! ## The two orders -/

/-- The blocks of one MCU of `h` by `v` blocks. -/
def mcuBlocks (h v mcusPerRow i : ℕ) : List Event :=
  (List.range v).flatMap fun vy => (List.range h).map fun vx =>
    .block 0 (i % mcusPerRow*h+vx) (i/mcusPerRow*v+vy)

def rasterBlock (cols i : ℕ) : List Event := [.block 0 (i % cols) (i/cols)]

def sequentialEvents (h v mcusPerRow mcuRows restart : ℕ) : List Event :=
  (List.range (mcuRows*mcusPerRow)).flatMap
    (unitEvents restart (mcuRows*mcusPerRow) (mcuBlocks h v mcusPerRow))

def rasterEvents (cols rows restart : ℕ) : List Event :=
  (List.range (rows*cols)).flatMap (unitEvents restart (rows*cols) (rasterBlock cols))

theorem rasterScan_eq (A : ScanActions σ) (cols rows restart : ℕ) (s : σ) :
    rasterScan A cols rows restart s = (rasterEvents cols rows restart).foldlM (perform A) s := by
  unfold rasterScan
  rw [@foldlM_units _ A restart (rows*cols) (fun i s => A.block 0 (i % cols) (i/cols) s)
    (rasterBlock cols) fun i s => by
      rw [rasterBlock,List.foldlM_cons]
      simp only [List.foldlM_nil,bind_pure,perform],bind_assoc]
  simp only [Fallible.ok_bind]
  exact bind_pure _

theorem decodeMcu_eq (A : ScanActions σ) (h v mcusPerRow i : ℕ) (s : σ) :
    decodeMcu A [⟨h,v,0⟩] (i % mcusPerRow) (i/mcusPerRow) s =
      (mcuBlocks h v mcusPerRow i).foldlM (perform A) s := by
  unfold decodeMcu mcuBlocks
  rw [List.foldlM_cons,← foldlM_flatMap]
  simp only [List.foldlM_nil,bind_pure,List.foldlM_map]
  rfl

theorem decodeScanRows_eq (A : ScanActions σ) (h v width height : ℕ) (restart : Option ℕ) (s : σ) :
    decodeScanRows A ⟨[⟨h,v,0⟩],width,height,h,v,restart⟩ s =
      (sequentialEvents h v (divCeil width (8*h)) (divCeil height (8*v))
        (restart.getD 0)).foldlM (perform A) s := by
  unfold decodeScanRows
  have hrows : ∀ s : ℕ × σ, (List.range (divCeil height (8*v))).foldlM
      (fun s mcuY => decodeMcuRow A ⟨[⟨h,v,0⟩],width,height,h,v,restart⟩ mcuY s) s =
      (List.range (divCeil height (8*v)*divCeil width (8*h))).foldlM (fun s i => do
        let s ← consumeRestartMarkerIfDue A (restart.getD 0) i
          (divCeil height (8*v)*divCeil width (8*h)) s
        let t ← (mcuBlocks h v (divCeil width (8*h)) i).foldlM (perform A) s.2
        .ok (s.1+1,t)) s := by
    intro s
    refine (CountedLoops.foldlM_range_mul (divCeil height (8*v)) (divCeil width (8*h)) (fun y x s => do
      let s ← consumeRestartMarkerIfDue A (restart.getD 0) (y*divCeil width (8*h)+x)
        (divCeil height (8*v)*divCeil width (8*h)) s
      let t ← decodeMcu A [⟨h,v,0⟩] x y s.2
      .ok (s.1+1,t)) s).trans ?_
    refine CountedLoops.foldlM_congr (fun i _ s => ?_) s
    rw [Nat.div_add_mod']
    simp only [decodeMcu_eq]
  rw [show (⟨[⟨h,v,0⟩],width,height,h,v,restart⟩ : PreparedDecodePlan).mcuRows =
      divCeil height (8*v) from rfl,hrows,
    foldlM_units A (restart.getD 0) _ (f := fun i s =>
      (mcuBlocks h v (divCeil width (8*h)) i).foldlM (perform A) s) fun _ _ => rfl,bind_assoc]
  simp only [Fallible.ok_bind]
  exact bind_pure _

/-- A decoder that records what it is asked for. -/
def recorder : ScanActions (List Event) where
  consumeRestart current total l := .ok (l ++ [.restart current total])
  block component x y l := .ok (l ++ [.block component x y])

theorem perform_recorder (events l : List Event) :
    events.foldlM (perform recorder) l = .ok (l ++ events) := by
  induction events generalizing l with
  | nil => rw [List.append_nil]; rfl
  | cons e events ih =>
      have hstep : perform recorder l e = .ok (l ++ [e]) := by cases e <;> rfl
      rw [List.foldlM_cons,hstep,Fallible.ok_bind,ih,List.append_assoc,List.singleton_append]

theorem buildDecodePlan_single (scanOffset id dcTable acTable h v width height : ℕ)
    (restart : Option ℕ) :
    buildDecodePlan scanOffset (singleFrame id h v width height) (singleScan id dcTable acTable)
      restart = .ok ⟨[⟨h,v,0⟩],width,height,h,v,restart⟩ := by
  have hindex : findComponentIndex [id] id = some 0 := by
    rw [findComponentIndex,List.findIdx?_cons,beq_self_eq_true,if_pos rfl]
  unfold buildDecodePlan singleFrame singleScan
  simp only [List.mapM_cons,List.mapM_nil,hindex,List.getElem?_cons_zero]
  simp [ParsedSof.maxH,ParsedSof.maxV,bind,Except.bind,pure,Except.pure]

theorem buildPreparedPlan_single {kind : SofKind} (hkind : sequentialKind kind = true)
    (scanOffset id dcTable acTable : ℕ) {h v : ℕ} (width height : ℕ) (restart : Option ℕ)
    (hh : 0 < h ∧ h ≤ 4) (hv : 0 < v ∧ v ≤ 4) :
    buildPreparedPlan kind scanOffset (singleFrame id h v width height)
      (singleScan id dcTable acTable) restart = .ok ⟨[⟨h,v,0⟩],width,height,h,v,restart⟩ := by
  have hmax : (singleFrame id h v width height).maxH = h ∧
      (singleFrame id h v width height).maxV = v := by
    simp [singleFrame,ParsedSof.maxH,ParsedSof.maxV]
  have hcheck : checkSampling kind h v (h,v) = .ok () := by
    have hrange : ¬(h = 0 ∨ v = 0 ∨ 4 < h ∨ 4 < v) := by omega
    unfold checkSampling
    dsimp only
    rw [if_neg hrange,if_neg (not_not.mpr ⟨dvd_rfl,dvd_rfl⟩)]
  have hforM : (singleFrame id h v width height).sampling.forM (checkSampling kind h v) =
      .ok () := by
    show (checkSampling kind h v (h,v) >>= fun _ => .ok ()) = _
    rw [hcheck]
    rfl
  unfold buildPreparedPlan
  rw [if_neg (by rw [hkind]; decide),Fallible.ok_bind,hmax.1,hmax.2,hforM,Fallible.ok_bind]
  exact buildDecodePlan_single scanOffset id dcTable acTable h v width height restart

/-! ## The pass over frames of 12 bits -/

/-- The tracker and the count of units do the same before a unit. -/
theorem beginMcu_eq (A : ScanActions σ) (restart total i : ℕ) (s : ℕ × σ) :
    Extended12RestartTracker.beginMcu A i (⟨restart,total,s.1⟩,s.2) =
      consumeRestartMarkerIfDue A restart i total s >>= fun t => .ok (⟨restart,total,t.1⟩,t.2) := by
  unfold Extended12RestartTracker.beginMcu consumeRestartMarkerIfDue
  by_cases hdue : restart = 0 ∨ s.1 ≠ restart
  · rw [if_neg (by dsimp only; omega),if_pos hdue,Fallible.ok_bind]
  · rw [if_pos (by dsimp only; omega),if_neg hdue,bind_assoc]
    simp only [Fallible.ok_bind]

theorem decodeExtended12Mcu_eq (A : ScanActions σ) (component : PreparedComponentPlan)
    (restart total mcuCols i : ℕ) (s : ℕ × σ) :
    decodeExtended12Mcu A component mcuCols (i/mcuCols) (i % mcuCols) (⟨restart,total,s.1⟩,s.2) =
      (do
        let s ← consumeRestartMarkerIfDue A restart i total s
        let t ← A.block component.outputIndex (i % mcuCols) (i/mcuCols) s.2
        .ok (s.1+1,t)) >>= fun s => .ok (⟨restart,total,s.1⟩,s.2) := by
  rw [decodeExtended12Mcu,Nat.div_add_mod',beginMcu_eq]
  simp only [bind_assoc,Fallible.ok_bind]
  rfl

/-- The decoder of 12-bit samples takes the blocks as a scan that is not interleaved does,
whatever factors are declared. -/
theorem decodeExtended12Region_eq (A : ScanActions σ) (h v width height : ℕ)
    (restart : Option ℕ) (s : σ) :
    decodeExtended12Region A .extended12 ⟨[⟨h,v,0⟩],width,height,h,v,restart⟩ s =
      rasterScan A (divCeil width 8) (divCeil height 8) (restart.getD 0) s := by
  unfold decodeExtended12Region rasterScan
  rw [if_neg (by decide)]
  dsimp only
  rw [CountedLoops.foldlM_range_mul (divCeil height 8) (divCeil width 8)
      (decodeExtended12Mcu A ⟨h,v,0⟩ (divCeil width 8)),
    Extended12RestartTracker.new,Nat.mul_comm (divCeil width 8),
    Fallible.foldlM_image (e := fun s : ℕ × σ =>
      ((⟨restart.getD 0,divCeil height 8*divCeil width 8,s.1⟩ : Extended12RestartTracker),s.2))
      (fun s i => decodeExtended12Mcu_eq A ⟨h,v,0⟩ (restart.getD 0) _ (divCeil width 8) i s)
      _ (0,s),bind_assoc]
  simp only [Fallible.ok_bind]

/-- Frames of 12 bits asked for as pixels. -/
def Extended12Pixels (kind : SofKind) (request : DecodeRequest) : Prop :=
  kind = .extended12 ∧ request ≠ .componentRows

/-- What a request for a frame with one component comes to. -/
theorem decodeScan_single {kind : SofKind} {request : DecodeRequest}
    {output : Option OutputFormat} (houtput : request.output kind = .ok output)
    (A : ScanActions σ) (h v width height : ℕ) (restart : Option ℕ) (s : σ) :
    (Extended12Pixels kind request → decodeScan A kind ⟨[⟨h,v,0⟩],width,height,h,v,restart⟩
      output s = rasterScan A (divCeil width 8) (divCeil height 8) (restart.getD 0) s) ∧
    (¬Extended12Pixels kind request → decodeScan A kind ⟨[⟨h,v,0⟩],width,height,h,v,restart⟩
      output s = decodeScanRows A ⟨[⟨h,v,0⟩],width,height,h,v,restart⟩ s) := by
  cases request with
  | componentRows =>
      cases houtput
      exact ⟨fun hpixels => absurd rfl hpixels.2,fun _ => rfl⟩
  | pixels fmt =>
      obtain ⟨found,hfound,hrest⟩ := bind_eq_ok.mp houtput
      cases hrest
      by_cases hkind : kind = .extended12
      · subst hkind
        refine ⟨fun _ => ?_,fun hnot => absurd ⟨rfl,nofun⟩ hnot⟩
        rw [← decodeExtended12Region_eq]
        unfold outputFormatFromParts at hfound
        rw [if_pos rfl] at hfound
        cases fmt <;> cases hfound <;> rfl
      · refine ⟨fun hpixels => absurd hpixels.1 hkind,fun _ => ?_⟩
        unfold outputFormatFromParts at hfound
        rw [if_neg hkind] at hfound
        cases fmt <;> cases hfound <;> rfl

/-- The decoder treats the scan as not interleaved exactly where the request is refused, the
samples have 12 bits and are asked for as pixels, or the two orders are the same. -/
theorem sequentialRaster_iff_events {kind : SofKind} {request : DecodeRequest}
    {id dcTable acTable h v width height : ℕ} {restart : Option ℕ}
    (hkind : sequentialKind kind = true) (hh : 0 < h ∧ h ≤ 4) (hv : 0 < v ∧ v ≤ 4) :
    SequentialRaster kind request id dcTable acTable h v width height restart ↔
      (∃ e, request.output kind = .error e) ∨ Extended12Pixels kind request ∨
      sequentialEvents h v (divCeil width (8*h)) (divCeil height (8*v)) (restart.getD 0) =
        rasterEvents (divCeil width 8) (divCeil height 8) (restart.getD 0) := by
  have hplan := fun scanOffset => buildPreparedPlan_single hkind scanOffset id dcTable acTable
    width height restart hh hv
  cases houtput : request.output kind with
  | error e =>
      exact ⟨fun _ => .inl ⟨e,rfl⟩,fun _ _ _ _ _ hok => nomatch houtput.symm.trans hok⟩
  | ok output =>
      rw [or_iff_right (by rintro ⟨e,he⟩; exact nomatch he)]
      constructor
      · intro hraster
        by_cases hpixels : Extended12Pixels kind request
        · exact .inl hpixels
        · right
          have hrun := hraster 0 _ output (hplan 0) houtput (List Event) recorder []
          rw [(decodeScan_single houtput recorder h v width height restart []).2 hpixels,
            decodeScanRows_eq,rasterScan_eq,perform_recorder,perform_recorder] at hrun
          exact Except.ok.inj hrun
      · intro hcond scanOffset plan output' hbuilt hout σ A s
        rw [hplan] at hbuilt
        obtain rfl := Except.ok.inj hbuilt
        obtain rfl := Except.ok.inj (houtput.symm.trans hout)
        by_cases hpixels : Extended12Pixels kind request
        · exact (decodeScan_single houtput A h v width height restart s).1 hpixels
        · rw [(decodeScan_single houtput A h v width height restart s).2 hpixels,
            decodeScanRows_eq,rasterScan_eq,hcond.resolve_left hpixels]

/-! ## When the orders agree -/

section Orders
variable {h v M N cols rows restart total : ℕ}

theorem rasterBlocks_eq : (List.range (rows*cols)).flatMap (rasterBlock cols) =
    (List.range rows).flatMap fun y => (List.range cols).map fun x => Event.block 0 x y := by
  rw [CountedLoops.flatMap_range_mul]
  refine List.flatMap_congr fun y _ => ?_
  rw [List.map_eq_flatMap]
  refine List.flatMap_congr fun x hx => ?_
  rw [rasterBlock,CountedLoops.cell_div _ (List.mem_range.mp hx),
    CountedLoops.cell_mod _ (List.mem_range.mp hx)]

theorem sequentialBlocks_eq : (List.range (N*M)).flatMap (mcuBlocks h v M) =
    (List.range N).flatMap fun my => (List.range M).flatMap fun mx => (List.range v).flatMap
      fun vy => (List.range h).map fun vx => Event.block 0 (mx*h+vx) (my*v+vy) := by
  rw [CountedLoops.flatMap_range_mul]
  refine List.flatMap_congr fun y _ => List.flatMap_congr fun x hx => ?_
  rw [mcuBlocks,CountedLoops.cell_div _ (List.mem_range.mp hx),
    CountedLoops.cell_mod _ (List.mem_range.mp hx)]

/-- The blocks come in the same order where MCUs are one block high, or one makes a row. -/
theorem blocks_eq_of (hM : M*h = cols) (hN : N*v = rows)
    (hshape : v = 1 ∨ M = 1) : (List.range (N*M)).flatMap (mcuBlocks h v M) =
      (List.range (rows*cols)).flatMap (rasterBlock cols) := by
  rw [sequentialBlocks_eq,rasterBlocks_eq]
  rcases hshape with rfl | rfl
  · obtain rfl : N = rows := by omega
    refine List.flatMap_congr fun y _ => ?_
    rw [← hM,List.map_eq_flatMap,CountedLoops.flatMap_range_mul]
    refine List.flatMap_congr fun x _ => ?_
    rw [List.range_one,List.flatMap_singleton,List.map_eq_flatMap,Nat.mul_one,Nat.add_zero]
  · obtain rfl : h = cols := by omega
    rw [← hN,CountedLoops.flatMap_range_mul]
    refine List.flatMap_congr fun y _ => ?_
    rw [List.range_one,List.flatMap_singleton]
    simp only [Nat.zero_mul,Nat.zero_add]

theorem length_mcuBlocks (i : ℕ) : (mcuBlocks h v M i).length = v*h := by
  simp [mcuBlocks,List.length_flatMap]

theorem length_flatMap_range {f : ℕ → List Event} {n k : ℕ} (hf : ∀ i, (f i).length = k) :
    ((List.range n).flatMap f).length = n*k := by
  simp [List.length_flatMap,hf]

theorem exists_flatMap_range {f : ℕ → List Event} {n : ℕ} (hn : 0 < n) :
    ∃ rest, (List.range n).flatMap f = f 0 ++ rest := by
  obtain ⟨n,rfl⟩ := Nat.exists_eq_succ_of_ne_zero hn.ne'
  exact ⟨_,by rw [List.range_succ_eq_map,List.flatMap_cons]⟩

/-- The first MCU goes on with its second row of blocks. -/
theorem exists_second_row (hh : 0 < h) (hv : 2 ≤ v) (hM : 0 < M) (hN : 0 < N) :
    ∃ rest, (List.range (N*M)).flatMap (mcuBlocks h v M) =
      ((List.range h).map fun vx => Event.block 0 vx 0) ++ .block 0 0 1::rest := by
  rw [sequentialBlocks_eq]
  obtain ⟨rest₁,h₁⟩ := @exists_flatMap_range (fun my => (List.range M).flatMap fun mx =>
    (List.range v).flatMap fun vy => (List.range h).map fun vx =>
      Event.block 0 (mx*h+vx) (my*v+vy)) N hN
  obtain ⟨rest₂,h₂⟩ := @exists_flatMap_range (fun mx => (List.range v).flatMap fun vy =>
    (List.range h).map fun vx => Event.block 0 (mx*h+vx) (0*v+vy)) M hM
  obtain ⟨w,rfl⟩ := Nat.exists_eq_add_of_le' hv
  obtain ⟨g,rfl⟩ := Nat.exists_eq_succ_of_ne_zero hh.ne'
  have hrows : ∃ rest, ((List.range (w+2)).flatMap fun vy => (List.range (g+1)).map fun vx =>
      Event.block 0 (0*(g+1)+vx) (0*(w+2)+vy)) =
      ((List.range (g+1)).map fun vx => Event.block 0 vx 0) ++ .block 0 0 1::rest := by
    have hsplit : List.range (w+2) = 0::(List.range (w+1)).map Nat.succ := List.range_succ_eq_map
    rw [hsplit,List.flatMap_cons,List.flatMap_map]
    obtain ⟨rest,hrest⟩ := @exists_flatMap_range (fun vy => (List.range (g+1)).map fun vx =>
      Event.block 0 (0*(g+1)+vx) (0*(w+2)+vy.succ)) (w+1) (Nat.succ_pos w)
    rw [hrest,Nat.zero_mul,Nat.zero_mul]
    simp only [Nat.zero_add]
    have hrow : (List.range (g+1)).map (fun vx => Event.block 0 vx (Nat.succ 0)) =
        .block 0 0 1::(List.range g).map fun vx => Event.block 0 vx.succ 1 := by
      rw [List.range_succ_eq_map,List.map_cons,List.map_map]
      rfl
    rw [hrow,List.cons_append]
    exact ⟨_,rfl⟩
  obtain ⟨rest₃,h₃⟩ := hrows
  rw [h₁,h₂,h₃,List.append_assoc,List.append_assoc,List.cons_append]
  exact ⟨_,rfl⟩

/-- The blocks of the first MCU reach the second row of blocks before the raster does. -/
theorem blocks_eq_iff (hh : 0 < h) (hv : 0 < v) (hcols : 0 < cols) (hrows : 0 < rows)
    (hM : cols ≤ M*h) (hN : rows ≤ N*v) :
    (List.range (N*M)).flatMap (mcuBlocks h v M) =
      (List.range (rows*cols)).flatMap (rasterBlock cols) ↔
    M*h = cols ∧ N*v = rows ∧ (v = 1 ∨ M = 1) := by
  refine ⟨fun heq => ?_,fun hcond => blocks_eq_of hcond.1 hcond.2.1 hcond.2.2⟩
  have hlength := congrArg List.length heq
  rw [length_flatMap_range length_mcuBlocks,length_flatMap_range (k := 1) fun _ => rfl,Nat.mul_one,
    show N*M*(v*h) = N*v*(M*h) by ring] at hlength
  have hcover : M*h = cols := by
    by_contra hne
    have hlt : cols < M*h := by omega
    have := Nat.mul_lt_mul_of_le_of_lt hN hlt (by omega)
    omega
  have hcover' : N*v = rows := by
    rw [hcover] at hlength
    exact Nat.eq_of_mul_eq_mul_right hcols hlength
  refine ⟨hcover,hcover',?_⟩
  by_contra hshape
  obtain ⟨hv1,hM1⟩ := not_or.mp hshape
  have hMpos : 0 < M := Nat.pos_of_ne_zero fun h0 => by
    rw [h0,Nat.zero_mul] at hcover
    omega
  have hNpos : 0 < N := Nat.pos_of_ne_zero fun h0 => by
    rw [h0,Nat.zero_mul] at hcover'
    omega
  have hwide : h < cols := by
    have := Nat.mul_le_mul_right h (show 2 ≤ M by omega)
    omega
  have hindex : ((List.range (rows*cols)).flatMap (rasterBlock cols))[h]? =
      some (Event.block 0 h 0) := by
    rw [show (List.range (rows*cols)).flatMap (rasterBlock cols) = (List.range (rows*cols)).map
      fun i => Event.block 0 (i % cols) (i/cols) from (List.map_eq_flatMap).symm]
    have hlt : h < rows*cols := lt_of_lt_of_le hwide (Nat.le_mul_of_pos_left cols hrows)
    rw [List.getElem?_map,List.getElem?_range hlt,Option.map_some,Nat.mod_eq_of_lt hwide,
      Nat.div_eq_of_lt hwide]
  obtain ⟨rest,hrest⟩ := exists_second_row hh (by omega) hMpos hNpos (h := h) (v := v)
  rw [← heq,hrest,List.getElem?_append_right (by simp)] at hindex
  simp at hindex

def Event.isBlock : Event → Bool
  | .restart _ _ => false
  | .block _ _ _ => true

theorem filter_unitEvents {blocks : ℕ → List Event} (n : ℕ)
    (hblocks : ∀ i, ∀ e ∈ blocks i, e.isBlock = true) :
    ((List.range n).flatMap (unitEvents restart total blocks)).filter Event.isBlock =
      (List.range n).flatMap blocks := by
  rw [List.filter_flatMap]
  refine List.flatMap_congr fun i _ => ?_
  rw [unitEvents,List.filter_append,List.filter_eq_self.mpr (hblocks i)]
  split_ifs <;> rfl

theorem isBlock_mcuBlocks {i : ℕ} {e : Event} (he : e ∈ mcuBlocks h v M i) : e.isBlock = true := by
  obtain ⟨vy,-,he⟩ := List.mem_flatMap.mp he
  obtain ⟨vx,-,rfl⟩ := List.mem_map.mp he
  rfl

theorem isBlock_rasterBlock {i : ℕ} {e : Event} (he : e ∈ rasterBlock cols i) :
    e.isBlock = true := by
  rw [List.mem_singleton.mp he]
  rfl

/-- No restart is due within a scan that is no longer than the interval. -/
theorem unitEvents_of_short {blocks : ℕ → List Event} {i : ℕ}
    (h : restart = 0 ∨ i < restart) : unitEvents restart total blocks i = blocks i := by
  rw [unitEvents,if_neg,List.nil_append]
  rintro ⟨hpos,hi,hzero⟩
  rw [Nat.mod_eq_of_lt (by omega)] at hzero
  omega

/-- A restart tells how many units the scan has. -/
theorem total_of_mem {blocks : ℕ → List Event} {n current total' : ℕ}
    (hblocks : ∀ i, ∀ e ∈ blocks i, e.isBlock = true)
    (hmem : Event.restart current total' ∈
      (List.range n).flatMap (unitEvents restart total blocks)) : total' = total := by
  obtain ⟨i,-,he⟩ := List.mem_flatMap.mp hmem
  rcases List.mem_append.mp he with he | he
  · split_ifs at he
    · exact (Event.restart.inj (List.mem_singleton.mp he)).2
    · exact nomatch he
  · exact nomatch hblocks i _ he

theorem events_eq_iff (hh : 0 < h) (hv : 0 < v) (hcols : 0 < cols) (hrows : 0 < rows)
    (hM : cols ≤ M*h) (hN : rows ≤ N*v) :
    sequentialEvents h v M N restart = rasterEvents cols rows restart ↔
      M*h = cols ∧ N*v = rows ∧ (v = 1 ∨ M = 1) ∧
        (h = 1 ∧ v = 1 ∨ restart = 0 ∨ rows*cols ≤ restart) := by
  constructor
  · intro heq
    have hblocks := congrArg (List.filter Event.isBlock) heq
    rw [sequentialEvents,rasterEvents,filter_unitEvents _ fun _ _ => isBlock_mcuBlocks,
      filter_unitEvents _ fun _ _ => isBlock_rasterBlock,
      blocks_eq_iff hh hv hcols hrows hM hN] at hblocks
    refine ⟨hblocks.1,hblocks.2.1,hblocks.2.2,?_⟩
    by_contra hnot
    obtain ⟨hlarge,hshort⟩ := not_or.mp hnot
    obtain ⟨hrestart,hlt⟩ := not_or.mp hshort
    have hmem : Event.restart restart (rows*cols) ∈ rasterEvents cols rows restart := by
      refine List.mem_flatMap.mpr ⟨restart,List.mem_range.mpr (by omega),?_⟩
      refine List.mem_append_left _ ?_
      rw [if_pos ⟨by omega,by omega,Nat.mod_self _⟩]
      exact List.mem_singleton_self _
    rw [← heq] at hmem
    have htotal := total_of_mem (fun _ _ => isBlock_mcuBlocks) hmem
    have hcount : N*M*(v*h) = rows*cols := by
      rw [← hblocks.1,← hblocks.2.1]
      ring
    have hpos : 0 < rows*cols := Nat.mul_pos hrows hcols
    have hsize : 2 ≤ v*h := by
      by_contra hsmall
      have hone : v*h = 1 := by
        have := Nat.mul_pos hv hh
        omega
      exact hlarge ⟨Nat.eq_one_of_mul_eq_one_left hone,Nat.eq_one_of_mul_eq_one_right hone⟩
    have := Nat.mul_le_mul_left (N*M) hsize
    omega
  · rintro ⟨hwidth,hheight,hshape,hrestart⟩
    have hblocks := blocks_eq_of hwidth hheight hshape
    rcases hrestart with ⟨rfl,rfl⟩ | hshort
    · rw [Nat.mul_one] at hwidth hheight
      subst hwidth hheight
      refine List.flatMap_congr fun i _ => ?_
      rw [unitEvents,unitEvents,mcuBlocks,rasterBlock]
      simp
    · have hle : N*M ≤ rows*cols := by
        rw [← hwidth,← hheight]
        exact Nat.mul_le_mul (Nat.le_mul_of_pos_right N hv) (Nat.le_mul_of_pos_right M hh)
      have hseq : sequentialEvents h v M N restart =
          (List.range (N*M)).flatMap (mcuBlocks h v M) :=
        List.flatMap_congr fun i hi => unitEvents_of_short (by
          have := List.mem_range.mp hi
          omega)
      have hraster : rasterEvents cols rows restart =
          (List.range (rows*cols)).flatMap (rasterBlock cols) :=
        List.flatMap_congr fun i hi => unitEvents_of_short (by
          have := List.mem_range.mp hi
          omega)
      rw [hseq,hraster,hblocks]

end Orders

/-! ## The progressive decoder -/

theorem divCeil_covers {n d : ℕ} (hd : 0 < d) : divCeil n 8 ≤ divCeil n (8*d)*d := by
  rw [divCeil_le_iff (by decide)]
  have hcover : n ≤ divCeil n (8*d)*(8*d) := (divCeil_le_iff (by omega)).mp le_rfl
  calc n ≤ divCeil n (8*d)*(8*d) := hcover
    _ = divCeil n (8*d)*d*8 := by ring

theorem divCeil_mul_eq_iff {n d : ℕ} (hd : 0 < d) :
    divCeil n (8*d)*d = divCeil n 8 ↔ d ∣ divCeil n 8 := by
  constructor
  · intro h
    exact ⟨divCeil n (8*d),by rw [← h,Nat.mul_comm]⟩
  · rintro ⟨q,hq⟩
    refine Nat.le_antisymm ?_ (divCeil_covers hd)
    have hle : divCeil n (8*d) ≤ q := by
      rw [divCeil_le_iff (by omega)]
      have hcover : n ≤ divCeil n 8*8 := (divCeil_le_iff (by decide)).mp le_rfl
      rw [hq] at hcover
      calc n ≤ d*q*8 := hcover
        _ = q*(8*d) := by ring
    rw [hq,Nat.mul_comm d]
    exact Nat.mul_le_mul_right d hle

/-- The only component of the progressive plan. -/
def singleComponent (h v width height : ℕ) : PreparedProgressiveComponentPlan where
  h := h
  v := v
  blockCols := divCeil width (8*h)*h
  blockRows := divCeil height (8*v)*v
  sampleWidth := divCeil (width*h) h
  sampleHeight := divCeil (height*v) v

theorem prepareComponent_single (id h v width height : ℕ) :
    prepareComponent (singleFrame id h v width height) 0 =
      .ok (singleComponent h v width height) := by
  simp [prepareComponent,singleFrame,singleComponent,ParsedSof.maxH,ParsedSof.maxV]

/-- A component of the largest sampling has as many samples as the frame. -/
theorem codedBlocks_single {n d : ℕ} (hn : 0 < n) (hd : 0 < d) :
    min (max (divCeil (divCeil (n*d) d) 8) 1) (divCeil n (8*d)*d) = divCeil n 8 := by
  have hpos : 0 < divCeil n 8 := (lt_divCeil_iff (by decide)).mpr (by omega)
  rw [divCeil_mul_right n hd,Nat.max_eq_left hpos,
    Nat.min_eq_left (divCeil_covers hd)]

theorem divCeil_eight_le {n : ℕ} (hn : n < 2^16) : divCeil n 8 ≤ 2^13 :=
  (divCeil_le_iff (by decide)).mpr (by omega)

/-- The progressive decoder takes the scans of such a frame block by block. -/
theorem progressiveRaster {id h v width height : ℕ} (hh : 0 < h) (hv : 0 < v)
    (hwidth : 0 < width ∧ width < 2^16) (hheight : 0 < height ∧ height < 2^16) :
    ProgressiveRaster id h v width height := by
  intro T τ ρ resolve parsed plan hplan scan hscan hlength
  obtain ⟨hscans,-⟩ := buildProgressivePlan_ok hplan
  have hcomponents : plan.components = [singleComponent h v width height] := by
    obtain ⟨components,hcomponents,hrest⟩ := bind_eq_ok.mp hplan
    obtain ⟨prepared,-,hrest⟩ := bind_eq_ok.mp hrest
    cases hrest
    have hone : (List.range (singleFrame id h v width height).componentIds.length).mapM
        (prepareComponent (singleFrame id h v width height)) =
          .ok [singleComponent h v width height] := by
      show [0].mapM _ = _
      rw [List.mapM_cons,prepareComponent_single]
      rfl
    rw [hone] at hcomponents
    exact (Except.ok.inj hcomponents).symm
  obtain ⟨scanComponent,hsingle⟩ := List.length_eq_one_iff.mp hlength
  have hindex : scanComponent.componentIndex = 0 := by
    obtain ⟨p,-,hprepare⟩ := exists_related hscans hscan
    have hspec := (prepareScan_spec hprepare).1
    rw [hsingle] at hspec
    obtain ⟨component,-,hfind⟩ := exists_related hspec (List.mem_singleton_self scanComponent)
    rw [findComponentIndex,List.findIdx?_eq_some_iff_getElem] at hfind
    have hlt := hfind.1
    have hlen : (singleFrame id h v width height).componentIds.length = 1 := rfl
    omega
  have hcomponent : plan.singleComponent scan =
      .ok (scanComponent,singleComponent h v width height) := by
    rw [PreparedProgressivePlan.singleComponent,hsingle]
    show (plan.component scanComponent >>= _) = _
    rw [PreparedProgressivePlan.component,hindex,hcomponents]
    rfl
  have hcols : progressiveCodedBlockCols (singleComponent h v width height) = divCeil width 8 :=
    codedBlocks_single hwidth.1 hh
  have hrows : progressiveCodedBlockRows (singleComponent h v width height) = divCeil height 8 :=
    codedBlocks_single hheight.1 hv
  refine ⟨?_,singleComponent h v width height,scanComponent,by rw [hcomponents]; rfl,hsingle,?_⟩
  · rw [scanMcuCount,if_neg (by omega),hcomponent,Fallible.ok_bind]
    have hle := Nat.mul_le_mul (divCeil_eight_le hwidth.2) (divCeil_eight_le hheight.2)
    dsimp only
    rw [hcols,hrows,Nat.min_eq_left (by omega),Nat.mul_comm]
  · intro E mcuIndex
    rw [decodeProgressiveMcu,if_neg (by omega),hcomponent,← hcols]
    rfl

end J2kNative.SingleComponentScan
