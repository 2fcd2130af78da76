import J2kNative.AssembledTables
import J2kNative.ProgressiveScript

/-!
# Preparing an abbreviated tile

The assembled stream is accepted if it has the tables of its first scan and a frame header
with the expected dimensions. Where the frame header has none, they can be put in.
-/
namespace J2kNative.TableNormalization
open JpegSegmentIter BitReader Fallible EntropyScanners

structure JpegTilePrepareOptions where
  expectedDimensions : Option (ℕ × ℕ)
  duplicateTablePolicy : DuplicateTablePolicy
  repairZeroSofDimensions : Bool
  validateRestartMarkers : Bool

/-! ## Loops over the segments -/

inductive Flow (σ α : Type) where
  | next (s : σ)
  | stop (a : α)

/-- `for segment in iter_segments(input)`, with an early return. -/
def forSegments {σ α : Type} (visit : σ → JpegSegment → Except TableError (Flow σ α))
    (finish : σ → Except TableError α) : ℕ → JpegSegmentIter → σ → Except TableError α
  | 0, _, _ => .error (.internalInvariant "segments are longer than their input")
  | fuel+1, it, s => match it.next with
    | (none,_) => finish s
    | (some (.error error),_) => .error (.jpeg error)
    | (some (.ok segment),after) => do
      match ← visit s segment with
      | .next s => forSegments visit finish fuel after s
      | .stop a => .ok a

def inSegments {σ α : Type} (input : List ℕ)
    (visit : σ → JpegSegment → Except TableError (Flow σ α))
    (finish : σ → Except TableError α) (s : σ) : Except TableError α :=
  forSegments visit finish (input.length+2) (iterSegments input) s

/-! ## Frame and scan headers -/

def isSofMarker (marker : ℕ) : Bool :=
  (0xC0 ≤ marker && marker ≤ 0xC3) || (0xC5 ≤ marker && marker ≤ 0xC7) ||
    (0xC9 ≤ marker && marker ≤ 0xCB) || (0xCD ≤ marker && marker ≤ 0xCF)

structure JpegSofInfo where
  sofKind : SofKind
  dimensions : ℕ × ℕ
  componentIds : List ℕ
  quantTableIds : List ℕ
  deriving DecidableEq, Repr

def sofKindOf (marker bitDepth : ℕ) : Except TableError SofKind :=
  if marker = 0xC0 ∧ bitDepth = 8 then .ok .baseline8
  else if marker = 0xC1 ∧ bitDepth = 8 then .ok .extended8
  else if marker = 0xC1 ∧ bitDepth = 12 then .ok .extended12
  else if marker = 0xC2 ∧ bitDepth = 8 then .ok .progressive8
  else if marker = 0xC2 ∧ bitDepth = 12 then .ok .progressive12
  else if marker = 0xC3 ∧ 2 ≤ bitDepth ∧ bitDepth ≤ 16 then .ok .lossless
  else if marker = 0xC5 then .error (.unsupportedSof marker "DifferentialBaseline")
  else if marker = 0xC6 ∨ marker = 0xC7 then .error (.unsupportedSof marker "Hierarchical")
  else if 0xC9 ≤ marker ∧ marker ≤ 0xCB then .error (.unsupportedSof marker "ArithmeticCoding")
  else if 0xCD ≤ marker ∧ marker ≤ 0xCF then
    .error (.unsupportedSof marker "ArithmeticAndHierarchical")
  else .error (.unsupportedBitDepth bitDepth)

/-- The identifiers and the table selectors of the components, with their sampling factors
checked. -/
def parseSofComponents (payload : List ℕ) : List ℕ → Except TableError (List ℕ × List ℕ)
  | [] => .ok ([],[])
  | i :: rest => do
    let base := 6+i*3
    let samplingByte := byteAt payload (base+1)
    let h := samplingByte >>> 4
    let v := samplingByte &&& 0x0F
    if 1 ≤ h ∧ h ≤ 4 ∧ 1 ≤ v ∧ v ≤ 4 then do
      let (ids,quantTableIds) ← parseSofComponents payload rest
      .ok (byteAt payload base :: ids,byteAt payload (base+2) :: quantTableIds)
    else .error (.invalidSampling i h v)

def parseSofInfoAt (marker : ℕ) (payload : List ℕ) (payloadOffset : ℕ)
    (allowZeroDimensions : Bool) : Except TableError JpegSofInfo :=
  let len := payload.length
  if len < 8 then .error (.jpeg (.truncated (payloadOffset+len) (8-len)))
  else
    let height := byteAt payload 1*2^8+byteAt payload 2
    let width := byteAt payload 3*2^8+byteAt payload 4
    let componentCount := byteAt payload 5
    let expectedLen := 6+componentCount*3
    if len < expectedLen then .error (.jpeg (.truncated (payloadOffset+len) (expectedLen-len)))
    else do
      let sofKind ← sofKindOf marker (byteAt payload 0)
      if allowZeroDimensions = false ∧ (width = 0 ∨ height = 0) then
        .error (.zeroDimension width height)
      else if 65500 < width ∨ 65500 < height then .error (.dimensionOverflow width height)
      else if componentCount ≠ 1 ∧ componentCount ≠ 3 ∧ componentCount ≠ 4 then
        .error (.unsupportedComponentCount componentCount)
      else do
        let (componentIds,quantTableIds) ← parseSofComponents payload (List.range componentCount)
        .ok ⟨sofKind,(width,height),componentIds,quantTableIds⟩

def parseSofInfo (marker : ℕ) (payload : List ℕ) : Except TableError JpegSofInfo :=
  parseSofInfoAt marker payload 0 false

def parseSofInfoAllowingZeroDimensions (marker : ℕ) (payload : List ℕ) (payloadOffset : ℕ) :
    Except TableError JpegSofInfo := parseSofInfoAt marker payload payloadOffset true

def maxScanComponents : ℕ := 4

def parseScanComponents (payload : List ℕ) (offset : ℕ) :
    List ℕ → Except TableError (List ScanComponent)
  | [] => .ok []
  | i :: rest => do
    let base := 1+i*2
    let tdTa := byteAt payload (base+1)
    let dcTable := tdTa >>> 4
    let acTable := tdTa &&& 0x0F
    if 3 < dcTable ∨ 3 < acTable then
      .error (.jpeg (.invalidSegmentLength (offset+base+1) 0xDA ((payload.length+2)%2^16)))
    else do
      let components ← parseScanComponents payload offset rest
      .ok (⟨byteAt payload base,dcTable,acTable⟩ :: components)

def parseScanHeader (payload : List ℕ) (offset : ℕ) : Except TableError ParsedScan :=
  if payload = [] then .error (.jpeg (.invalidSegmentLength offset 0xDA 2))
  else
    let ns := byteAt payload 0
    if payload.length ≠ 1+ns*2+3 then
      .error (.jpeg (.invalidSegmentLength offset 0xDA ((payload.length+2)%2^16)))
    else if maxScanComponents < ns then .error (.unsupportedComponentCount ns)
    else do
      let components ← parseScanComponents payload offset (List.range ns)
      let last := 1+ns*2
      let ahal := byteAt payload (last+2)
      .ok ⟨components,byteAt payload last,byteAt payload (last+1),ahal >>> 4,ahal &&& 0x0F⟩

/-! ## Tables of the first scan -/

/-- The tables that were defined have all that the scan refers to. -/
def satisfiesScan (tables : List TableKey) (sof : JpegSofInfo) (scan : ParsedScan) : Bool :=
  scan.components.all fun component => match sof.componentIds.idxOf? component.id with
    | none => true
    | some componentIndex =>
      let quantPresent := sof.sofKind = .lossless || match sof.quantTableIds[componentIndex]? with
        | none => false
        | some id => tables.contains (.quant id)
      let dcPresent := tables.contains (.huffmanDc component.dcTable)
      let acPresent := tables.contains (.huffmanAc component.acTable)
      match sof.sofKind with
      | .lossless => dcPresent
      | .progressive8 | .progressive12 =>
        if scan.ss = 0 then quantPresent && dcPresent else quantPresent && acPresent
      | .baseline8 | .extended8 | .extended12 => quantPresent && dcPresent && acPresent

def streamHasCompleteCodingTables (input : List ℕ) : Except TableError Bool :=
  inSegments input (fun (state : List TableKey × Option JpegSofInfo) segment =>
    if isTable segment.marker then do
      let tables ← forEachTableDefinition segment.marker segment.payload segment.payloadOffset
        (fun tables definition => .ok (definition.key :: tables)) state.1
      .ok (.next (tables,state.2))
    else if isSofMarker segment.marker then do
      let sof ← parseSofInfoAllowingZeroDimensions segment.marker segment.payload
        segment.payloadOffset
      .ok (.next (state.1,some sof))
    else if segment.marker = 0xDA then match state.2 with
      | none => .ok (.stop true)
      | some sof => do
        let scan ← parseScanHeader segment.payload segment.payloadOffset
        .ok (.stop (satisfiesScan state.1 sof scan))
    else .ok (.next state)) (fun _ => .ok true) ([],none)

/-! ## Dimensions and scan data -/

structure SofDimensionRepair where
  payloadOffset : ℕ
  dimensions : ℕ × ℕ
  deriving DecidableEq, Repr

/-- One segment before the first scan: the state says whether a frame header was seen. -/
def repairOfSegment (opts : JpegTilePrepareOptions) (sawSof : Bool) (segment : JpegSegment) :
    Except TableError (Flow Bool (Option SofDimensionRepair)) :=
  if segment.marker = 0xDA then
    if sawSof then .ok (.stop none) else .error (.missingMarker "SOF")
  else if isSofMarker segment.marker then do
    let sof ← parseSofInfoAllowingZeroDimensions segment.marker segment.payload
      segment.payloadOffset
    if sof.dimensions.1 = 0 ∨ sof.dimensions.2 = 0 then match opts.expectedDimensions with
      | none => .error (.expectedDimensionsRequired segment.markerOffset)
      | some expected =>
        if opts.repairZeroSofDimensions = false then
          .error (.zeroDimension sof.dimensions.1 sof.dimensions.2)
        else if expected.1 = 0 ∨ expected.2 = 0 then
          .error (.zeroDimension expected.1 expected.2)
        else .ok (.stop (some ⟨segment.payloadOffset,expected⟩))
    else match opts.expectedDimensions with
      | none => .ok (.next true)
      | some expected =>
        if expected ≠ sof.dimensions then
          .error (.conflictingExpectedDimensions segment.markerOffset expected sof.dimensions)
        else .ok (.next true)
  else .ok (.next sawSof)

def plannedDimensionRepair (bytes : List ℕ) (opts : JpegTilePrepareOptions) :
    Except TableError (Option SofDimensionRepair) :=
  inSegments bytes (repairOfSegment opts)
    (fun sawSof => if sawSof then .ok none else .error (.missingMarker "SOF")) false

def applyDimensionRepair (bytes : List ℕ) (repair : SofDimensionRepair) : List ℕ :=
  (((bytes.set (repair.payloadOffset+1) (repair.dimensions.2/2^8)).set (repair.payloadOffset+2)
    (repair.dimensions.2%2^8)).set (repair.payloadOffset+3) (repair.dimensions.1/2^8)).set
    (repair.payloadOffset+4) (repair.dimensions.1%2^8)

def validateNonzeroSofDimensions (bytes : List ℕ) (opts : JpegTilePrepareOptions) :
    Except TableError Unit :=
  inSegments bytes (fun sawSof segment =>
    if isSofMarker segment.marker then do
      let sof ← parseSofInfo segment.marker segment.payload
      match opts.expectedDimensions with
      | none => .ok (.next true)
      | some expected =>
        if expected ≠ sof.dimensions then
          .error (.conflictingExpectedDimensions segment.markerOffset expected sof.dimensions)
        else .ok (.next true)
    else .ok (.next sawSof))
    (fun sawSof => if sawSof then .ok () else .error (.missingMarker "SOF")) false

structure JpegScanRanges where
  sosMarkerOffset : ℕ
  sosPayloadStart : ℕ
  entropyStart : ℕ
  entropyEnd : ℕ
  eoiMarkerOffset : Option ℕ
  deriving DecidableEq, Repr

def findScanRanges (input : List ℕ) : Except TableError JpegScanRanges :=
  inSegments input (fun (_ : Unit) segment =>
    if segment.marker = 0xDA then
      let entropyStart := segmentEnd segment
      match nextMarkerAfterEntropy input entropyStart with
      | .error error => .error (.jpeg error)
      | .ok none => .ok (.stop ⟨segment.markerOffset,segment.payloadOffset,entropyStart,
          input.length,none⟩)
      | .ok (some (markerOffset,marker)) => .ok (.stop ⟨segment.markerOffset,
          segment.payloadOffset,entropyStart,markerOffset,
          if marker = 0xD9 then some markerOffset else none⟩)
    else .ok (.next ())) (fun _ => .error (.missingMarker "SOS")) ()

/-- The restart markers of the entropy data, before `stop`, come in order. -/
def restartLoop (bytes : List ℕ) (stop : ℕ) : ℕ → ℕ → ℕ → Except TableError Unit
  | 0, _, _ => .ok ()
  | fuel+1, expected, start =>
    match ((bytes.take stop).drop start).findIdx? (· == 0xFF) with
    | none => .ok ()
    | some relative =>
      let markerPos := afterFill (bytes.take stop) (start+relative+1)
      if stop ≤ markerPos then .error (.jpeg (.truncated (start+relative) 1))
      else
        let marker := byteAt bytes markerPos
        if marker = 0 then restartLoop bytes stop fuel expected (markerPos+1)
        else if 0xD0 ≤ marker ∧ marker ≤ 0xD7 then
          if marker &&& 0x07 ≠ expected then
            .error (.jpeg (.restartMismatch (markerPos-1) expected marker))
          else restartLoop bytes stop fuel ((expected+1) &&& 0x07) (markerPos+1)
        else if marker = 0xD9 then .ok ()
        else .error (.jpeg (.unexpectedMarker (markerPos-1) .eoi marker))

def validateRestartMarkers (bytes : List ℕ) : Except TableError Unit := do
  let ranges ← findScanRanges bytes
  restartLoop bytes ranges.entropyEnd (ranges.entropyEnd+1) 0 ranges.entropyStart

/-- The bytes with the repair that is planned, if any. -/
def repairedBytes (bytes : List ℕ) (opts : JpegTilePrepareOptions) :
    Option SofDimensionRepair → Except TableError (List ℕ)
  | none => .ok bytes
  | some repair => do
    let _ ← validateNonzeroSofDimensions (applyDimensionRepair bytes repair) opts
    .ok (applyDimensionRepair bytes repair)

def finalizeOwnedPreparedBytes (bytes : List ℕ) (opts : JpegTilePrepareOptions) :
    Except TableError (List ℕ) := do
  let repair ← plannedDimensionRepair bytes opts
  let bytes ← repairedBytes bytes opts repair
  let _ ← findScanRanges bytes
  if opts.validateRestartMarkers then do
    let _ ← validateRestartMarkers bytes
    .ok bytes
  else .ok bytes

def assembleAbbreviatedTile (tile : List ℕ) (tables : Option (List ℕ))
    (opts : JpegTilePrepareOptions) : Except TableError (List ℕ) :=
  match tables with
  | none => .error (.invalidJpegAssembly 0 "abbreviated JPEG tile requires JPEGTables")
  | some tables => do
    let out ← assembledStream opts.duplicateTablePolicy tables tile
    let complete ← streamHasCompleteCodingTables out
    if complete then finalizeOwnedPreparedBytes out opts
    else .error (.invalidJpegAssembly 0
      "supplied JPEGTables does not define every coding table required by the tile")

/-! ## What a prepared tile keeps -/

/-- A loop that succeeds has gone through all segments, or was left at one. -/
theorem forSegments_eq_ok {σ α : Type} {visit : σ → JpegSegment → Except TableError (Flow σ α)}
    {finish : σ → Except TableError α} {fuel : ℕ} {it : JpegSegmentIter} {s : σ} {a : α}
    (h : forSegments visit finish fuel it s = .ok a) : (∃ s', finish s' = .ok a) ∨
      ∃ segments it' segment s', Reads it (segments++[segment]) it' ∧
        visit s' segment = .ok (.stop a) := by
  induction fuel generalizing it s with
  | zero => cases h
  | succ fuel ih =>
      unfold forSegments at h
      split at h
      · exact .inl ⟨s,h⟩
      · cases h
      next segment after hnext =>
        obtain ⟨flow,hvisit,h⟩ := bind_eq_ok.mp h
        cases flow with
        | stop a' =>
            cases h
            exact .inr ⟨[],after,segment,s,.cons hnext (.nil after),hvisit⟩
        | next s₁ =>
            rcases ih h with hfinish | ⟨segments,it',segment',s',hreads,hstop⟩
            · exact .inl hfinish
            · exact .inr ⟨segment :: segments,it',segment',s',.cons hnext hreads,hstop⟩

/-- The length of the input is fuel enough. -/
theorem forSegments_fuel {σ α : Type} {visit : σ → JpegSegment → Except TableError (Flow σ α)}
    {finish : σ → Except TableError α} {input : List ℕ} {fuel : ℕ} {it : JpegSegmentIter} {s : σ}
    (h : AtMost input fuel it) (more : ℕ) :
    forSegments visit finish (fuel+more) it s = forSegments visit finish fuel it s := by
  induction fuel generalizing it s with
  | zero => exact absurd h not_atMost_zero
  | succ fuel ih =>
      rw [Nat.succ_add,forSegments,forSegments]
      split
      · rfl
      · rfl
      next segment after hnext =>
        have hafter := next_atMost h hnext
        refine bind_congr fun flow => ?_
        cases flow with
        | next s₁ => exact ih hafter
        | stop a => rfl

/-- A repair puts the expected dimensions into a frame header without dimensions. -/
def Repairs (opts : JpegTilePrepareOptions) (out prepared : List ℕ) : Prop :=
  ∃ segments it segment expected sof, opts.repairZeroSofDimensions = true ∧
    opts.expectedDimensions = some expected ∧
    Reads (iterSegments out) (segments++[segment]) it ∧ isSofMarker segment.marker = true ∧
    parseSofInfoAllowingZeroDimensions segment.marker segment.payload segment.payloadOffset =
      .ok sof ∧ (sof.dimensions.1 = 0 ∨ sof.dimensions.2 = 0) ∧
    prepared = applyDimensionRepair out ⟨segment.payloadOffset,expected⟩

theorem repairOfSegment_stop {opts : JpegTilePrepareOptions} {sawSof : Bool}
    {segment : JpegSegment} {repair : SofDimensionRepair}
    (h : repairOfSegment opts sawSof segment = .ok (.stop (some repair))) :
    ∃ expected sof, opts.repairZeroSofDimensions = true ∧
      opts.expectedDimensions = some expected ∧ isSofMarker segment.marker = true ∧
      parseSofInfoAllowingZeroDimensions segment.marker segment.payload segment.payloadOffset =
        .ok sof ∧ (sof.dimensions.1 = 0 ∨ sof.dimensions.2 = 0) ∧
      repair = ⟨segment.payloadOffset,expected⟩ := by
  unfold repairOfSegment at h
  by_cases hscan : segment.marker = 0xDA
  · rw [if_pos hscan] at h
    split_ifs at h
    cases h
  rw [if_neg hscan] at h
  by_cases hsof : isSofMarker segment.marker = true
  · rw [if_pos hsof] at h
    obtain ⟨sof,hparse,h⟩ := bind_eq_ok.mp h
    by_cases hzero : sof.dimensions.1 = 0 ∨ sof.dimensions.2 = 0
    · rw [if_pos hzero] at h
      cases hexpected : opts.expectedDimensions with
      | none =>
          rw [hexpected] at h
          cases h
      | some expected =>
          rw [hexpected] at h
          dsimp only at h
          split_ifs at h with hrepair hnone
          cases h
          exact ⟨expected,sof,Bool.not_eq_false _ ▸ hrepair,rfl,hsof,hparse,hzero,rfl⟩
    · rw [if_neg hzero] at h
      cases hexpected : opts.expectedDimensions with
      | none =>
          rw [hexpected] at h
          cases h
      | some expected =>
          rw [hexpected] at h
          dsimp only at h
          split_ifs at h
          cases h
  · rw [if_neg hsof] at h
    cases h

/-- The tile that is prepared is the assembled stream, but for a repair. -/
theorem finalizeOwnedPreparedBytes_eq_ok {opts : JpegTilePrepareOptions} {out prepared : List ℕ}
    (h : finalizeOwnedPreparedBytes out opts = .ok prepared) :
    prepared = out ∨ Repairs opts out prepared := by
  obtain ⟨repair,hrepair,h⟩ := bind_eq_ok.mp h
  obtain ⟨bytes,hbytes,h⟩ := bind_eq_ok.mp h
  obtain ⟨ranges,_,h⟩ := bind_eq_ok.mp h
  obtain rfl : bytes = prepared := by
    split_ifs at h
    · obtain ⟨_,_,h⟩ := bind_eq_ok.mp h
      exact Except.ok.inj h
    · exact Except.ok.inj h
  cases repair with
  | none =>
      cases hbytes
      exact .inl rfl
  | some repair =>
      obtain ⟨_,_,hbytes⟩ := bind_eq_ok.mp hbytes
      obtain rfl := Except.ok.inj hbytes
      rcases forSegments_eq_ok hrepair with ⟨sawSof,hfinish⟩ |
        ⟨segments,it,segment,sawSof,hreads,hstop⟩
      · split_ifs at hfinish
        cases hfinish
      · obtain ⟨expected,sof,h1,h2,h3,h4,h5,rfl⟩ := repairOfSegment_stop hstop
        exact .inr ⟨segments,it,segment,expected,sof,h1,h2,hreads,h3,h4,h5,rfl⟩

/-- An abbreviated tile with shared tables: the assembled stream has the tables of the shared
stream once, the tile body behind them and the planned length, and the prepared tile is this
stream, but for dimensions that were missing. -/
theorem abbreviated_tile_preserved {tables tile prepared : List ℕ} {opts : JpegTilePrepareOptions}
    (hpolicy : opts.duplicateTablePolicy = .allowIdentical)
    (h : assembleAbbreviatedTile tile (some tables) opts = .ok prepared) :
    ∃ body out original assembled tableBytes, normalizedAbbreviatedTileBody tile = .ok body ∧
      Preserves tables body out original assembled tableBytes ∧
      (prepared = out ∨ Repairs opts out prepared) := by
  unfold assembleAbbreviatedTile at h
  rw [hpolicy] at h
  obtain ⟨out,hout,h⟩ := bind_eq_ok.mp h
  obtain ⟨complete,_,h⟩ := bind_eq_ok.mp h
  split_ifs at h
  obtain ⟨body,original,assembled,tableBytes,hbody,hpreserves⟩ := assembledStream_spec hout
  exact ⟨body,out,original,assembled,tableBytes,hbody,hpreserves,
    finalizeOwnedPreparedBytes_eq_ok h⟩

/-! ## A tile without dimensions -/

/-- A Huffman table without codes. -/
def emptyDcTable : List ℕ := List.replicate 17 0

/-- A shared stream with one table twice. -/
def repeatedTables : List ℕ :=
  [0xFF,0xD8,0xFF,0xC4,0,36]++emptyDcTable++emptyDcTable++[0xFF,0xD9]

/-- The header of a lossless frame of some height and width, and a scan without data. -/
def losslessTile (height width : ℕ) : List ℕ :=
  [0xFF,0xC3,0,11,8,0,height,0,width,1,1,0x11,0,0xFF,0xDA,0,8,1,1,0,1,0,0]

def repairOptions : JpegTilePrepareOptions := ⟨some (16,8),.allowIdentical,true,false⟩

def assembledTile (height width : ℕ) : List ℕ :=
  [0xFF,0xD8,0xFF,0xC4,0,19]++emptyDcTable++losslessTile height width++[0xFF,0xD9]

/-- A turn at a segment that is not the last. -/
theorem forSegments_next {σ α : Type} {visit : σ → JpegSegment → Except TableError (Flow σ α)}
    {finish : σ → Except TableError α} {fuel : ℕ} {it after : JpegSegmentIter} {s : σ}
    {segment : JpegSegment} (s' : σ) (h : it.next = (some (.ok segment),after))
    (hvisit : visit s segment = .ok (.next s')) :
    forSegments visit finish (fuel+1) it s = forSegments visit finish fuel after s' := by
  rw [forSegments,h]
  dsimp only
  rw [hvisit]
  rfl

set_option maxRecDepth 8000 in
theorem assemble_without_dimensions :
    assembleAbbreviatedTile (losslessTile 0 0) (some repeatedTables) repairOptions =
      .ok (assembledTile 8 16) := by
  have hout : assembledStream .allowIdentical repeatedTables (losslessTile 0 0) =
      .ok (assembledTile 0 0) := rfl
  have hcomplete : streamHasCompleteCodingTables (assembledTile 0 0) = .ok true := rfl
  have hplan : plannedDimensionRepair (assembledTile 0 0) repairOptions =
      .ok (some ⟨27,(16,8)⟩) := rfl
  have happly : applyDimensionRepair (assembledTile 0 0) ⟨27,(16,8)⟩ = assembledTile 8 16 := rfl
  have hmarker : nextMarkerAfterEntropy (assembledTile 8 16) 46 = .ok (some (46,0xD9)) :=
    nextMarkerAfterEntropy_unfilled (by decide) rfl (by decide)
  have hfuel : (assembledTile 8 16).length+2 = 46+1+1+1+1 := rfl
  have hsoi : (iterSegments (assembledTile 8 16)).next =
      (some (.ok ⟨0xD8,0,2,[]⟩),atMarker (assembledTile 8 16) 2) := rfl
  have hdht : (atMarker (assembledTile 8 16) 2).next =
      (some (.ok ⟨0xC4,2,6,emptyDcTable⟩),atMarker (assembledTile 8 16) 23) := rfl
  have hsof : (atMarker (assembledTile 8 16) 23).next =
      (some (.ok ⟨0xC3,23,27,[8,0,8,0,16,1,1,0x11,0]⟩),atMarker (assembledTile 8 16) 36) := rfl
  have hsos : (atMarker (assembledTile 8 16) 36).next =
      (some (.ok ⟨0xDA,36,40,[1,1,0,1,0,0]⟩),atEntropy (assembledTile 8 16) 46) := rfl
  have hvalid : validateNonzeroSofDimensions (assembledTile 8 16) repairOptions = .ok () := by
    rw [validateNonzeroSofDimensions,inSegments,hfuel]
    refine (forSegments_next false hsoi ?_).trans
      ((forSegments_next false hdht ?_).trans
      ((forSegments_next true hsof ?_).trans
      ((forSegments_next true hsos ?_).trans ?_)))
    · rfl
    · rfl
    · rfl
    · rfl
    · rw [forSegments,next_atEntropy,hmarker]
      rfl
  have hranges : findScanRanges (assembledTile 8 16) = .ok ⟨36,40,46,46,some 46⟩ := by
    rw [findScanRanges,inSegments,hfuel]
    refine (forSegments_next () hsoi ?_).trans
      ((forSegments_next () hdht ?_).trans
      ((forSegments_next () hsof ?_).trans ?_))
    · rfl
    · rfl
    · rfl
    · rw [forSegments,hsos]
      dsimp only [segmentEnd,List.length_cons,List.length_nil]
      rw [if_pos rfl,hmarker]
      rfl
  unfold assembleAbbreviatedTile
  dsimp only [repairOptions] at hplan hvalid ⊢
  rw [hout,ok_bind,hcomplete,ok_bind,if_pos rfl,finalizeOwnedPreparedBytes,hplan,ok_bind,
    repairedBytes,happly,hvalid,ok_bind,ok_bind,hranges]
  rfl

/-- Where the dimensions are put in, the tile body is not kept byte for byte. -/
theorem tile_body_repaired :
    assembleAbbreviatedTile (losslessTile 0 0) (some repeatedTables) repairOptions =
      .ok (assembledTile 8 16) ∧
    normalizedAbbreviatedTileBody (losslessTile 0 0) = .ok (losslessTile 0 0) ∧
    ∀ tableBytes, assembledTile 8 16 ≠
      [0xFF,0xD8]++tableBytes++losslessTile 0 0++[0xFF,0xD9] := by
  refine ⟨assemble_without_dimensions,rfl,fun tableBytes heq => ?_⟩
  have hlength := congrArg List.length heq
  have hfront : ([0xFF,0xD8]++tableBytes).length = 23 := by
    rw [List.append_assoc _ (losslessTile 0 0),List.length_append] at hlength
    change 48 = ([0xFF,0xD8]++tableBytes).length+25 at hlength
    omega
  have hdrop := congrArg (List.drop 23) heq
  rw [List.append_assoc _ (losslessTile 0 0),List.drop_left' hfront] at hdrop
  exact absurd hdrop (by decide)

theorem tile_without_dimensions_preserved : ∃ body out original assembled tableBytes,
    normalizedAbbreviatedTileBody (losslessTile 0 0) = .ok body ∧
    Preserves repeatedTables body out original assembled tableBytes ∧
    (assembledTile 8 16 = out ∨ Repairs repairOptions out (assembledTile 8 16)) :=
  abbreviated_tile_preserved rfl assemble_without_dimensions

end J2kNative.TableNormalization
