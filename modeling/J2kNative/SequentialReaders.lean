import J2kNative.BlockVariants
import J2kNative.ScanFinish
import J2kNative.SingleComponentScan

/-!
# Sequential scans over the bit reader

The passes of the sequential decoders with a bit reader in their state: a marker and a
block are read by steps of the reader, whichever decoder takes the block. What both of
them keep a whole scan keeps, so every sequential scan is made of the reader's steps.
-/
namespace J2kNative.SequentialReaders

open BlockVariants Fallible ScanFinish SingleComponentScan

/-! ## What a scan keeps -/

section
variable {σ : Type}

/-- A property of the state that neither a restart nor a block changes. -/
structure Kept (A : ScanActions σ) (P : σ → Prop) : Prop where
  consumeRestart : ∀ current total s t, P s → A.consumeRestart current total s = .ok t → P t
  block : ∀ component x y s t, P s → A.block component x y s = .ok t → P t

namespace Kept
variable {A : ScanActions σ} {P : σ → Prop}

theorem consumeRestartMarkerIfDue (h : Kept A P) {restart current total : ℕ} {s t : ℕ × σ}
    (hs : P s.2) (hrun : consumeRestartMarkerIfDue A restart current total s = .ok t) : P t.2 := by
  unfold SingleComponentScan.consumeRestartMarkerIfDue at hrun
  split_ifs at hrun
  · rw [← Except.ok.inj hrun]
    exact hs
  · obtain ⟨u,hu,hrun⟩ := bind_eq_ok.mp hrun
    rw [← Except.ok.inj hrun]
    exact h.consumeRestart current total s.2 u hs hu

theorem decodeMcu (h : Kept A P) {components : List PreparedComponentPlan} {mcuX mcuY : ℕ}
    {s t : σ} (hs : P s) (hrun : decodeMcu A components mcuX mcuY s = .ok t) : P t := by
  refine foldlM_invariant (fun component _ s s' hs hrun => ?_) hs hrun
  refine foldlM_invariant (fun vy _ s s' hs hrun => ?_) hs hrun
  exact foldlM_invariant (fun vx _ s s' hs hrun => h.block _ _ _ s s' hs hrun) hs hrun

theorem decodeMcuRow (h : Kept A P) {plan : PreparedDecodePlan} {mcuY : ℕ} {s t : ℕ × σ}
    (hs : P s.2) (hrun : decodeMcuRow A plan mcuY s = .ok t) : P t.2 := by
  refine @foldlM_invariant _ _ _ _ (fun s : ℕ × σ => P s.2) _ (fun mx _ s s' hs hturn => ?_) _ _ hs
    hrun
  obtain ⟨u,hdue,hturn⟩ := bind_eq_ok.mp hturn
  obtain ⟨v,hmcu,hturn⟩ := bind_eq_ok.mp hturn
  rw [← Except.ok.inj hturn]
  exact h.decodeMcu (h.consumeRestartMarkerIfDue hs hdue) hmcu

theorem decodeScanRows (h : Kept A P) {plan : PreparedDecodePlan} {s t : σ} (hs : P s)
    (hrun : decodeScanRows A plan s = .ok t) : P t := by
  obtain ⟨u,hrows,hrun⟩ := bind_eq_ok.mp hrun
  rw [← Except.ok.inj hrun]
  exact @foldlM_invariant _ _ _ _ (fun s : ℕ × σ => P s.2) _
    (fun mcuY _ s s' hs hrow => h.decodeMcuRow hs hrow) _ _ hs hrows

theorem decodeExtended12Mcu (h : Kept A P) {component : PreparedComponentPlan}
    {mcuCols mcuY mcuX : ℕ} {s t : Extended12RestartTracker × σ} (hs : P s.2)
    (hrun : decodeExtended12Mcu A component mcuCols mcuY mcuX s = .ok t) : P t.2 := by
  obtain ⟨u,hbegin,hrun⟩ := bind_eq_ok.mp hrun
  obtain ⟨v,hblock,hrun⟩ := bind_eq_ok.mp hrun
  rw [← Except.ok.inj hrun]
  refine h.block _ _ _ u.2 v ?_ hblock
  unfold Extended12RestartTracker.beginMcu at hbegin
  split_ifs at hbegin
  · obtain ⟨w,hw,hbegin⟩ := bind_eq_ok.mp hbegin
    rw [← Except.ok.inj hbegin]
    exact h.consumeRestart _ _ s.2 w hs hw
  · rw [← Except.ok.inj hbegin]
    exact hs

theorem decodeExtended12Region (h : Kept A P) {kind : SofKind} {plan : PreparedDecodePlan}
    {s t : σ} (hs : P s) (hrun : decodeExtended12Region A kind plan s = .ok t) : P t := by
  unfold SingleComponentScan.decodeExtended12Region at hrun
  split_ifs at hrun
  split at hrun
  · obtain ⟨u,hrows,hrun⟩ := bind_eq_ok.mp hrun
    rw [← Except.ok.inj hrun]
    refine @foldlM_invariant _ _ _ _ (fun s : Extended12RestartTracker × σ => P s.2) _
      (fun mcuY _ s s' hs hrow => ?_) _ _ hs hrows
    exact @foldlM_invariant _ _ _ _ (fun s : Extended12RestartTracker × σ => P s.2) _
      (fun mcuX _ s s' hs hmcu => h.decodeExtended12Mcu hs hmcu) _ _ hs hrow
  · exact nomatch hrun

/-- What neither a restart nor a block changes, no pass over a scan changes. -/
theorem decodeScan (h : Kept A P) {kind : SofKind} {plan : PreparedDecodePlan}
    {output : Option OutputFormat} {s t : σ} (hs : P s)
    (hrun : decodeScan A kind plan output s = .ok t) : P t := by
  cases output with
  | none => exact h.decodeScanRows hs hrun
  | some fmt =>
      cases fmt with
      | rgb8 => exact h.decodeScanRows hs hrun
      | rgba8 _ => exact h.decodeScanRows hs hrun
      | gray8 => exact h.decodeScanRows hs hrun
      | rgb16 => exact h.decodeExtended12Region hs hrun
      | gray16 => exact h.decodeExtended12Region hs hrun
      | rgba16 _ =>
          change (if kind = .extended12 then _ else _) = _ at hrun
          split_ifs at hrun
          exact h.decodeExtended12Region hs hrun

end Kept
end

/-! ## Codes and blocks -/

section
variable {bytes : List ℕ} {start : ℕ} {r r' : BitReader} (table : HuffmanTable)

theorem steps_decodeUnpacked (next : ℕ) : Steps (table.decodeUnpacked next) :=
  Steps.ite ((steps_consumeBits _).bind fun _ => steps_pure _) (steps_decode table)

theorem steps_decodeFastAc : Steps table.decodeFastAc :=
  (steps_ensureBitsPadded fastBits).bind fun _ => (steps_peek fastBits).bind fun _ =>
    Steps.ite ((steps_consumeBits _).bind fun _ => steps_pure _)
      ((steps_decodeUnpacked table _).bind fun _ => Steps.ite (steps_pure _)
        ((steps_receiveExtend _).bind fun _ => steps_pure _))

theorem steps_skipFastAc : Steps table.skipFastAc :=
  (steps_ensureBitsPadded fastBits).bind fun _ => (steps_peek fastBits).bind fun _ =>
    Steps.ite ((steps_consumeBits _).bind fun _ => steps_pure _)
      ((steps_decodeUnpacked table _).bind fun _ => Steps.ite (steps_pure _)
        ((steps_ensureBits _).bind fun _ => (steps_consumeBits _).bind fun _ => steps_pure _))

variable {σ : Type} {skipValues : Bool} {dcTable acTable : HuffmanTable}

/-- The loop over the AC codes of a block that succeeds. -/
theorem reached_driveAcFast {onValue : ℕ → ℕ → σ → σ} {k : ℕ} {s : σ} (h : Reached bytes start r)
    (hrun : (driveAcFast skipValues acTable onValue k s r).2 = .ok r') :
    ∃ start', Reached bytes start' r' := by
  have hread : Steps (readAc skipValues acTable) := by
    cases skipValues
    · exact steps_decodeFastAc acTable
    · exact steps_skipFastAc acTable
  unfold readAc at hread
  induction hn : 64-k using Nat.strong_induction_on generalizing k s start r with
  | _ n ih =>
      rw [driveAcFast] at hrun
      by_cases hend : 64 ≤ k
      · rw [if_pos hend] at hrun
        exact ⟨start,Except.ok.inj hrun ▸ h⟩
      rw [if_neg hend] at hrun
      cases hcode : (if skipValues then acTable.skipFastAc else acTable.decodeFastAc) r with
      | error e =>
          rw [hcode] at hrun
          cases hrun
      | ok p =>
          rw [hcode] at hrun
          obtain ⟨start',hreached⟩ := hread bytes start r p.1 p.2 h hcode
          dsimp only at hrun
          split_ifs at hrun
          · exact ⟨start',Except.ok.inj hrun ▸ hreached⟩
          · exact ih (64-(k+16)) (by omega) hreached hrun rfl
          · exact ih (64-(k+acDecodedRun p.1+1)) (by omega) hreached hrun rfl

theorem reached_decodeWith {prevDc : ℤ} {s : σ} {storeDc : ℤ → σ → σ} {onValue : ℕ → ℕ → σ → σ}
    (h : Reached bytes start r)
    (hrun : (decodeWith skipValues dcTable acTable prevDc s storeDc onValue r).result = .ok r') :
    ∃ start', Reached bytes start' r' := by
  unfold decodeWith at hrun
  cases hdc : dcTable.decodeFastDc r with
  | error e =>
      rw [hdc] at hrun
      exact nomatch hrun
  | ok p =>
      rw [hdc] at hrun
      obtain ⟨start',hreached⟩ := steps_decodeFastDc dcTable bytes start r p.1 p.2 h hdc
      exact reached_driveAcFast hreached hrun

/-- Every decoder of a block takes steps of the reader. -/
theorem reached_decode (variant : BlockVariant) {prevDc : ℤ} {quant : ℕ → ℕ}
    {block other : CoefficientBlock} (h : Reached bytes start r)
    (hrun : (variant.decode dcTable acTable prevDc quant block other r).result = .ok r') :
    ∃ start', Reached bytes start' r' := by
  cases variant with
  | plain =>
      exact reached_decodeWith h
        (show (decodeBlockWithActivity dcTable acTable prevDc quant block r).result = _ from hrun)
  | withActivity => exact reached_decodeWith h hrun
  | dequantizedInto => exact reached_decodeWith h hrun
  | quantized => exact reached_decodeWith h hrun
  | dequantized => exact reached_decodeWith h hrun
  | withDcStatus => exact reached_decodeWith h hrun
  | reducedIdct keep => exact reached_decodeWith h hrun
  | idct1x1 => exact reached_decodeWith h hrun
  | skip => exact reached_decodeWith h hrun

end

/-! ## Scans -/

/-- A sequential decoder in a scan: the reader, the marker expected next, the predictors, and the
coefficients of the blocks so far. -/
structure SequentialState where
  reader : BitReader
  expectedRst : ℕ
  prevDc : ℕ → ℤ
  blocks : List (ℕ → ℤ)

/-- The actions over a reader; the decoder of a block may depend on its place. -/
def readerActions (dcTables acTables : ℕ → HuffmanTable) (quants : ℕ → ℕ → ℕ)
    (variant : ℕ → ℕ → ℕ → BlockVariant) : ScanActions SequentialState where
  consumeRestart current total s := do
    let (expectedRst,reader) ← BitReader.consumeRestartMarker s.expectedRst current total s.reader
    .ok ⟨reader,expectedRst,fun _ => 0,s.blocks⟩
  block component x y s :=
    let decoded := (variant component x y).decode (dcTables component) (acTables component)
      (s.prevDc component) (quants component) default default s.reader
    do
      let reader ← decoded.result
      .ok ⟨reader,s.expectedRst,Function.update s.prevDc component decoded.prevDc,
        s.blocks ++ [decoded.coeffs]⟩

/-- A scan from its first bit on: the coefficients of its blocks. -/
def runScan (A : ScanActions SequentialState) (kind : SofKind) (plan : PreparedDecodePlan)
    (output : Option OutputFormat) : Read (List (ℕ → ℤ)) := fun r => do
  let s ← decodeScan A kind plan output ⟨r,0,fun _ => 0,[]⟩
  .ok (s.blocks,s.reader)

variable (dcTables acTables : ℕ → HuffmanTable) (quants : ℕ → ℕ → ℕ)
  (variant : ℕ → ℕ → ℕ → BlockVariant)

theorem kept_readerActions (bytes : List ℕ) :
    Kept (readerActions dcTables acTables quants variant)
      fun s => ∃ start, Reached bytes start s.reader := by
  constructor
  · rintro current total s t ⟨start,h⟩ hrun
    obtain ⟨p,hmarker,hrun⟩ := bind_eq_ok.mp hrun
    rw [← Except.ok.inj hrun]
    exact steps_consumeRestartMarker _ _ _ bytes start s.reader p.1 p.2 h hmarker
  · rintro component x y s t ⟨start,h⟩ hrun
    obtain ⟨reader,hblock,hrun⟩ := bind_eq_ok.mp hrun
    rw [← Except.ok.inj hrun]
    exact reached_decode _ h hblock

/-- Every sequential scan is made of steps of the reader, whatever its frame, its components and
its restarts are and whichever decoder takes each block. -/
theorem steps_runScan (kind : SofKind) (plan : PreparedDecodePlan)
    (output : Option OutputFormat) :
    Steps (runScan (readerActions dcTables acTables quants variant) kind plan output) := by
  intro bytes start r a r' h hrun
  obtain ⟨s,hscan,hrun⟩ := bind_eq_ok.mp hrun
  obtain ⟨-,rfl⟩ := Prod.mk.inj (Except.ok.inj hrun)
  exact (kept_readerActions dcTables acTables quants variant bytes).decodeScan ⟨start,h⟩ hscan

end J2kNative.SequentialReaders
