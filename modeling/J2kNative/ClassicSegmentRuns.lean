import J2kNative.ClassicRoundTrip

/-!
# Runs of the segmented encoder

Between two passes the encoder stands in an open segment. Its coder has taken the decisions of the
passes since the start, and a decoder has gone through all segments before. A pass with another
index closes the segment first, for which the plan of the payload has room.
-/
namespace J2kNative.ClassicEncoder
open SymbolChannels RecordedRuns CountedLoops MqStates MqEncoder MqInterval PayloadPlan Fallible
open ClassicSegments (segmentIndex passUsesArithmetic)

/-! ## Coders of an open segment -/

/-- The coder of the mode has taken these decisions since its segment was opened. -/
def SegmentedCodeBlockEncoder.Took (s : SegmentedCodeBlockEncoder) (payloadBytes : ℕ)
    (contexts : Buffer Context) (ds : List Decision) : Prop :=
  if s.currentUseArithmetic then ∃ encoder, s.arithmeticEncoder = some encoder ∧
    ds.foldl codeSymbol (.tryWithByteLimit payloadBytes,contexts) = (encoder,s.contexts)
  else ∃ writer, s.bypassWriter = some writer ∧
    ds.foldl writeRaw (.tryWithByteLimit payloadBytes,contexts) = (writer,s.contexts)

section
variable {s : SegmentedCodeBlockEncoder} {payloadBytes : ℕ} {contexts : Buffer Context}
  {ds : List Decision}

theorem arithmetic_finishes (hvalid : ∀ label, (contexts label).Valid) (payloadBytes : ℕ)
    (ds : List Decision) (hfits : 15 * ds.countP Decision.isBit + 14 ≤ 7 * payloadBytes) :
    (ds.foldl codeSymbol (.tryWithByteLimit payloadBytes,contexts)).1.finishChecked =
        .ok (codeSegment true contexts ds).1 ∧
      (ds.foldl codeSymbol (.tryWithByteLimit payloadBytes,contexts)).2 =
        (codeSegment true contexts ds).2 ∧
      14 * (codeSegment true contexts ds).1.length ≤ 30 * ds.countP Decision.isBit + 28 := by
  have hgoing : Going (.new,contexts) := ⟨coding_new,hvalid⟩
  have hnew : ArithmeticEncoder.new.scale ≤ 15 := (planned_new payloadBytes).scale
  have hsame : ds.foldl codeSymbol (.tryWithByteLimit payloadBytes,contexts) =
      (within (ds.foldl takeSymbol (.new,contexts)).1 (payloadBytes + 1),
        (ds.foldl takeSymbol (.new,contexts)).2) :=
    codeSymbols_within hgoing ds (by dsimp only; omega)
  have hscale := takeSymbols_scale hgoing ds
  have hcoding := (hgoing.takeSymbols ds).coding
  have hlength := length_le_scale hcoding.toReady
  dsimp only at hscale
  have hroom : (ds.foldl takeSymbol (.new,contexts)).1.data.length + 2 ≤ payloadBytes + 1 := by omega
  obtain ⟨hfinish,hbytes⟩ := finish_within hcoding hroom
  refine ⟨?_,?_,?_⟩
  · rw [hsame]
    exact hfinish
  · rw [hsame]
    rfl
  · show 14 * (ds.foldl takeSymbol (.new,contexts)).1.finish.length ≤ _
    rw [hbytes]
    omega

theorem raw_finishes (contexts : Buffer Context)
    (hfits : 15 * ds.countP Decision.isBit + 14 ≤ 7 * payloadBytes) :
    (ds.foldl writeRaw (.tryWithByteLimit payloadBytes,contexts)).1.finishChecked =
        .ok (codeSegment false contexts ds).1 ∧
      (ds.foldl writeRaw (.tryWithByteLimit payloadBytes,contexts)).2 =
        (codeSegment false contexts ds).2 ∧
      14 * (codeSegment false contexts ds).1.length ≤ 30 * ds.countP Decision.isBit + 28 := by
  have hroom : 7 * 0 + 0 + ds.countP Decision.isBit ≤ 7 * payloadBytes + 6 := by omega
  obtain ⟨hsame,hbytes⟩ :=
    writeRaws_within BitStuffing.BitWriter.empty_unfilled contexts ds hroom
  have hbytes' : 7 * (ds.foldl takeRaw (.empty,contexts)).1.data.length ≤
      7 * 0 + 0 + ds.countP Decision.isBit := hbytes
  have hroom' : (ds.foldl takeRaw (.empty,contexts)).1.data.length + 1 ≤ payloadBytes := by omega
  obtain ⟨hfinish,hle⟩ := finish_withinRaw hroom'
  have hsame' : ds.foldl writeRaw (.tryWithByteLimit payloadBytes,contexts) = _ := hsame
  refine ⟨?_,?_,?_⟩
  · rw [hsame']
    exact hfinish
  · rw [hsame']
    rfl
  · show 14 * (ds.foldl takeRaw (.empty,contexts)).1.finish.length ≤ _
    omega

/-- An open segment that keeps to its plan can be closed. -/
theorem SegmentedCodeBlockEncoder.Took.segmentData (h : s.Took payloadBytes contexts ds)
    (hvalid : ∀ label, (contexts label).Valid)
    (hfits : 15 * ds.countP Decision.isBit + 14 ≤ 7 * payloadBytes) :
    s.segmentData = .ok (codeSegment s.currentUseArithmetic contexts ds).1 ∧
      s.contexts = (codeSegment s.currentUseArithmetic contexts ds).2 ∧
      14 * (codeSegment s.currentUseArithmetic contexts ds).1.length ≤
        30 * ds.countP Decision.isBit + 28 := by
  unfold SegmentedCodeBlockEncoder.Took at h
  unfold SegmentedCodeBlockEncoder.segmentData
  cases hmode : s.currentUseArithmetic with
  | true =>
      rw [hmode,if_pos rfl] at h
      obtain ⟨encoder,hencoder,htook⟩ := h
      obtain ⟨hfinish,hcontexts,hbytes⟩ := arithmetic_finishes hvalid _ _ hfits
      rw [htook] at hfinish hcontexts
      rw [if_pos rfl,hencoder]
      exact ⟨hfinish,hcontexts,hbytes⟩
  | false =>
      rw [hmode,if_neg Bool.false_ne_true] at h
      obtain ⟨writer,hwriter,htook⟩ := h
      obtain ⟨hfinish,hcontexts,hbytes⟩ := raw_finishes contexts hfits
      rw [htook] at hfinish hcontexts
      rw [if_neg Bool.false_ne_true,hwriter]
      exact ⟨hfinish,hcontexts,hbytes⟩

end

/-! ## Open segments -/

/-- What the allocation must leave to the passes of a block. -/
structure CodeBlock.Planned (b : CodeBlock) (allocation : ClassicWorkerAllocation)
    (totalPasses : ℕ) : Prop where
  payload : 15 * b.spent totalPasses + 28 * totalPasses ≤ 14 * allocation.payloadBytes
  passes : totalPasses ≤ allocation.codingPasses
  payload_lt : allocation.payloadBytes < 2 ^ 22

/-- The encoder stands before a pass, in a segment of passes with one index. -/
structure Open (b : CodeBlock) (payloadBytes numBitplanes : ℕ) (s : SegmentedCodeBlockEncoder)
    (codingPass : ℕ) : Prop where
  start_le : s.currentSegmentStartPass ≤ codingPass
  idx : s.currentSegmentIdx = some (segmentIndex b.cutStyle s.currentSegmentStartPass)
  mode : s.currentUseArithmetic = passUsesArithmetic b.cutStyle s.currentSegmentStartPass
  same : ∀ p, s.currentSegmentStartPass ≤ p → p < codingPass →
    segmentIndex b.cutStyle p = segmentIndex b.cutStyle s.currentSegmentStartPass
  began : ∃ a contexts, Behind b numBitplanes s.data s.segments s.currentSegmentStartPass a contexts ∧
    s.arrays = (b.encodeTurns s.currentUseArithmetic numBitplanes s.currentSegmentStartPass codingPass
      a).state ∧
    s.Took payloadBytes contexts (b.encodeTurns s.currentUseArithmetic numBitplanes
      s.currentSegmentStartPass codingPass a).symbols

/-- Before the first pass nothing is open. -/
structure Fresh (b : CodeBlock) (numBitplanes : ℕ) (s : SegmentedCodeBlockEncoder)
    (codingPass : ℕ) : Prop where
  idx : s.currentSegmentIdx = none
  behind : Behind b numBitplanes s.data s.segments codingPass s.arrays s.contexts

/-- No clean-up shares the segment of a raw pass. -/
theorem raw_passes {style : ClassicSegments.CodeBlockStyle} {start p : ℕ}
    (hraw : passUsesArithmetic style start = false)
    (hsame : segmentIndex style p = segmentIndex style start) : p % 3 ≠ 0 := by
  unfold passUsesArithmetic at hraw
  simp only [Bool.or_eq_false_iff,Bool.not_eq_false',decide_eq_false_iff_not] at hraw
  obtain ⟨⟨hbypass,hlate⟩,hstart⟩ := hraw
  unfold segmentIndex ClassicSegments.segmentIdxForBypass at hsame
  rw [if_pos hbypass] at hsame
  split_ifs at hsame <;> omega

section
variable {b : CodeBlock} {allocation : ClassicWorkerAllocation} {numBitplanes codingPass : ℕ}
  {s : SegmentedCodeBlockEncoder}

theorem Open.raw (h : Open b allocation.payloadBytes numBitplanes s codingPass)
    (hmode : s.currentUseArithmetic = false) {p : ℕ} (hle : s.currentSegmentStartPass ≤ p)
    (hlt : p < codingPass) : p % 3 ≠ 0 :=
  raw_passes (h.mode.symm.trans hmode) (h.same p hle hlt)

theorem spent_mono {start stop : ℕ} (h : start ≤ stop) : b.spent start ≤ b.spent stop := by
  rw [← b.spent_add h]
  exact Nat.le_add_right _ _

/-- Step lemma: an open segment is closed. -/
theorem Open.finish (h : Open b allocation.payloadBytes numBitplanes s codingPass)
    (hplan : b.Planned allocation (1 + 3 * (numBitplanes - 1)))
    (hlt : s.currentSegmentStartPass < codingPass)
    (hle : codingPass ≤ 1 + 3 * (numBitplanes - 1)) :
    ∃ s', s.tryFinishCurrentSegment allocation codingPass = .ok s' ∧
      Behind b numBitplanes s'.data s'.segments codingPass s'.arrays s'.contexts := by
  obtain ⟨a,contexts,hbehind,harrays,htook⟩ := h.began
  have hcosts := encodeTurns_costs b s.currentUseArithmetic numBitplanes hlt.le a
  have hspent := spent_mono (b := b) hle
  have hroom := hplan.payload
  have hlimit := hplan.payload_lt
  have hcount := hbehind.count
  obtain ⟨hdata,hcontexts,hbytes⟩ := htook.segmentData hbehind.valid (by omega)
  have hpush := hbehind.push hlt hle h.mode (fun hmode p => h.raw hmode) h.same hbytes
  have hold := hbehind.bytes
  have hpasses := hplan.passes
  unfold SegmentedCodeBlockEncoder.tryFinishCurrentSegment tryPushSegment
  rw [hdata,Fallible.ok_bind]
  dsimp only
  rw [checked_ok (by omega),Fallible.ok_bind,refuse_ok (by omega),Fallible.ok_bind,
    refuse_ok (by omega),Fallible.ok_bind,refuse_ok (by omega),Fallible.ok_bind,
    refuse_ok (by omega),Fallible.ok_bind]
  refine ⟨_,rfl,?_⟩
  dsimp only
  rw [harrays,hcontexts]
  exact hpush

/-- A segment that has just been opened. -/
theorem Behind.open (h : Behind b numBitplanes s.data s.segments codingPass s.arrays s.contexts) :
    Open b allocation.payloadBytes numBitplanes
      (s.openSegment allocation (segmentIndex b.cutStyle codingPass) codingPass
        (passUsesArithmetic b.cutStyle codingPass)) codingPass := by
  have hnone : ∀ useArithmetic, b.encodeTurns useArithmetic numBitplanes codingPass codingPass =
      pure () := by
    intro useArithmetic
    unfold CodeBlock.encodeTurns
    rw [Nat.sub_self]
    rfl
  refine ⟨le_rfl,rfl,rfl,fun p hle hlt => absurd hle (Nat.not_le.mpr hlt),s.arrays,s.contexts,h,?_,?_⟩
  · exact (congrArg (fun m => (m s.arrays).state) (hnone _)).symm
  · show (s.openSegment _ _ _ _).Took _ _ ((b.encodeTurns _ _ codingPass codingPass _).symbols)
    rw [hnone]
    unfold SegmentedCodeBlockEncoder.Took SegmentedCodeBlockEncoder.openSegment
    dsimp only
    cases passUsesArithmetic b.cutStyle codingPass with
    | true => exact ⟨_,rfl,rfl⟩
    | false => exact ⟨_,rfl,rfl⟩

/-- Step lemma: the segment of a pass is opened, unless it is open already. -/
theorem Open.begin (h : Open b allocation.payloadBytes numBitplanes s codingPass)
    (hplan : b.Planned allocation (1 + 3 * (numBitplanes - 1)))
    (hlt : s.currentSegmentStartPass < codingPass)
    (hle : codingPass ≤ 1 + 3 * (numBitplanes - 1)) :
    ∃ s', s.tryBeginSegmentForPass b allocation codingPass = .ok s' ∧
      Open b allocation.payloadBytes numBitplanes s' codingPass ∧
      segmentIndex b.cutStyle codingPass = segmentIndex b.cutStyle s'.currentSegmentStartPass := by
  unfold SegmentedCodeBlockEncoder.tryBeginSegmentForPass
  dsimp only
  by_cases hsame : s.currentSegmentIdx = some (segmentIndex b.cutStyle codingPass)
  · rw [if_pos hsame]
    exact ⟨s,rfl,h,Option.some.inj (hsame.symm.trans h.idx)⟩
  · rw [if_neg hsame,h.idx,Option.isSome_some,if_pos rfl]
    obtain ⟨s',hs',hbehind⟩ := h.finish hplan hlt hle
    rw [hs']
    exact ⟨_,rfl,hbehind.open,rfl⟩

theorem Fresh.begin (h : Fresh b numBitplanes s codingPass) :
    ∃ s', s.tryBeginSegmentForPass b allocation codingPass = .ok s' ∧
      Open b allocation.payloadBytes numBitplanes s' codingPass ∧
      segmentIndex b.cutStyle codingPass = segmentIndex b.cutStyle s'.currentSegmentStartPass := by
  unfold SegmentedCodeBlockEncoder.tryBeginSegmentForPass
  dsimp only
  rw [h.idx,if_neg nofun,Option.isSome_none,if_neg Bool.false_ne_true]
  exact ⟨_,rfl,h.behind.open,rfl⟩

theorem encodeTurns_succ (b : CodeBlock) (useArithmetic : Bool) (numBitplanes : ℕ) {start stop : ℕ}
    (h : start ≤ stop) :
    b.encodeTurns useArithmetic numBitplanes start (stop + 1) =
      (b.encodeTurns useArithmetic numBitplanes start stop >>= fun _ =>
        b.encodeTurn useArithmetic numBitplanes stop) := by
  unfold CodeBlock.encodeTurns
  rw [Nat.sub_add_comm h,List.range'_1_concat,Nat.add_sub_cancel' h]
  exact forM_concat _ _ _

/-- Step lemma: a pass of the open segment. -/
theorem Open.turn (h : Open b allocation.payloadBytes numBitplanes s codingPass)
    (hsame : segmentIndex b.cutStyle codingPass = segmentIndex b.cutStyle s.currentSegmentStartPass) :
    ∃ s', s.encodeTurn b numBitplanes codingPass = .ok s' ∧
      Open b allocation.payloadBytes numBitplanes s' (codingPass + 1) ∧
      s'.currentSegmentStartPass < codingPass + 1 := by
  obtain ⟨a,contexts,hbehind,harrays,htook⟩ := h.began
  have hrun := congrArg (fun m => m a)
    (encodeTurns_succ b s.currentUseArithmetic numBitplanes h.start_le)
  rw [SymbolChannels.bind_run,← harrays] at hrun
  have hindex : ∀ p, s.currentSegmentStartPass ≤ p → p < codingPass + 1 →
      segmentIndex b.cutStyle p = segmentIndex b.cutStyle s.currentSegmentStartPass := by
    intro p hle hlt
    rcases Nat.lt_succ_iff_lt_or_eq.mp hlt with hlt | rfl
    · exact h.same p hle hlt
    · exact hsame
  unfold SegmentedCodeBlockEncoder.Took at htook
  unfold SegmentedCodeBlockEncoder.encodeTurn
  dsimp only
  cases hmode : s.currentUseArithmetic with
  | true =>
      rw [hmode] at htook hrun
      obtain ⟨encoder,hencoder,htook⟩ := htook
      rw [if_pos (.inr rfl),hencoder]
      refine ⟨_,rfl,⟨h.start_le.trans (Nat.le_succ _),h.idx,hmode ▸ h.mode,hindex,a,contexts,hbehind,
        ?_,?_⟩,Nat.lt_succ_of_le h.start_le⟩
      · rw [hrun]
      · unfold SegmentedCodeBlockEncoder.Took
        dsimp only
        rw [if_pos rfl,hrun]
        dsimp only
        rw [List.foldl_append,htook]
        exact ⟨_,rfl,rfl⟩
  | false =>
      have hnot := raw_passes (h.mode.symm.trans hmode) hsame
      rw [hmode] at htook hrun
      obtain ⟨writer,hwriter,htook⟩ := htook
      rw [if_neg (by simpa using hnot),hwriter]
      refine ⟨_,rfl,⟨h.start_le.trans (Nat.le_succ _),h.idx,hmode ▸ h.mode,hindex,a,contexts,hbehind,
        ?_,?_⟩,Nat.lt_succ_of_le h.start_le⟩
      · rw [hrun]
      · unfold SegmentedCodeBlockEncoder.Took
        dsimp only
        rw [if_neg Bool.false_ne_true,hrun]
        dsimp only
        rw [List.foldl_append,htook]
        exact ⟨_,rfl,rfl⟩

end

/-! ## Runs -/

section
variable {b : CodeBlock} {allocation : ClassicWorkerAllocation} {numBitplanes : ℕ}
  {s : SegmentedCodeBlockEncoder}

/-- Before a pass the encoder has begun, or stands at the first. -/
def Stands (b : CodeBlock) (payloadBytes numBitplanes : ℕ) (s : SegmentedCodeBlockEncoder)
    (codingPass : ℕ) : Prop :=
  if codingPass = 0 then Fresh b numBitplanes s 0
  else Open b payloadBytes numBitplanes s codingPass ∧ s.currentSegmentStartPass < codingPass

/-- Step lemma: a turn of the loop over the passes. -/
theorem Stands.tryEncodePass {codingPass : ℕ}
    (h : Stands b allocation.payloadBytes numBitplanes s codingPass)
    (hplan : b.Planned allocation (1 + 3 * (numBitplanes - 1)))
    (hle : codingPass ≤ 1 + 3 * (numBitplanes - 1)) :
    ∃ s', SegmentedCodeBlockEncoder.tryEncodePass b allocation numBitplanes s codingPass = .ok s' ∧
      Stands b allocation.payloadBytes numBitplanes s' (codingPass + 1) := by
  have hbegin : ∃ s', s.tryBeginSegmentForPass b allocation codingPass = .ok s' ∧
      Open b allocation.payloadBytes numBitplanes s' codingPass ∧
      segmentIndex b.cutStyle codingPass = segmentIndex b.cutStyle s'.currentSegmentStartPass := by
    unfold Stands at h
    split_ifs at h with hzero
    · rw [hzero]
      exact h.begin
    · exact h.1.begin hplan h.2 hle
  obtain ⟨s₁,hs₁,hopen,hsame⟩ := hbegin
  obtain ⟨s₂,hs₂,hopen',hlt⟩ := hopen.turn hsame
  refine ⟨s₂,?_,?_⟩
  · unfold SegmentedCodeBlockEncoder.tryEncodePass orRefuse
    rw [hs₁]
    exact hs₂
  · unfold Stands
    rw [if_neg (Nat.succ_ne_zero codingPass)]
    exact ⟨hopen',hlt⟩

/-- Run lemma: the loop gets through all passes. -/
theorem Stands.run (h : Stands b allocation.payloadBytes numBitplanes s 0)
    (hplan : b.Planned allocation (1 + 3 * (numBitplanes - 1))) (n : ℕ)
    (hn : n ≤ 1 + 3 * (numBitplanes - 1)) :
    ∃ s', (List.range n).foldlM
        (SegmentedCodeBlockEncoder.tryEncodePass b allocation numBitplanes) s = .ok s' ∧
      Stands b allocation.payloadBytes numBitplanes s' n := by
  induction n with
  | zero => exact ⟨s,rfl,h⟩
  | succ n ih =>
      obtain ⟨s₁,hs₁,hstands⟩ := ih (by omega)
      obtain ⟨s₂,hs₂,hstands'⟩ := hstands.tryEncodePass hplan (by omega)
      refine ⟨s₂,?_,hstands'⟩
      rw [List.range_succ,List.foldlM_append,hs₁]
      exact (bind_pure _).trans hs₂

/-- The segmented encoder does not fail within its plan, and its segments can be decoded. -/
theorem tryEncodeAllPasses_ok
    (h : Behind b numBitplanes [] [] 0 b.startArrays resetContexts)
    (hplan : b.Planned allocation (1 + 3 * (numBitplanes - 1))) (numZeroBitplanes : ℕ) :
    ∃ data segments a contexts, (SegmentedCodeBlockEncoder.tryNew b).tryEncodeAllPasses b allocation
        numBitplanes numZeroBitplanes =
          .ok ⟨data,segments,1 + 3 * (numBitplanes - 1),numZeroBitplanes⟩ ∧
      Behind b numBitplanes data segments (1 + 3 * (numBitplanes - 1)) a contexts := by
  have hstart : Stands b allocation.payloadBytes numBitplanes (.tryNew b) 0 := ⟨rfl,h⟩
  obtain ⟨s,hs,hstands⟩ := hstart.run hplan _ le_rfl
  unfold Stands at hstands
  rw [if_neg (by omega)] at hstands
  obtain ⟨s',hs',hbehind⟩ := hstands.1.finish hplan hstands.2 le_rfl
  refine ⟨s'.data,s'.segments,s'.arrays,s'.contexts,?_,hbehind⟩
  unfold SegmentedCodeBlockEncoder.tryEncodeAllPasses
  dsimp only
  rw [hs,Fallible.ok_bind,hstands.1.idx,Option.isSome_some,if_pos rfl]
  unfold orRefuse
  rw [hs']
  rfl

end

end J2kNative.ClassicEncoder
