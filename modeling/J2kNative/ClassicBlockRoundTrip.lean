import J2kNative.ClassicSegmentRuns
import J2kNative.ClassicFacade

/-!
# Round trip of whole classic blocks

A block that is encoded is decoded to its own coefficients, as one segment or as many, from its
segments or from the segments of its layers. The encoder refuses a block for its geometry and for
magnitudes beyond the bit planes alone, and never for its own plan.
-/
namespace J2kNative.ClassicEncoder
open SymbolChannels RecordedRuns CountedLoops MqStates MqEncoder MqInterval PayloadPlan Fallible
open ClassicDecoder (Job Moment BitPlaneDecodeContext CodeBlockSegment)
open ClassicSegments (passUsesArithmetic)

/-! ## The first pass -/

namespace CodeBlock
variable (b : CodeBlock)

theorem coefficient_le_maxMagnitude {x y : ℕ} (hx : x < b.width) (hy : y < b.height) :
    (b.coefficient x y).natAbs ≤ b.maxMagnitude := by
  have hrow : ∀ y n m, m ≤ (List.range n).foldl
        (fun magnitude x => max magnitude (b.coefficient x y).natAbs) m ∧
      ∀ x < n, (b.coefficient x y).natAbs ≤ (List.range n).foldl
        (fun magnitude x => max magnitude (b.coefficient x y).natAbs) m := by
    intro y n m
    induction n with
    | zero => exact ⟨le_rfl,nofun⟩
    | succ n ih =>
        simp only [List.range_succ,List.foldl_append,List.foldl_cons,List.foldl_nil]
        refine ⟨le_max_of_le_left ih.1,fun x hx => ?_⟩
        rcases Nat.lt_succ_iff_lt_or_eq.mp hx with hlt | rfl
        · exact le_max_of_le_left (ih.2 x hlt)
        · exact le_max_right _ _
  have hrows : ∀ n, ∀ y < n, ∀ x < b.width, (b.coefficient x y).natAbs ≤
      (List.range n).foldl (fun magnitude y => (List.range b.width).foldl
        (fun magnitude x => max magnitude (b.coefficient x y).natAbs) magnitude) 0 := by
    intro n
    induction n with
    | zero => exact nofun
    | succ n ih =>
        intro y hy x hx
        simp only [List.range_succ,List.foldl_append,List.foldl_cons,List.foldl_nil]
        rcases Nat.lt_succ_iff_lt_or_eq.mp hy with hlt | rfl
        · exact (ih y hlt x hx).trans (hrow n b.width _).1
        · exact (hrow y b.width _).2 x hx
  exact hrows b.height y hy x hx

theorem magnitudes_lt (idx : ℕ) : b.magnitudes idx < 2 ^ b.numBitplanes := by
  by_cases hcell : ∃ x < b.width, ∃ y < b.height, idx = b.cell x y
  · obtain ⟨x,hx,y,hy,rfl⟩ := hcell
    rw [magnitudes_cell hx hy]
    exact (b.coefficient_le_maxMagnitude hx hy).trans_lt (Nat.lt_size_self _)
  · rw [magnitudes_outside fun x hx y hy heq => hcell ⟨x,hx,y,hy,heq⟩]
    exact Nat.two_pow_pos _

theorem small_of_numBitplanes {b : CodeBlock} (h : b.numBitplanes ≤ 63) : b.Small := fun idx =>
  (b.magnitudes_lt idx).trans_le (Nat.pow_le_pow_right (by decide) h)

/-- The states that the first pass finds tell signs and nothing else. -/
theorem startArrays_states (idx : ℕ) :
    b.startArrays.states idx = 0 ∨ b.startArrays.states idx = 2 ^ negativeBit := by
  by_cases hcell : ∃ x < b.width, ∃ y < b.height, idx = b.cell x y
  · obtain ⟨x,hx,y,hy,rfl⟩ := hcell
    have hput := (prepared_all.put (x,y) ⟨hx,hy⟩).2
    unfold startArrays
    dsimp only at hput ⊢
    rw [hput]
    split_ifs
    · exact .inr rfl
    · exact .inl rfl
  · exact .inl (prepared_all.rest idx fun q hq heq => hcell ⟨q.1,hq.1,q.2,hq.2,heq⟩).2

theorem startArrays_isNegative {x y : ℕ} (hx : x < b.width) (hy : y < b.height) :
    b.startArrays.isNegative (b.cell x y) = decide (b.coefficient x y < 0) := by
  have hput := (prepared_all.put (x,y) ⟨hx,hy⟩).2
  unfold Arrays.isNegative startArrays
  dsimp only at hput ⊢
  rw [hput]
  split_ifs with hneg
  · simp [hneg]
  · simp [hneg]

theorem startArrays_flags (idx : ℕ) : b.startArrays.isSignificant idx = false ∧
    b.startArrays.isRefined idx = false ∧ b.startArrays.isCoded idx = false := by
  unfold Arrays.isSignificant Arrays.isRefined Arrays.isCoded
  rcases b.startArrays_states idx with h | h
  · rw [h]
    decide
  · rw [h]
    decide

end CodeBlock

section
variable {b : CodeBlock}

/-- The first clean-up starts with nothing known. -/
theorem before_start (strict : Bool) (hpos : 0 < b.numBitplanes) :
    Before b (b.job b.numBitplanes (1 + 3 * (b.numBitplanes - 1)) strict) b.numBitplanes 0
      b.startArrays ClassicDecoder.startOfRun.state := by
  have hplane : planeOf b.numBitplanes 0 + 1 = b.numBitplanes := by
    unfold planeOf
    omega
  have hnothing : ∀ idx, b.upTo (planeOf b.numBitplanes 0 + 1) idx = 0 := by
    intro idx
    unfold CodeBlock.upTo
    rw [hplane,Nat.div_eq_of_lt (b.magnitudes_lt idx),Nat.zero_mul]
  have hflag : ∀ bit, (0 : ℕ).testBit bit = false := Nat.zero_testBit
  have hdone : ∀ idx, idx ∉ {idx | b.startArrays.isCoded idx = true ∨
      b.startArrays.isSignificant idx = true ∨ idx ∈ b.cells 0} := by
    intro idx hidx
    obtain ⟨hsignificant,-,hcoded⟩ := b.startArrays_flags idx
    simp [hsignificant,hcoded,CodeBlock.cells,CodeBlock.visited] at hidx
  unfold Before
  rw [if_pos rfl]
  refine ⟨⟨?_,fun idx => ?_,fun idx => ?_,fun x _ y _ => ?_,rfl,rfl,fun idx hidx => ?_,fun idx _ => ?_,
    ⟨fun idx hidx => ?_,fun _ => rfl⟩⟩,fun idx _ => ⟨fun hidx => ?_,fun _ => hnothing idx⟩⟩
  · exact ClassicDecoder.Safe.currentBitPosition _ _ _ _ ⟨ClassicDecoder.Inv.reset,
      ClassicDecoder.Settled.reset,fun _ _ _ _ hmem => absurd hmem (Set.notMem_empty _)⟩
  · exact (hflag _).trans (b.startArrays_flags idx).1.symm
  · exact (hflag _).trans (b.startArrays_flags idx).2.1.symm
  · exact (hflag _).trans (b.startArrays_flags _).2.2.symm
  · exact absurd hidx (hdone idx)
  · rw [(b.startArrays_flags idx).1,hnothing,Bool.false_and,Bool.toNat_false,Nat.zero_mul]
    rfl
  · rw [(b.startArrays_flags idx).2.2] at hidx
    cases hidx
  · exact absurd hidx (hdone idx)

/-- Nothing is behind the first pass. -/
theorem behind_start (hpos : 0 < b.numBitplanes) :
    Behind b b.numBitplanes [] [] 0 b.startArrays resetContexts :=
  ⟨nofun,rfl,nofun,nofun,rfl,resetContexts_valid,
    fun _ _ strict => ⟨ClassicDecoder.startOfRun,rfl,before_start strict hpos,rfl,resetContexts_valid⟩,
    by simp,le_rfl⟩

/-! ## Bit planes and passes -/

theorem resetContexts_clear :
    (b.resetContextsIfAsked >>= fun _ => change Arrays.clearCodedInCurrentPass) =
      (change Arrays.clearCodedInCurrentPass >>= fun _ => b.resetContextsIfAsked) := by
  unfold CodeBlock.resetContextsIfAsked
  split_ifs <;> rfl

/-- The first bit plane is one pass. -/
theorem encodeBitplane_first (b : CodeBlock) (numBitplanes : ℕ) :
    b.encodeBitplane numBitplanes (numBitplanes - 1) = b.encodeTurn true numBitplanes 0 := by
  unfold CodeBlock.encodeBitplane CodeBlock.encodeTurn CodeBlock.encodeCodingPass
  simp [resetContexts_clear]

/-- Another bit plane is three passes. -/
theorem encodeBitplane_next (b : CodeBlock) {numBitplanes i : ℕ} (hi : i + 1 < numBitplanes) :
    b.encodeBitplane numBitplanes (numBitplanes - 1 - (i + 1)) =
      (b.encodeTurn true numBitplanes (1 + 3 * i) >>= fun _ =>
        b.encodeTurn true numBitplanes (2 + 3 * i) >>= fun _ =>
          b.encodeTurn true numBitplanes (3 + 3 * i)) := by
  have hplane : ∀ j, j = 1 ∨ j = 2 ∨ j = 3 → (j + 3 * i + 2) / 3 = i + 1 := by omega
  have hmod : ∀ j < 3, (j + 3 * i) % 3 = j := by omega
  have hlast : (3 + 3 * i) % 3 = 0 := by omega
  unfold CodeBlock.encodeBitplane CodeBlock.encodeTurn CodeBlock.encodeCodingPass
  rw [hplane 1 (by omega),hplane 2 (by omega),hplane 3 (by omega),hmod 1 (by omega),hmod 2 (by omega),
    hlast,if_neg (by omega)]
  simp [resetContexts_clear]

/-- The bit planes of the unsegmented encoder are the passes of one segment. -/
theorem encodeBitplanes_eq (b : CodeBlock) {numBitplanes : ℕ} (hpos : 0 < numBitplanes) :
    b.encodeBitplanes numBitplanes =
      b.encodeTurns true numBitplanes 0 (1 + 3 * (numBitplanes - 1)) := by
  have hplanes : ∀ n < numBitplanes,
      ((List.range (n + 1)).map fun i => numBitplanes - 1 - i).forM (b.encodeBitplane numBitplanes) =
        b.encodeTurns true numBitplanes 0 (1 + 3 * n) := by
    intro n hn
    induction n with
    | zero =>
        refine (bind_pure_unit (x := b.encodeBitplane numBitplanes (numBitplanes - 1))).trans ?_
        rw [encodeBitplane_first]
        exact (bind_pure_unit (x := b.encodeTurn true numBitplanes 0)).symm
    | succ n ih =>
        have hturns : b.encodeTurns true numBitplanes 0 (1 + 3 * (n + 1)) =
            (b.encodeTurns true numBitplanes 0 (1 + 3 * n) >>= fun _ =>
              b.encodeBitplane numBitplanes (numBitplanes - 1 - (n + 1))) := by
          rw [encodeBitplane_next b hn,show 1 + 3 * (n + 1) = 1 + 3 * n + 1 + 1 + 1 by ring,
            encodeTurns_succ _ _ _ (Nat.zero_le _),encodeTurns_succ _ _ _ (Nat.zero_le _),
            encodeTurns_succ _ _ _ (Nat.zero_le _)]
          simp only [bind_assoc]
          rw [show 1 + 3 * n + 1 = 2 + 3 * n by ring,show 1 + 3 * n + 2 = 3 + 3 * n by ring]
        rw [hturns,← ih (by omega),List.range_succ,List.map_append]
        exact forM_concat _ _ _
  have hreverse : (List.range numBitplanes).reverse =
      (List.range (numBitplanes - 1 + 1)).map fun i => numBitplanes - 1 - i := by
    rw [Nat.sub_add_cancel hpos,List.range_eq_range',List.reverse_range',Nat.zero_add,
      List.range_eq_range']
  unfold CodeBlock.encodeBitplanes
  rw [hreverse,hplanes _ (by omega)]

/-! ## The plan of a block -/

/-- What is allocated for an accepted block suffices for all of its passes. -/
theorem planned_ok {totalBitplanes : ℕ} {allocation : ClassicWorkerAllocation}
    (hpos : 0 < b.numBitplanes) (hfits : b.numBitplanes ≤ totalBitplanes)
    (hpayload : allocation.payloadBytes = 4 * ((3 * (b.width * b.height) + 4) * totalBitplanes) +
      4 * allocation.codingPasses + 16)
    (hpasses : allocation.codingPasses =
      if totalBitplanes = 0 then 0 else 1 + 3 * (totalBitplanes - 1))
    (hlt : allocation.payloadBytes < 2 ^ 22) :
    b.Planned allocation (1 + 3 * (b.numBitplanes - 1)) := by
  have hcosts := b.sum_turnCost (b.numBitplanes - 1)
  rw [Nat.sub_add_cancel hpos] at hcosts
  rw [if_neg (by omega)] at hpasses
  have hspent : b.spent (1 + 3 * (b.numBitplanes - 1)) + 6 * (b.width * b.height) =
      11 * (b.numBitplanes * (b.width * b.height)) + 8 * b.numBitplanes := by
    refine hcosts.trans ?_
    ring
  have hsymbols : 3 * (b.numBitplanes * (b.width * b.height)) + 4 * b.numBitplanes ≤
      (3 * (b.width * b.height) + 4) * totalBitplanes := by
    refine le_trans (le_of_eq ?_) (Nat.mul_le_mul_left _ hfits)
    ring
  exact ⟨by omega,by omega,hlt⟩

theorem numBitplanes_pos : 0 < b.numBitplanes ↔ b.maxMagnitude ≠ 0 := by
  unfold CodeBlock.numBitplanes
  rw [Nat.size_pos,Nat.pos_iff_ne_zero]

/-- The unsegmented encoder closes one segment for all passes. -/
theorem tryEncodeCodeBlockWithStyleView_ok {totalBitplanes : ℕ} (h : b.Accepted totalBitplanes)
    (hpos : 0 < b.numBitplanes) (hfits : b.numBitplanes ≤ totalBitplanes)
    (hcut : (b.style.terminationOnEachPass || b.style.selectiveArithmeticCodingBypass) = false) :
    ∃ data a contexts, b.tryEncodeCodeBlockWithStyleView totalBitplanes =
        .ok (data,1 + 3 * (b.numBitplanes - 1),totalBitplanes - b.numBitplanes) ∧
      data.length < 2 ^ 32 ∧
      Behind b b.numBitplanes data [⟨0,data.length,0,1 + 3 * (b.numBitplanes - 1),true⟩]
        (1 + 3 * (b.numBitplanes - 1)) a contexts := by
  obtain ⟨allocation,hallocation,hpayload,hpasses,hlt⟩ := classicWorkerAllocation_ok h
  have hplan := planned_ok hpos hfits hpayload hpasses hlt
  have hroom := hplan.payload
  have hcosts := encodeTurns_costs b true b.numBitplanes (Nat.zero_le (1 + 3 * (b.numBitplanes - 1)))
    b.startArrays
  obtain ⟨hfinish,-,hbytes⟩ := arithmetic_finishes resetContexts_valid allocation.payloadBytes
    (b.encodeTurns true b.numBitplanes 0 (1 + 3 * (b.numBitplanes - 1)) b.startArrays).symbols
    (by omega)
  have hmode : true = passUsesArithmetic b.cutStyle 0 := by
    unfold passUsesArithmetic
    simp
  have hindex : ∀ p, ClassicSegments.segmentIndex b.cutStyle p = 0 := by
    intro p
    obtain ⟨hterminated,hbypass⟩ := Bool.or_eq_false_iff.mp hcut
    simp [ClassicSegments.segmentIndex,CodeBlock.cutStyle,hterminated,hbypass]
  have hbehind := (behind_start hpos).push (by omega) le_rfl hmode nofun
    (fun p _ _ => (hindex p).trans (hindex 0).symm) hbytes
  have hlength := hbehind.bytes
  have hzero : b.maxMagnitude ≠ 0 := numBitplanes_pos.mp hpos
  refine ⟨_,_,_,?_,?_,hbehind⟩
  · unfold CodeBlock.tryEncodeCodeBlockWithStyleView
    rw [hallocation,Fallible.ok_bind,if_neg hzero,refuse_ok (by omega),Fallible.ok_bind,
      encodeBitplanes_eq b hpos]
    dsimp only
    rw [hfinish]
    rfl
  · simp only [List.length_singleton,List.nil_append] at hlength ⊢
    omega

theorem orRefuse_ok {α : Type} (a : α) : orRefuse (.ok a) = .ok a := rfl

/-- A block with something in it is encoded into segments that can be decoded. -/
theorem tryEncodeSegmentedCodeBlock_behind {totalBitplanes : ℕ} (h : b.Accepted totalBitplanes)
    (hpos : 0 < b.numBitplanes) (hfits : b.numBitplanes ≤ totalBitplanes) :
    ∃ data segments a contexts, b.tryEncodeSegmentedCodeBlock totalBitplanes =
        .ok ⟨data,segments,1 + 3 * (b.numBitplanes - 1),totalBitplanes - b.numBitplanes⟩ ∧
      ((b.style.terminationOnEachPass || b.style.selectiveArithmeticCodingBypass) = false →
        segments = [⟨0,data.length,0,1 + 3 * (b.numBitplanes - 1),true⟩]) ∧
      Behind b b.numBitplanes data segments (1 + 3 * (b.numBitplanes - 1)) a contexts := by
  obtain ⟨allocation,hallocation,hpayload,hpasses,hlt⟩ := classicWorkerAllocation_ok h
  have hzero : b.maxMagnitude ≠ 0 := numBitplanes_pos.mp hpos
  unfold CodeBlock.tryEncodeSegmentedCodeBlock CodeBlock.tryEncodeUnsegmentedCodeBlock
  rw [hallocation,orRefuse_ok,Fallible.ok_bind]
  cases hcut : (b.style.terminationOnEachPass || b.style.selectiveArithmeticCodingBypass) with
  | true =>
      obtain ⟨data,segments,a,contexts,hencoded,hbehind⟩ := tryEncodeAllPasses_ok (behind_start hpos)
        (planned_ok hpos hfits hpayload hpasses hlt) (totalBitplanes - b.numBitplanes)
      refine ⟨data,segments,a,contexts,?_,nofun,hbehind⟩
      rw [if_pos rfl]
      show (if b.maxMagnitude = 0 then _ else _) = _
      rw [if_neg hzero,refuse_ok (by omega),orRefuse_ok,Fallible.ok_bind]
      exact hencoded
  | false =>
      obtain ⟨data,a,contexts,hencoded,hlength,hbehind⟩ :=
        tryEncodeCodeBlockWithStyleView_ok h hpos hfits hcut
      refine ⟨data,_,a,contexts,?_,fun _ => rfl,hbehind⟩
      rw [if_neg Bool.false_ne_true,hencoded,Fallible.ok_bind]
      dsimp only
      rw [if_neg (by omega),refuse_ok (by omega)]
      rfl

/-- A block of zeros. -/
theorem tryEncodeSegmentedCodeBlock_zero {totalBitplanes : ℕ} (h : b.Accepted totalBitplanes)
    (hzero : b.maxMagnitude = 0) :
    b.tryEncodeSegmentedCodeBlock totalBitplanes = .ok ⟨[],[],0,totalBitplanes⟩ := by
  obtain ⟨allocation,hallocation,-,-,-⟩ := classicWorkerAllocation_ok h
  unfold CodeBlock.tryEncodeSegmentedCodeBlock CodeBlock.tryEncodeUnsegmentedCodeBlock
    CodeBlock.tryEncodeCodeBlockWithStyleView
  rw [hallocation,orRefuse_ok,Fallible.ok_bind]
  cases hcut : (b.style.terminationOnEachPass || b.style.selectiveArithmeticCodingBypass) with
  | true =>
      rw [if_pos rfl]
      show (if b.maxMagnitude = 0 then _ else _) = _
      rw [if_pos hzero]
      rfl
  | false =>
      rw [if_neg Bool.false_ne_true,Fallible.ok_bind,if_pos hzero]
      rfl

/-! ## What is refused -/

/-- Beside the accepted blocks there are only errors of the input. -/
theorem yields_classicWorkerAllocation (b : CodeBlock) (totalBitplanes : ℕ) :
    Yields (classicWorkerAllocation b.width b.height totalBitplanes)
      fun _ => b.Accepted totalBitplanes := by
  by_cases h : b.Accepted totalBitplanes
  · obtain ⟨allocation,hallocation,-⟩ := classicWorkerAllocation_ok h
    rw [hallocation]
    exact h
  · refine Yields.refuse (fun _ => trivial) fun hbits => ?_
    have hgeometry : Yields (validateTier1CodeBlockGeometry b.width b.height) fun _ => False := by
      refine Yields.refuse (fun _ => trivial) fun hpos => ?_
      refine (yields_checked _ _).bind fun samples hsamples => ?_
      refine Yields.refuse (fun _ => trivial) fun hle => h ?_
      subst hsamples
      exact ⟨by omega,by omega,by omega,by omega,by omega,by omega⟩
    exact hgeometry.bind fun _ hnever => hnever.elim

/-- What is not accepted is refused as wrong input. -/
theorem tryEncodeSegmentedCodeBlock_refused {totalBitplanes : ℕ}
    (h : ¬(b.Accepted totalBitplanes ∧ b.numBitplanes ≤ totalBitplanes)) :
    ∃ error, b.tryEncodeSegmentedCodeBlock totalBitplanes = .error (.refused error) ∧
      error.Expected := by
  by_cases haccepted : b.Accepted totalBitplanes
  · have hwrong : b.numBitplanes > totalBitplanes := not_le.mp fun hfits => h ⟨haccepted,hfits⟩
    obtain ⟨allocation,hallocation,-⟩ := classicWorkerAllocation_ok haccepted
    have hzero : b.maxMagnitude ≠ 0 := numBitplanes_pos.mp (by omega)
    refine ⟨.invalidInput "classic code-block magnitude exceeds configured bitplane count",?_,trivial⟩
    unfold CodeBlock.tryEncodeSegmentedCodeBlock CodeBlock.tryEncodeUnsegmentedCodeBlock
      CodeBlock.tryEncodeCodeBlockWithStyleView refuse
    rw [hallocation,orRefuse_ok,Fallible.ok_bind]
    cases hcut : (b.style.terminationOnEachPass || b.style.selectiveArithmeticCodingBypass) with
    | true =>
        rw [if_pos rfl,if_pos hwrong]
        show (if b.maxMagnitude = 0 then _ else _) = _
        rw [if_neg hzero]
        rfl
    | false =>
        rw [if_neg Bool.false_ne_true,Fallible.ok_bind,if_neg hzero,if_pos hwrong]
        rfl
  · have hallocation := yields_classicWorkerAllocation b totalBitplanes
    unfold CodeBlock.tryEncodeSegmentedCodeBlock
    cases hresult : classicWorkerAllocation b.width b.height totalBitplanes with
    | ok allocation =>
        rw [hresult] at hallocation
        exact absurd hallocation haccepted
    | error e =>
        rw [hresult] at hallocation
        exact ⟨e,rfl,hallocation⟩

theorem accepted_of_ok {totalBitplanes : ℕ} {encoded : EncodedCodeBlock}
    (h : b.tryEncodeSegmentedCodeBlock totalBitplanes = .ok encoded) :
    b.Accepted totalBitplanes ∧ b.numBitplanes ≤ totalBitplanes := by
  by_contra hnot
  obtain ⟨error,herror,-⟩ := tryEncodeSegmentedCodeBlock_refused hnot
  rw [herror] at h
  cases h

/-- The encoder takes exactly the blocks of an accepted geometry whose magnitudes fit the bit planes.
Others are refused as wrong input: no plan is exceeded, and no coder is missing. -/
theorem tryEncodeSegmentedCodeBlock_outcome (b : CodeBlock) (totalBitplanes : ℕ) :
    match b.tryEncodeSegmentedCodeBlock totalBitplanes with
    | .ok _ => b.Accepted totalBitplanes ∧ b.numBitplanes ≤ totalBitplanes
    | .error e => ¬(b.Accepted totalBitplanes ∧ b.numBitplanes ≤ totalBitplanes) ∧
        ∃ error, e = .refused error ∧ error.Expected := by
  by_cases h : b.Accepted totalBitplanes ∧ b.numBitplanes ≤ totalBitplanes
  · by_cases hpos : 0 < b.numBitplanes
    · obtain ⟨data,segments,a,contexts,hencoded,-⟩ :=
        tryEncodeSegmentedCodeBlock_behind h.1 hpos h.2
      rw [hencoded]
      exact h
    · rw [tryEncodeSegmentedCodeBlock_zero h.1 (not_not.mp fun hzero =>
        hpos (numBitplanes_pos.mpr hzero))]
      exact h
  · obtain ⟨error,herror,hexpected⟩ := tryEncodeSegmentedCodeBlock_refused h
    rw [herror]
    exact ⟨h,error,rfl,hexpected⟩

/-! ## Round trip -/

/-- Behind the last pass the decoder holds the coefficients of the block. -/
theorem Before.coefficients {strict : Bool} {maxCodingPasses : ℕ} {a : Arrays} {m : Moment}
    (h : Before b (b.job b.numBitplanes maxCodingPasses strict) b.numBitplanes
      (1 + 3 * (b.numBitplanes - 1)) a m) (hroom : b.numBitplanes ≤ 63) {x y : ℕ} (hx : x < b.width)
    (hy : y < b.height) :
    ClassicDecoder.getI64 (m.ctx.coefficients (b.cell x y)) = b.coefficient x y := by
  have hplane : b.numBitplanes - 1 - (1 + 3 * (b.numBitplanes - 1) - 1) / 3 = 0 := by omega
  unfold Before at h
  rw [if_neg (by omega),if_pos (by omega),hplane] at h
  have hlt := CodeBlock.small_of_numBitplanes hroom (b.cell x y)
  have hwhole : b.upTo 0 (b.cell x y) = (b.coefficient x y).natAbs := by
    unfold CodeBlock.upTo
    rw [pow_zero,Nat.div_one,Nat.mul_one,magnitudes_cell hx hy]
  rw [magnitudes_cell hx hy] at hlt
  rw [h.mirrors.done_value _ (Set.mem_univ _),hwhole,ClassicDecoder.getI64_signed hlt,
    h.mirrors.kept.negative,b.startArrays_isNegative hx hy]
  cases hsignificant : a.isSignificant (b.cell x y) with
  | false =>
      have hzero := (h.silent _ hsignificant).1 (Set.mem_univ _)
      rw [hwhole] at hzero
      rw [hzero,Int.natAbs_eq_zero.mp hzero]
      rfl
  | true =>
      rw [Bool.true_and]
      simp only [decide_eq_true_eq]
      split_ifs <;> omega

theorem mapM_segmentOf {data : List ℕ} {segments : List EncodedSegment}
    (h : ∀ segment ∈ segments, segment.dataOffset + segment.dataLength ≤ data.length) :
    segments.mapM (ClassicDecoder.segmentOf data) = some (segments.map (sliceSegment data)) := by
  induction segments with
  | nil => rfl
  | cons segment segments ih =>
      have hfirst : ClassicDecoder.segmentOf data segment = some (sliceSegment data segment) :=
        if_pos (h segment List.mem_cons_self)
      rw [List.mapM_cons,hfirst,ih fun s hs => h s (List.mem_cons_of_mem segment hs)]
      rfl

/-- What the layers bring of a segment: its data and the number of its passes. -/
def layerSegment (segment : CodeBlockSegment) : List ℕ × ℕ :=
  (segment.data,segment.endCodingPass - segment.startCodingPass)

theorem scheduledSegments_eq {segments : List CodeBlockSegment} {start stop : ℕ}
    (h : Contiguous start segments stop) (hmodes : ∀ segment ∈ segments,
      segment.useArithmetic = passUsesArithmetic b.cutStyle segment.startCodingPass) :
    ClassicDecoder.scheduledSegments b.style start (segments.map layerSegment) = segments ∧
      start + ((segments.map layerSegment).map Prod.snd).sum = stop := by
  induction segments generalizing start with
  | nil => exact ⟨rfl,h⟩
  | cons segment segments ih =>
      obtain ⟨rfl,hle,hrest⟩ := h
      obtain ⟨hscheduled,hsum⟩ := ih hrest fun s hs => hmodes s (List.mem_cons_of_mem segment hs)
      have hstop : segment.startCodingPass + (segment.endCodingPass - segment.startCodingPass) =
          segment.endCodingPass := Nat.add_sub_cancel' hle
      have hmode : (if b.style.selectiveArithmeticCodingBypass then
          decide (segment.startCodingPass ≤ 9) || decide (segment.startCodingPass % 3 = 0) else true) =
            segment.useArithmetic := by
        rw [hmodes segment List.mem_cons_self]
        unfold passUsesArithmetic CodeBlock.cutStyle
        cases b.style.selectiveArithmeticCodingBypass <;> simp
      refine ⟨?_,?_⟩
      · rw [List.map_cons]
        unfold layerSegment ClassicDecoder.scheduledSegments
        rw [hstop,hmode]
        exact congrArg (segment :: ·) hscheduled
      · rw [List.map_cons,List.map_cons,List.sum_cons,← Nat.add_assoc]
        unfold layerSegment
        dsimp only
        rw [hstop]
        exact hsum

theorem forM_singleton {β δ : Type} (f : β → Rec Moment δ Unit) (x : β) : [x].forM f = f x := by
  funext r
  rw [RecordedRuns.forM_cons,RecordedRuns.bind_run]
  cases f x r with
  | mk o r' => cases o <;> rfl

/-- Both ways into the decoder run over the same segments. -/
theorem decodeInner_eq {job : Job} {data : List ℕ} {segments : List EncodedSegment} {stop : ℕ}
    (hstyle : job.style = b.style)
    (hnormal : (b.style.terminationOnEachPass || b.style.selectiveArithmeticCodingBypass) = false →
      segments = [⟨0,data.length,0,stop,true⟩])
    (h : Contiguous 0 (segments.map (sliceSegment data)) stop)
    (hmodes : ∀ segment ∈ segments,
      segment.useArithmetic = passUsesArithmetic b.cutStyle segment.startCodingPass) :
    ClassicDecoder.decodeInner job ((segments.map (sliceSegment data)).map layerSegment) stop =
      (segments.map (sliceSegment data)).forM (ClassicDecoder.decodeSegment job) := by
  obtain ⟨hscheduled,hsum⟩ := scheduledSegments_eq h fun segment hmem => by
    obtain ⟨encoded,hencoded,rfl⟩ := List.mem_map.mp hmem
    exact hmodes encoded hencoded
  rw [Nat.zero_add] at hsum
  unfold ClassicDecoder.decodeInner
  rw [if_neg (not_not.mpr hsum),hstyle,hscheduled,← Bool.not_or,Bool.or_comm]
  cases hcut : (b.style.terminationOnEachPass || b.style.selectiveArithmeticCodingBypass) with
  | true => rw [Bool.not_true,if_neg Bool.false_ne_true]
  | false =>
      have hslice : sliceSegment data ⟨0,data.length,0,stop,true⟩ = ⟨data,0,stop,true⟩ := by
        unfold sliceSegment
        simp
      rw [Bool.not_false,if_pos rfl,hnormal hcut,List.map_singleton,hslice,List.map_singleton,
        forM_singleton]
      unfold layerSegment
      rw [List.flatMap_singleton]

/-- What the layers bring of a block, if they bring its segments one by one. -/
def layerSegments (encoded : EncodedCodeBlock) : List (List ℕ × ℕ) :=
  (encoded.segments.map (sliceSegment encoded.data)).map layerSegment

/-- The block that a decoder, strict or not, makes of an encoded one by either way. -/
def DecodesTo (b : CodeBlock) (totalBitplanes : ℕ) (encoded : EncodedCodeBlock) : Prop :=
  ∀ strict, ∃ ctx,
    ClassicDecoder.decodeCodeBlockSegmentsValidated encoded.data encoded.segments b.width b.height
      encoded.numZeroBitplanes encoded.numCodingPasses totalBitplanes b.subBandType b.style strict =
        .ok ctx ∧
    ClassicDecoder.decode (layerSegments encoded) b.width b.height encoded.numZeroBitplanes
      encoded.numCodingPasses totalBitplanes b.subBandType b.style strict = .ok ctx ∧
    ∀ x < b.width, ∀ y < b.height,
      ClassicDecoder.getI64 (ctx.coefficients (b.cell x y)) = b.coefficient x y

theorem decodesTo_behind {totalBitplanes : ℕ} {data : List ℕ} {segments : List EncodedSegment}
    {a : Arrays} {contexts : Buffer Context} (hpos : 0 < b.numBitplanes)
    (hfits : b.numBitplanes ≤ totalBitplanes) (hroom : b.numBitplanes ≤ 63)
    (hnormal : (b.style.terminationOnEachPass || b.style.selectiveArithmeticCodingBypass) = false →
      segments = [⟨0,data.length,0,1 + 3 * (b.numBitplanes - 1),true⟩])
    (h : Behind b b.numBitplanes data segments (1 + 3 * (b.numBitplanes - 1)) a contexts) :
    DecodesTo b totalBitplanes
      ⟨data,segments,1 + 3 * (b.numBitplanes - 1),totalBitplanes - b.numBitplanes⟩ := by
  intro strict
  obtain ⟨r,hrun,hmeets⟩ := h.decoded (CodeBlock.small_of_numBitplanes hroom) hroom strict
  have hjob := ClassicDecoder.resetForJob_ok b.width b.height b.subBandType b.style hpos hfits strict
  refine ⟨r.state.ctx,?_,?_,fun x hx y hy => hmeets.before.coefficients hroom hx hy⟩
  · unfold ClassicDecoder.decodeCodeBlockSegmentsValidated
    dsimp only
    rw [hjob,Fallible.ok_bind,if_neg (by dsimp only; omega),mapM_segmentOf h.inside]
    dsimp only
    rw [decodeCodeBlockSegments_eq h.contiguous]
    exact ClassicDecoder.arraysBehind_ok hrun
  · unfold ClassicDecoder.decode layerSegments
    dsimp only
    rw [hjob,Fallible.ok_bind,decodeInner_eq rfl hnormal h.contiguous h.modes]
    exact ClassicDecoder.arraysBehind_ok hrun

/-- A decoder makes zeros of a block without passes. -/
theorem decodesTo_zero {totalBitplanes : ℕ} (hzero : b.maxMagnitude = 0) :
    DecodesTo b totalBitplanes ⟨[],[],0,totalBitplanes⟩ := by
  intro strict
  have hjob : ClassicDecoder.resetForJob b.width b.height totalBitplanes 0 b.subBandType b.style
      totalBitplanes strict = .ok ⟨b.width,b.height,0,0,strict,b.subBandType,b.style⟩ := by
    unfold ClassicDecoder.resetForJob refuse
    rw [if_neg (by omega),Nat.sub_self]
    rfl
  refine ⟨.reset,?_,?_,fun x hx y hy => ?_⟩
  · unfold ClassicDecoder.decodeCodeBlockSegmentsValidated
    dsimp only
    rw [hjob,Fallible.ok_bind,if_pos (.inl rfl)]
    rfl
  · unfold ClassicDecoder.decode layerSegments
    dsimp only
    rw [hjob,Fallible.ok_bind]
    unfold ClassicDecoder.decodeInner
    dsimp only
    cases b.style.selectiveArithmeticCodingBypass with
    | true => rfl
    | false => cases b.style.terminationOnEachPass <;> rfl
  · have hle := b.coefficient_le_maxMagnitude hx hy
    rw [hzero,Nat.le_zero,Int.natAbs_eq_zero] at hle
    have hreset : ClassicDecoder.getI64 0 = 0 := by simp [ClassicDecoder.getI64]
    rw [hle]
    exact hreset

/-- Round trip: what is encoded of a block is decoded to its coefficients. -/
theorem tryEncodeSegmentedCodeBlock_round_trip (b : CodeBlock) (totalBitplanes : ℕ)
    (h : b.Accepted totalBitplanes) (hfits : b.numBitplanes ≤ totalBitplanes)
    (hroom : b.numBitplanes ≤ 63) :
    ∃ encoded, b.tryEncodeSegmentedCodeBlock totalBitplanes = .ok encoded ∧
      DecodesTo b totalBitplanes encoded := by
  by_cases hpos : 0 < b.numBitplanes
  · obtain ⟨data,segments,a,contexts,hencoded,hnormal,hbehind⟩ :=
      tryEncodeSegmentedCodeBlock_behind h hpos hfits
    exact ⟨_,hencoded,decodesTo_behind hpos hfits hroom hnormal hbehind⟩
  · have hzero : b.maxMagnitude = 0 := not_not.mp fun hzero => hpos (numBitplanes_pos.mpr hzero)
    exact ⟨_,tryEncodeSegmentedCodeBlock_zero h hzero,decodesTo_zero hzero⟩

/-- A block of thirty coefficients with raw passes, resets and segmentation symbols. -/
theorem tryEncodeSegmentedCodeBlock_round_trip_thirty :
    ∃ encoded, (⟨5,6,fun x y => 700 * x - 91 * y,.highLow,⟨true,true,false,true,true⟩⟩ :
        CodeBlock).tryEncodeSegmentedCodeBlock 14 = .ok encoded ∧
      DecodesTo ⟨5,6,fun x y => 700 * x - 91 * y,.highLow,⟨true,true,false,true,true⟩⟩ 14 encoded :=
  tryEncodeSegmentedCodeBlock_round_trip _ 14
    ⟨by decide,by decide,by decide,by decide,by decide,by decide⟩
    (Nat.size_le.mpr (by decide)) (Nat.size_le.mpr (by decide))

end

end J2kNative.ClassicEncoder
