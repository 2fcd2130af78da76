import J2kNative.ClassicFastPath
import Mathlib.Data.Nat.Bitwise

/-!
# State of a classic code block

Significance is kept three times: in the state of a coefficient, in the scan masks and in the
bytes of its neighbors. A flag of zero coding is set only where a neighbor is significant, and
the next significance propagation sets it anew wherever the clean-up might still look at it.
-/
namespace J2kNative.ClassicDecoder
open RecordedRuns CountedLoops MqStates MqDecoder BitStuffing

/-! ## Cells -/

section
variable {job : Job}

/-- The neighbor that a bit of the significances of a cell stands for. -/
def Job.neighborAt (job : Job) (idx : ℕ) : ℕ → Option ℕ
  | 7 => some (idx - job.paddedWidth - 1)
  | 6 => some (idx - job.paddedWidth)
  | 5 => some (idx - job.paddedWidth + 1)
  | 4 => some (idx - 1)
  | 3 => some (idx + job.paddedWidth - 1)
  | 2 => some (idx + 1)
  | 1 => some (idx + job.paddedWidth + 1)
  | 0 => some (idx + job.paddedWidth)
  | _ => none

theorem Job.cell_div {x y : ℕ} (hx : x < job.width) :
    job.cell x y / job.paddedWidth = y + 1 := by
  have hlt : x + 1 < job.paddedWidth := by unfold Job.paddedWidth; omega
  unfold Job.cell
  rw [Nat.add_assoc,Nat.add_comm,Nat.add_mul_div_right _ _ (by omega),Nat.div_eq_of_lt hlt,
    Nat.zero_add]

theorem Job.scanUnit_cell {x y : ℕ} (hx : x < job.width) :
    job.scanUnitMaskIndex (job.cell x y) = (y / 4 * job.width + x,y % 4) := by
  unfold Job.scanUnitMaskIndex
  dsimp only
  rw [Job.cell_div hx]
  have hcol : job.cell x y - (y + 1) * job.paddedWidth = x + 1 := by unfold Job.cell; omega
  rw [hcol,Nat.add_sub_cancel,Nat.add_sub_cancel]

theorem scanUnit_inj {w x y x' y' : ℕ} (hx : x < w) (hx' : x' < w)
    (h : (y / 4 * w + x,y % 4) = (y' / 4 * w + x',y' % 4)) : x = x' ∧ y = y' := by
  obtain ⟨hunit,hbit⟩ := Prod.mk.inj h
  have hxx : x = x' := by
    have := congrArg (· % w) hunit
    simpa only [Nat.mul_add_mod',Nat.mod_eq_of_lt hx,Nat.mod_eq_of_lt hx'] using this
  have hrow : y / 4 = y' / 4 := Nat.eq_of_mul_eq_mul_right (show 0 < w by omega) (by omega)
  exact ⟨hxx,by omega⟩

theorem Job.cell_inj {x y x' y' : ℕ} (hx : x < job.width) (hx' : x' < job.width)
    (h : job.cell x y = job.cell x' y') : x = x' ∧ y = y' := by
  have := congrArg job.scanUnitMaskIndex h
  rw [Job.scanUnit_cell hx,Job.scanUnit_cell hx'] at this
  exact scanUnit_inj hx hx' this

theorem mark_testBit (b : Buffer ℕ) (idx bit j k : ℕ) :
    (mark b idx bit j).testBit k = ((b j).testBit k || decide (j = idx ∧ k = bit)) := by
  unfold mark
  by_cases hj : j = idx
  · rw [hj,Buffer.set_self,Nat.testBit_or,Nat.testBit_two_pow]
    simp only [true_and,eq_comm]
  · rw [Buffer.set_of_ne _ _ hj]
    simp [hj]

end

/-! ## Changes -/

section
variable {job : Job} {ctx : BitPlaneDecodeContext}

theorem setSignificantIndex_isSignificant (idx j : ℕ) :
    (ctx.setSignificantIndex job idx).isSignificant j = (ctx.isSignificant j || decide (j = idx)) := by
  unfold BitPlaneDecodeContext.setSignificantIndex
  by_cases hsig : ctx.isSignificant idx
  · rw [if_pos hsig]
    by_cases hj : j = idx
    · rw [hj,hsig,Bool.true_or]
    · simp [hj]
  · rw [if_neg hsig]
    unfold BitPlaneDecodeContext.isSignificant
    dsimp only
    rw [mark_testBit]
    simp

theorem setSignificantIndex_hasZeroCoding (idx j : ℕ) :
    (ctx.setSignificantIndex job idx).hasZeroCoding j = ctx.hasZeroCoding j := by
  unfold BitPlaneDecodeContext.setSignificantIndex
  split_ifs
  · rfl
  · unfold BitPlaneDecodeContext.hasZeroCoding
    dsimp only
    rw [mark_testBit]
    simp [zeroCodingBit,significanceBit]

theorem setSignificantIndex_scanMasks {idx : ℕ} (hsig : ctx.isSignificant idx = false)
    (unit bit : ℕ) : ((ctx.setSignificantIndex job idx).significantScanMasks unit).testBit bit =
      ((ctx.significantScanMasks unit).testBit bit ||
        decide ((unit,bit) = job.scanUnitMaskIndex idx)) := by
  unfold BitPlaneDecodeContext.setSignificantIndex
  rw [if_neg (Bool.eq_false_iff.mp hsig)]
  unfold BitPlaneDecodeContext.setSignificantScanMask
  dsimp only
  rw [mark_testBit]
  simp only [Prod.ext_iff]

theorem setSignificantIndex_zeroCodingScanMasks (idx : ℕ) :
    (ctx.setSignificantIndex job idx).zeroCodingScanMasks = ctx.zeroCodingScanMasks := by
  unfold BitPlaneDecodeContext.setSignificantIndex
  split_ifs <;> rfl

/-- Each cell is told about the one that becomes significant by its own bit for it. -/
theorem setSignificantIndex_neighbors {idx j : ℕ} (hsig : ctx.isSignificant idx = false)
    (hidx : job.paddedWidth + 1 ≤ idx) (hj : job.paddedWidth + 1 ≤ j) (bit : ℕ) :
    ((ctx.setSignificantIndex job idx).neighborSignificances j).testBit bit =
      ((ctx.neighborSignificances j).testBit bit ||
        decide (job.neighborAt j bit = some idx)) := by
  unfold BitPlaneDecodeContext.setSignificantIndex
  rw [if_neg (Bool.eq_false_iff.mp hsig)]
  dsimp only
  simp only [mark_testBit,Bool.or_assoc]
  congr 1
  match bit with
  | 0 | 1 | 2 | 3 | 4 | 5 | 6 | 7 =>
      simp only [Job.neighborAt,Option.some.injEq]
      rw [Bool.eq_iff_iff]
      simp only [Bool.or_eq_true,decide_eq_true_eq,and_true]
      omega
  | bit + 8 =>
      have hnone : job.neighborAt j (bit + 8) = none := rfl
      rw [hnone,Bool.eq_iff_iff]
      simp only [Bool.or_eq_true,decide_eq_true_eq,reduceCtorEq,iff_false,and_false,false_or]
      omega

end

/-! ## Invariant -/

namespace BitPlaneDecodeContext
variable (job : Job) (ctx : BitPlaneDecodeContext)

/-- Whether a coefficient was zero coded in this bit plane. -/
def zeroCodedNow (idx : ℕ) : Bool :=
  (ctx.zeroCodingScanMasks (job.scanUnitMaskIndex idx).1).testBit (job.scanUnitMaskIndex idx).2

/-- What holds of the arrays in every state. -/
structure Inv : Prop where
  scanMasks : ∀ x < job.width, ∀ y < job.height,
    (ctx.significantScanMasks (y / 4 * job.width + x)).testBit (y % 4) =
      ctx.isSignificant (job.cell x y)
  neighbors : ∀ x < job.width, ∀ y < job.height, ∀ bit,
    (ctx.neighborSignificances (job.cell x y)).testBit bit =
      (job.neighborAt (job.cell x y) bit).any ctx.isSignificant
  margin : ∀ idx, ctx.isSignificant idx → ∃ x < job.width, ∃ y < job.height, idx = job.cell x y
  zeroCoded : ∀ x < job.width, ∀ y < job.height, ctx.hasZeroCoding (job.cell x y) →
    ctx.neighborhoodSignificanceStatesIndex job (job.cell x y) y ≠ 0
  marked : ∀ x < job.width, ∀ y < job.height, ctx.zeroCodedNow job (job.cell x y) →
    ctx.hasZeroCoding (job.cell x y)

/-- The flags of these coefficients are of this bit plane, or of significant ones. -/
def Settled (D : Set (ℕ × ℕ)) : Prop :=
  ∀ x < job.width, ∀ y < job.height, (x,y) ∈ D → ctx.hasZeroCoding (job.cell x y) →
    ctx.isSignificant (job.cell x y) ∨ ctx.zeroCodedNow job (job.cell x y)

/-- These coefficients have a significant neighbor in view. -/
def Near (W : Set (ℕ × ℕ)) : Prop :=
  ∀ x < job.width, ∀ y < job.height, (x,y) ∈ W →
    ctx.neighborhoodSignificanceStatesIndex job (job.cell x y) y ≠ 0

end BitPlaneDecodeContext

section
variable {job : Job} {ctx ctx' : BitPlaneDecodeContext} {D W : Set (ℕ × ℕ)}
open BitPlaneDecodeContext

theorem Inv.reset : Inv job .reset := by
  have hzero : ∀ bit, (0 : ℕ).testBit bit = false := Nat.zero_testBit
  refine ⟨fun _ _ _ _ => ?_,fun x _ y _ bit => ?_,fun _ h => ?_,fun _ _ _ _ h => ?_,
    fun _ _ _ _ h => ?_⟩
  · exact (hzero _).trans (hzero _).symm
  · have hnone : ∀ o : Option ℕ, o.any (isSignificant .reset) = false := by
      intro o
      cases o with
      | none => rfl
      | some i =>
          rw [Option.any_some]
          exact hzero _
    rw [hnone]
    exact hzero _
  · exact absurd h (Bool.eq_false_iff.mp (hzero _))
  · exact absurd h (Bool.eq_false_iff.mp (hzero _))
  · exact absurd h (Bool.eq_false_iff.mp (hzero _))

theorem Settled.reset : Settled job .reset D :=
  fun _ _ _ _ _ h => absurd h (Bool.eq_false_iff.mp (Nat.zero_testBit _))

/-- Bits of a byte that appear leave it nonzero under any mask. -/
theorem and_ne_zero_of_testBit {a b mask : ℕ} (h : ∀ bit, a.testBit bit → b.testBit bit)
    (ha : a &&& mask ≠ 0) : b &&& mask ≠ 0 := by
  obtain ⟨bit,hbit⟩ := Nat.exists_testBit_of_ne_zero ha
  rw [Nat.testBit_and,Bool.and_eq_true] at hbit
  intro hzero
  have : (b &&& mask).testBit bit = true := by
    rw [Nat.testBit_and,h bit hbit.1,hbit.2]
    rfl
  rw [hzero,Nat.zero_testBit] at this
  cases this

theorem neighborhood_ne_zero {idx y : ℕ}
    (h : ∀ bit, (ctx.neighborSignificances idx).testBit bit →
      (ctx'.neighborSignificances idx).testBit bit)
    (hne : ctx.neighborhoodSignificanceStatesIndex job idx y ≠ 0) :
    ctx'.neighborhoodSignificanceStatesIndex job idx y ≠ 0 := by
  unfold neighborhoodSignificanceStatesIndex at hne ⊢
  split_ifs at hne ⊢
  · exact and_ne_zero_of_testBit h hne
  · obtain ⟨bit,hbit⟩ := Nat.exists_testBit_of_ne_zero hne
    intro hzero
    have := h bit hbit
    rw [hzero,Nat.zero_testBit] at this
    cases this

/-- Everything that is known of the arrays during a pass. -/
structure Known (job : Job) (D W : Set (ℕ × ℕ)) (ctx : BitPlaneDecodeContext) : Prop where
  inv : Inv job ctx
  settled : Settled job ctx D
  near : Near job ctx W

/-- A change that keeps the invariant and what was done before. -/
def Safe (job : Job) (f : BitPlaneDecodeContext → BitPlaneDecodeContext) : Prop :=
  ∀ D W ctx, Known job D W ctx → Known job D W (f ctx)

theorem Safe.setSignIndex (idx : ℕ) (sign : Bool) :
    Safe job fun ctx => ctx.setSignIndex idx sign := fun _ _ _ h =>
  ⟨⟨h.inv.scanMasks,h.inv.neighbors,h.inv.margin,h.inv.zeroCoded,h.inv.marked⟩,h.settled,h.near⟩

theorem Safe.pushMagnitudeBitIndex (idx : ℕ) (bit : Bool) :
    Safe job fun ctx => ctx.pushMagnitudeBitIndex idx bit := fun _ _ _ h =>
  ⟨⟨h.inv.scanMasks,h.inv.neighbors,h.inv.margin,h.inv.zeroCoded,h.inv.marked⟩,h.settled,h.near⟩

theorem Safe.contexts (f : BitPlaneDecodeContext → Buffer Context) :
    Safe job fun ctx => { ctx with contexts := f ctx } := fun _ _ _ h =>
  ⟨⟨h.inv.scanMasks,h.inv.neighbors,h.inv.margin,h.inv.zeroCoded,h.inv.marked⟩,h.settled,h.near⟩

theorem Safe.currentBitPosition (n : ℕ) :
    Safe job fun ctx => { ctx with currentBitPosition := n } := fun _ _ _ h =>
  ⟨⟨h.inv.scanMasks,h.inv.neighbors,h.inv.margin,h.inv.zeroCoded,h.inv.marked⟩,h.settled,h.near⟩

theorem setMagnitudeRefinement_isSignificant (idx j : ℕ) :
    (ctx.setMagnitudeRefinement idx).isSignificant j = ctx.isSignificant j := by
  unfold setMagnitudeRefinement isSignificant
  dsimp only
  rw [mark_testBit]
  simp [magnitudeRefinementBit,significanceBit]

theorem setMagnitudeRefinement_hasZeroCoding (idx j : ℕ) :
    (ctx.setMagnitudeRefinement idx).hasZeroCoding j = ctx.hasZeroCoding j := by
  unfold setMagnitudeRefinement hasZeroCoding
  dsimp only
  rw [mark_testBit]
  simp [magnitudeRefinementBit,zeroCodingBit]

theorem Safe.setMagnitudeRefinement (idx : ℕ) :
    Safe job fun ctx => ctx.setMagnitudeRefinement idx := by
  intro D W ctx h
  have hsig : (ctx.setMagnitudeRefinement idx).isSignificant = ctx.isSignificant :=
    funext (setMagnitudeRefinement_isSignificant idx)
  have hzero : (ctx.setMagnitudeRefinement idx).hasZeroCoding = ctx.hasZeroCoding :=
    funext (setMagnitudeRefinement_hasZeroCoding idx)
  refine ⟨⟨?_,?_,?_,?_,?_⟩,?_,h.near⟩
  · rw [hsig]
    exact h.inv.scanMasks
  · rw [hsig]
    exact h.inv.neighbors
  · rw [hsig]
    exact h.inv.margin
  · rw [hzero]
    exact h.inv.zeroCoded
  · rw [hzero]
    exact h.inv.marked
  · unfold Settled
    rw [hsig,hzero]
    exact h.settled

/-- A coefficient of the block becomes significant, and so do the bits that tell of it. -/
theorem Safe.setSignificantIndex {x y : ℕ} (hx : x < job.width) (hy : y < job.height) :
    Safe job fun ctx => ctx.setSignificantIndex job (job.cell x y) := by
  intro D W ctx h
  by_cases hsig : ctx.isSignificant (job.cell x y)
  · have hsame : ctx.setSignificantIndex job (job.cell x y) = ctx := if_pos hsig
    dsimp only
    rwa [hsame]
  rw [Bool.not_eq_true] at hsig
  have hneighbors : ∀ cx < job.width, ∀ cy < job.height, ∀ bit,
      ((ctx.setSignificantIndex job (job.cell x y)).neighborSignificances (job.cell cx cy)).testBit bit =
        ((ctx.neighborSignificances (job.cell cx cy)).testBit bit ||
          decide (job.neighborAt (job.cell cx cy) bit = some (job.cell x y))) :=
    fun cx _ cy _ => setSignificantIndex_neighbors hsig (Job.cell_pos x y) (Job.cell_pos cx cy)
  have hgrown : ∀ cx < job.width, ∀ cy < job.height,
      ctx.neighborhoodSignificanceStatesIndex job (job.cell cx cy) cy ≠ 0 →
      (ctx.setSignificantIndex job (job.cell x y)).neighborhoodSignificanceStatesIndex job
        (job.cell cx cy) cy ≠ 0 := fun cx hcx cy hcy =>
    neighborhood_ne_zero fun bit hbit => by rw [hneighbors cx hcx cy hcy,hbit]; rfl
  have hnow : ∀ idx, (ctx.setSignificantIndex job (job.cell x y)).zeroCodedNow job idx =
      ctx.zeroCodedNow job idx := fun idx => by
    unfold zeroCodedNow
    rw [setSignificantIndex_zeroCodingScanMasks]
  refine ⟨⟨fun cx hcx cy hcy => ?_,fun cx hcx cy hcy bit => ?_,fun idx hidx => ?_,
    fun cx hcx cy hcy hflag => ?_,fun cx hcx cy hcy hflag => ?_⟩,
    fun cx hcx cy hcy hmem hflag => ?_,fun cx hcx cy hcy hmem => ?_⟩
  · rw [setSignificantIndex_scanMasks hsig,h.inv.scanMasks cx hcx cy hcy,
      setSignificantIndex_isSignificant,Job.scanUnit_cell hx]
    congr 1
    rw [decide_eq_decide]
    constructor
    · intro heq
      obtain ⟨rfl,rfl⟩ := scanUnit_inj hcx hx heq
      rfl
    · intro heq
      obtain ⟨rfl,rfl⟩ := Job.cell_inj hcx hx heq
      rfl
  · rw [hneighbors cx hcx cy hcy,h.inv.neighbors cx hcx cy hcy]
    cases job.neighborAt (job.cell cx cy) bit with
    | none => simp
    | some i =>
        rw [Option.any_some,Option.any_some,setSignificantIndex_isSignificant]
        simp
  · rw [setSignificantIndex_isSignificant,Bool.or_eq_true,decide_eq_true_eq] at hidx
    rcases hidx with hidx | rfl
    · exact h.inv.margin idx hidx
    · exact ⟨x,hx,y,hy,rfl⟩
  · dsimp only at hflag ⊢
    rw [setSignificantIndex_hasZeroCoding] at hflag
    exact hgrown cx hcx cy hcy (h.inv.zeroCoded cx hcx cy hcy hflag)
  · dsimp only at hflag ⊢
    rw [setSignificantIndex_hasZeroCoding]
    rw [hnow] at hflag
    exact h.inv.marked cx hcx cy hcy hflag
  · dsimp only at hflag ⊢
    rw [setSignificantIndex_hasZeroCoding] at hflag
    rw [setSignificantIndex_isSignificant,hnow]
    refine (h.settled cx hcx cy hcy hmem hflag).imp_left fun hs => ?_
    rw [hs]
    rfl
  · exact hgrown cx hcx cy hcy (h.near cx hcx cy hcy hmem)

theorem setZeroCodingIndex_isSignificant (idx j : ℕ) :
    (ctx.setZeroCodingIndex job idx).isSignificant j = ctx.isSignificant j := by
  unfold setZeroCodingIndex isSignificant
  dsimp only
  rw [mark_testBit]
  simp [zeroCodingBit,significanceBit]

theorem setZeroCodingIndex_hasZeroCoding (idx j : ℕ) :
    (ctx.setZeroCodingIndex job idx).hasZeroCoding j = (ctx.hasZeroCoding j || decide (j = idx)) := by
  unfold setZeroCodingIndex hasZeroCoding
  dsimp only
  rw [mark_testBit]
  simp

theorem setZeroCodingIndex_zeroCodedNow (idx j : ℕ) :
    (ctx.setZeroCodingIndex job idx).zeroCodedNow job j =
      (ctx.zeroCodedNow job j || decide (job.scanUnitMaskIndex j = job.scanUnitMaskIndex idx)) := by
  unfold setZeroCodingIndex zeroCodedNow
  dsimp only
  rw [mark_testBit]
  simp only [Prod.ext_iff]

/-- A coefficient is zero coded next to a significant one. -/
theorem Known.setZeroCodingIndex {x y : ℕ} (hx : x < job.width) (hy : y < job.height)
    (h : Known job D W ctx) (hnear : (x,y) ∈ W) :
    Known job (D ∪ {(x,y)}) W (ctx.setZeroCodingIndex job (job.cell x y)) := by
  have hsig : (ctx.setZeroCodingIndex job (job.cell x y)).isSignificant = ctx.isSignificant :=
    funext (setZeroCodingIndex_isSignificant _)
  have hsame : ∀ cx < job.width, ∀ cy < job.height,
      job.scanUnitMaskIndex (job.cell cx cy) = job.scanUnitMaskIndex (job.cell x y) ↔
        job.cell cx cy = job.cell x y := by
    intro cx hcx cy hcy
    refine ⟨fun heq => ?_,fun heq => by rw [heq]⟩
    rw [Job.scanUnit_cell hcx,Job.scanUnit_cell hx] at heq
    obtain ⟨rfl,rfl⟩ := scanUnit_inj hcx hx heq
    rfl
  have hcase : ∀ cx < job.width, ∀ cy < job.height,
      (ctx.setZeroCodingIndex job (job.cell x y)).hasZeroCoding (job.cell cx cy) →
      (cx = x ∧ cy = y) ∨ ctx.hasZeroCoding (job.cell cx cy) := by
    intro cx hcx cy hcy hflag
    rw [setZeroCodingIndex_hasZeroCoding,Bool.or_eq_true,decide_eq_true_eq] at hflag
    exact hflag.symm.imp_left (Job.cell_inj hcx hx)
  refine ⟨⟨?_,?_,?_,fun cx hcx cy hcy hflag => ?_,fun cx hcx cy hcy hflag => ?_⟩,
    fun cx hcx cy hcy hmem hflag => ?_,h.near⟩
  · rw [hsig]
    exact h.inv.scanMasks
  · rw [hsig]
    exact h.inv.neighbors
  · rw [hsig]
    exact h.inv.margin
  · rcases hcase cx hcx cy hcy hflag with ⟨rfl,rfl⟩ | hflag
    · exact h.near cx hcx cy hcy hnear
    · exact h.inv.zeroCoded cx hcx cy hcy hflag
  · rw [setZeroCodingIndex_zeroCodedNow,Bool.or_eq_true,decide_eq_true_eq,
      hsame cx hcx cy hcy] at hflag
    rw [setZeroCodingIndex_hasZeroCoding,Bool.or_eq_true,decide_eq_true_eq]
    exact hflag.imp_left (h.inv.marked cx hcx cy hcy)
  · rw [setZeroCodingIndex_zeroCodedNow,hsig,Bool.or_eq_true,decide_eq_true_eq,
      hsame cx hcx cy hcy]
    rcases hcase cx hcx cy hcy hflag with ⟨rfl,rfl⟩ | hflag
    · exact .inr (.inr rfl)
    · rcases hmem with hmem | hmem
      · exact (h.settled cx hcx cy hcy hmem hflag).imp_right .inl
      · obtain ⟨rfl,rfl⟩ := Prod.mk.inj (Set.mem_singleton_iff.mp hmem)
        exact .inr (.inr rfl)

theorem resetForNextBitplane_testBit {idx bit : ℕ}
    (h : ((ctx.resetForNextBitplane job).coefficientStates idx).testBit bit) :
    (ctx.coefficientStates idx).testBit bit := by
  unfold resetForNextBitplane at h
  dsimp only at h
  split_ifs at h with hbypass
  · dsimp only at h
    split_ifs at h
    · rw [Nat.testBit_and,Bool.and_eq_true] at h
      exact h.1
    · exact h
  · exact h

theorem resetForNextBitplane_isSignificant (idx : ℕ) :
    (ctx.resetForNextBitplane job).isSignificant idx = ctx.isSignificant idx := by
  have hmask : (2 ^ zeroCodingBit ^^^ 0xFF).testBit significanceBit = true := by decide
  unfold resetForNextBitplane isSignificant
  dsimp only
  split_ifs
  · dsimp only
    split_ifs
    · rw [Nat.testBit_and,hmask,Bool.and_true]
    · rfl
  · rfl

/-- Between the bit planes nothing is known of the flags. -/
theorem Known.resetForNextBitplane (h : Known job D W ctx) :
    Known job ∅ W (ctx.resetForNextBitplane job) := by
  have hsig : (ctx.resetForNextBitplane job).isSignificant = ctx.isSignificant :=
    funext resetForNextBitplane_isSignificant
  refine ⟨⟨?_,?_,?_,fun x hx y hy hflag => ?_,fun x hx y hy hflag => ?_⟩,
    fun _ _ _ _ hmem => absurd hmem (Set.notMem_empty _),h.near⟩
  · rw [hsig]
    exact h.inv.scanMasks
  · rw [hsig]
    exact h.inv.neighbors
  · rw [hsig]
    exact h.inv.margin
  · exact h.inv.zeroCoded x hx y hy (resetForNextBitplane_testBit hflag)
  · exact absurd hflag (Bool.eq_false_iff.mp (Nat.zero_testBit _))

end

end J2kNative.ClassicDecoder
