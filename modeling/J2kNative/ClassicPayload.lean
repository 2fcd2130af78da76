import J2kNative.ClassicChannels
import Mathlib.Algebra.BigOperators.Ring.List

/-!
# Payload of a classic block

A propagation brings two symbols for a coefficient at most, a refinement one, and a clean-up ten for
a column of four, which is where a run breaks off in its first row. A symbol takes less than fifteen
sevenths of a byte, so that the bytes of all passes stay within what is allocated for three symbols
of four bytes for each coefficient.
-/
namespace J2kNative.ClassicEncoder
open SymbolChannels CountedLoops

/-- Bits count twice, so that the bounds of the passes are whole numbers. -/
def Decision.cost (d : Decision) : ℕ := 2 * d.isBit.toNat

theorem sum_cost (ds : List Decision) : (ds.map Decision.cost).sum = 2 * ds.countP Decision.isBit := by
  induction ds with
  | nil => rfl
  | cons d ds ih =>
      rw [List.map_cons,List.sum_cons,ih,List.countP_cons]
      unfold Decision.cost
      cases d.isBit with
      | false => simp
      | true => simp [Nat.mul_add,Nat.add_comm]

namespace CodeBlock
variable {b : CodeBlock}

theorem sendBit_costs (raw : Bool) (label : ℕ) (bit : Bool) :
    Costs Decision.cost 2 (sendBit raw label bit) := by
  cases raw with
  | true => exact .send
  | false => exact .send

theorem becomeSignificant_costs (raw : Bool) (idx y : ℕ) :
    Costs Decision.cost 2 (b.becomeSignificant raw idx y) :=
  .bind (.look fun _ => sendBit_costs raw _ _) fun _ => .change _

theorem propagateCoefficient_costs (raw : Bool) (bitplane x y : ℕ) :
    Costs Decision.cost 4 (b.propagateCoefficient raw bitplane x y) := by
  refine .look fun a => .ite (fun _ => ?_) fun _ => (Costs.pure ()).mono (Nat.zero_le _)
  refine .mono (.bind (sendBit_costs raw _ _) fun _ => .bind (.change _) fun _ =>
    .ite (fun _ => becomeSignificant_costs raw _ _) fun _ => (Costs.pure ()).mono (Nat.zero_le _)) ?_
  exact le_rfl

theorem refineCoefficient_costs (raw : Bool) (bitplane x y : ℕ) :
    Costs Decision.cost 2 (b.refineCoefficient raw bitplane x y) :=
  .look fun _ => .ite (fun _ => .bind (sendBit_costs raw _ _) fun _ => .change _) fun _ =>
    (Costs.pure ()).mono (Nat.zero_le _)

theorem cleanupCoefficient_costs (bitplane x y : ℕ) :
    Costs Decision.cost 4 (b.cleanupCoefficient bitplane x y) :=
  .look fun _ => .ite (fun _ => .bind (sendBit_costs false _ _) fun _ =>
    .ite (fun _ => becomeSignificant_costs false _ _) fun _ => (Costs.pure ()).mono (Nat.zero_le _))
    fun _ => (Costs.pure ()).mono (Nat.zero_le _)

/-- A run breaks off with three symbols and a sign, and three rows may follow. -/
theorem cleanupRun_costs (bitplane x baseY : ℕ) :
    Costs Decision.cost 20 (b.cleanupRun bitplane x baseY) := by
  unfold cleanupRun
  split
  · refine .mono (.bind (sendBit_costs false 17 true) fun _ => .bind (sendBit_costs false 18 _) fun _ =>
      .bind (sendBit_costs false 18 _) fun _ => .bind (becomeSignificant_costs false _ _) fun _ =>
      .forM_const fun _ _ => cleanupCoefficient_costs bitplane x _) ?_
    rw [List.length_range']
    omega
  · exact (sendBit_costs false 17 false).mono (by decide)

theorem sum_stripeHeight (b : CodeBlock) (n : ℕ) :
    ((List.range n).map b.stripeHeight).sum = min (4 * n) b.height := by
  induction n with
  | zero => simp
  | succ n ih =>
      rw [List.range_succ,List.map_append,List.sum_append,ih,List.map_singleton,List.sum_singleton]
      unfold stripeHeight
      omega

/-- Columns that cost so much for each of their rows. -/
theorem forColumns_costs {column : ℕ → ℕ → Send Arrays Decision Unit} {c : ℕ}
    (h : ∀ stripe x, Costs Decision.cost (c * b.stripeHeight stripe) (column stripe x)) :
    Costs Decision.cost (c * (b.width * b.height)) (b.forColumns column) := by
  have hstripe : ∀ stripe ∈ List.range ((b.height + 3) / 4),
      Costs Decision.cost (c * b.width * b.stripeHeight stripe)
        ((List.range b.width).forM fun x => column stripe x) := by
    intro stripe _
    refine (Costs.forM_const fun x _ => h stripe x).mono (le_of_eq ?_)
    rw [List.length_range]
    ring
  refine (Costs.forM hstripe).mono (le_of_eq ?_)
  have hsum : ((List.range ((b.height + 3) / 4)).map fun stripe =>
      c * b.width * b.stripeHeight stripe).sum =
        c * b.width * ((List.range ((b.height + 3) / 4)).map b.stripeHeight).sum := by
    rw [← List.sum_map_mul_left]
  rw [hsum,sum_stripeHeight,Nat.min_eq_right (by omega)]
  ring

theorem propagationPass_costs (raw : Bool) (bitplane : ℕ) :
    Costs Decision.cost (4 * (b.width * b.height)) (b.propagationPass raw bitplane) :=
  forColumns_costs fun stripe x => (Costs.forM_const fun j _ =>
    propagateCoefficient_costs raw bitplane x _).mono (by rw [List.length_range]; omega)

theorem refinementPass_costs (raw : Bool) (bitplane : ℕ) :
    Costs Decision.cost (2 * (b.width * b.height)) (b.refinementPass raw bitplane) :=
  forColumns_costs fun stripe x => (Costs.forM_const fun j _ =>
    refineCoefficient_costs raw bitplane x _).mono (by rw [List.length_range]; omega)

theorem cleanupPass_costs (bitplane : ℕ) :
    Costs Decision.cost (5 * (b.width * b.height)) (b.cleanupPass bitplane) := by
  refine forColumns_costs fun stripe x => .look fun a => .ite (fun h => ?_) fun _ => ?_
  · rw [h.1]
    exact cleanupRun_costs bitplane x _
  · exact (Costs.forM_const fun j _ => cleanupCoefficient_costs bitplane x _).mono
      (by rw [List.length_range]; omega)

theorem resetContextsIfAsked_costs : Costs Decision.cost 0 b.resetContextsIfAsked :=
  .ite (fun _ => .send) fun _ => .pure ()

theorem segmentationSymbolsIfAsked_costs : Costs Decision.cost 8 b.segmentationSymbolsIfAsked :=
  .ite (fun _ => .bind (sendBit_costs false 18 true) fun _ => .bind (sendBit_costs false 18 false)
    fun _ => .bind (sendBit_costs false 18 true) fun _ => sendBit_costs false 18 false)
    fun _ => (Costs.pure ()).mono (Nat.zero_le _)

/-- What a turn costs by its pass. -/
def turnCost (b : CodeBlock) (codingPass : ℕ) : ℕ :=
  if codingPass % 3 = 0 then 5 * (b.width * b.height) + 8
  else if codingPass % 3 = 1 then 4 * (b.width * b.height)
  else 2 * (b.width * b.height)

theorem encodeTurn_costs (useArithmetic : Bool) (numBitplanes codingPass : ℕ) :
    Costs Decision.cost (b.turnCost codingPass)
      (b.encodeTurn useArithmetic numBitplanes codingPass) := by
  refine Costs.bind (n := b.turnCost codingPass) ?_ fun _ => resetContextsIfAsked_costs
  unfold encodeCodingPass turnCost
  dsimp only
  split_ifs
  · exact .bind (cleanupPass_costs _) fun _ => .bind segmentationSymbolsIfAsked_costs fun _ => .change _
  · exact propagationPass_costs false _
  · exact propagationPass_costs true _
  · exact refinementPass_costs false _
  · exact refinementPass_costs true _

/-- All turns of so many bit planes. -/
theorem sum_turnCost (b : CodeBlock) (n : ℕ) :
    ((List.range (1 + 3 * n)).map b.turnCost).sum + 6 * (b.width * b.height) =
      (n + 1) * (11 * (b.width * b.height) + 8) := by
  induction n with
  | zero =>
      have hfirst : b.turnCost 0 = 5 * (b.width * b.height) + 8 := rfl
      simp [hfirst]
      ring
  | succ n ih =>
      have h₁ : b.turnCost (1 + 3 * n) = 4 * (b.width * b.height) := by
        unfold turnCost
        rw [if_neg (by omega),if_pos (by omega)]
      have h₂ : b.turnCost (1 + 3 * n + 1) = 2 * (b.width * b.height) := by
        unfold turnCost
        rw [if_neg (by omega),if_neg (by omega)]
      have h₃ : b.turnCost (1 + 3 * n + 2) = 5 * (b.width * b.height) + 8 := by
        unfold turnCost
        rw [if_pos (by omega)]
      rw [show 1 + 3 * (n + 1) = 1 + 3 * n + 1 + 1 + 1 by ring]
      simp only [List.range_succ,List.map_append,List.sum_append,List.map_singleton,
        List.sum_singleton] at ih ⊢
      rw [h₁,h₂,h₃,Nat.succ_mul (n + 1),← ih]
      omega

end CodeBlock

/-! ## Allocation -/

/-- Blocks whose geometry the encoder accepts. -/
structure CodeBlock.Accepted (b : CodeBlock) (totalBitplanes : ℕ) : Prop where
  width_pos : 0 < b.width
  height_pos : 0 < b.height
  width_le : b.width ≤ maxTier1CodeBlockAxis
  height_le : b.height ≤ maxTier1CodeBlockAxis
  area_le : b.width * b.height ≤ maxTier1CodeBlockSamples
  bitplanes_le : totalBitplanes ≤ 64

theorem checked_ok {what : String} {n : ℕ} (h : n ≤ 2 ^ 32) : PayloadPlan.checked what n = .ok n :=
  if_pos (h.trans (by decide))

theorem refuse_ok {wrong : Prop} [Decidable wrong] {e : EncodeError} (h : ¬wrong) :
    Fallible.refuse wrong e = .ok () := if_neg h

/-- The allocation of an accepted block. -/
theorem classicWorkerAllocation_ok {b : CodeBlock} {totalBitplanes : ℕ}
    (h : b.Accepted totalBitplanes) : ∃ allocation,
      classicWorkerAllocation b.width b.height totalBitplanes = .ok allocation ∧
      allocation.payloadBytes = 4 * ((3 * (b.width * b.height) + 4) * totalBitplanes) +
        4 * allocation.codingPasses + 16 ∧
      allocation.codingPasses = (if totalBitplanes = 0 then 0 else 1 + 3 * (totalBitplanes - 1)) ∧
      allocation.payloadBytes < 2 ^ 22 := by
  obtain ⟨hw,hh,hw',hh',harea,hbits⟩ := h
  unfold maxTier1CodeBlockAxis at hw' hh'
  unfold maxTier1CodeBlockSamples at harea
  have hpadded : (b.width + 2) * (b.height + 2) ≤ 8196 := by
    have : (b.width + 2) * (b.height + 2) = b.width * b.height + 2 * b.width + 2 * b.height + 4 := by ring
    omega
  have hsymbols : (3 * (b.width * b.height) + 4) * totalBitplanes ≤ 12292 * 64 :=
    Nat.mul_le_mul (by omega) hbits
  have hpasses : (if totalBitplanes = 0 then 0 else 1 + 3 * (totalBitplanes - 1)) ≤ 190 := by
    split_ifs <;> omega
  have hallocated : allocatedPasses totalBitplanes =
      .ok (if totalBitplanes = 0 then 0 else 1 + 3 * (totalBitplanes - 1)) := by
    unfold allocatedPasses
    split_ifs
    · rfl
    · rw [checked_ok (by omega),Fallible.ok_bind,checked_ok (by omega)]
  generalize (if totalBitplanes = 0 then 0 else 1 + 3 * (totalBitplanes - 1)) = passes at *
  have hgeometry : validateTier1CodeBlockGeometry b.width b.height = .ok (b.width * b.height) := by
    unfold validateTier1CodeBlockGeometry
    rw [refuse_ok (by omega),Fallible.ok_bind,checked_ok (by omega),Fallible.ok_bind,refuse_ok
      (by unfold maxTier1CodeBlockAxis maxTier1CodeBlockSamples; omega),Fallible.ok_bind]
    rfl
  have hperPlane : symbolsPerBitplane (b.width * b.height) = .ok (3 * (b.width * b.height) + 4) := by
    unfold symbolsPerBitplane
    rw [checked_ok (by omega),Fallible.ok_bind,checked_ok (by omega)]
  have hpayload : payloadBound ((3 * (b.width * b.height) + 4) * totalBitplanes) passes =
      .ok (4 * ((3 * (b.width * b.height) + 4) * totalBitplanes) + 4 * passes + 16) := by
    unfold payloadBound
    rw [checked_ok (by omega),Fallible.ok_bind,checked_ok (by omega),Fallible.ok_bind,
      checked_ok (by omega),Fallible.ok_bind,checked_ok (by omega)]
  have hcap : ∀ n, n ≤ 2 ^ 24 → ¬n > PayloadPlan.defaultMaxCodecBytes := by
    unfold PayloadPlan.defaultMaxCodecBytes
    omega
  unfold classicWorkerAllocation
  rw [refuse_ok (by omega),Fallible.ok_bind,hgeometry,Fallible.ok_bind,checked_ok (by omega),
    Fallible.ok_bind,checked_ok (by omega),Fallible.ok_bind,checked_ok (by omega),Fallible.ok_bind,
    hallocated,Fallible.ok_bind,hperPlane,Fallible.ok_bind,checked_ok (by omega),Fallible.ok_bind,
    hpayload,Fallible.ok_bind]
  unfold PayloadPlan.encodedSegmentBytes paddedCoefficientBytes
  rw [checked_ok (by omega),Fallible.ok_bind,checked_ok (by omega),Fallible.ok_bind,
    checked_ok (by omega),Fallible.ok_bind,checked_ok (by omega),Fallible.ok_bind,
    checked_ok (by omega),Fallible.ok_bind,checked_ok (by omega),Fallible.ok_bind,
    refuse_ok (hcap _ (by omega)),Fallible.ok_bind]
  exact ⟨_,rfl,rfl,rfl,by dsimp only; omega⟩

end J2kNative.ClassicEncoder
