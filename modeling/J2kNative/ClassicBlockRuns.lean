import J2kNative.ClassicBlockState

/-!
# Runs of the classic decoder

The invariant holds in every state that a run goes through, whatever its segments are and also
where it gives up. In a clean-up no decision depends on a flag of an earlier bit plane, since the
significance propagation before it has looked at all coefficients.
-/
namespace J2kNative.ClassicDecoder
open RecordedRuns CountedLoops MqStates MqDecoder BitStuffing BitPlaneDecodeContext

/-! ## Parts of a pass -/

/-- What holds in every state: in a clean-up all flags are settled. -/
def Good (job : Job) (m : Moment) : Prop :=
  Inv job m.ctx ∧ (m.phase = .cleanup → Settled job m.ctx Set.univ)

/-- A state in a pass, with what the pass has done so far. -/
structure During (job : Job) (phase : Phase) (D W : Set (ℕ × ℕ)) (m : Moment) : Prop where
  samePhase : m.phase = phase
  known : Known job D W m.ctx
  whole : phase = .cleanup → D = Set.univ

section
variable {δ : Type} {job : Job} {phase : Phase} {D W : Set (ℕ × ℕ)}

theorem During.good {m : Moment} (h : During job phase D W m) : Good job m :=
  ⟨h.known.inv,fun hphase => h.whole (h.samePhase.symm.trans hphase) ▸ h.known.settled⟩

theorem During.near_mono {W' : Set (ℕ × ℕ)} {m : Moment} (h : During job phase D W m)
    (hW : W' ⊆ W) : During job phase D W' m :=
  ⟨h.samePhase,⟨h.known.inv,h.known.settled,
    fun x hx y hy hmem => h.known.near x hx y hy (hW hmem)⟩,h.whole⟩

/-- A computation that keeps what is known. -/
abbrev Keeps {α : Type} (job : Job) (m : Rec Moment δ α) : Prop :=
  ∀ phase D W, Triple (Good job) (During job phase D W) m fun _ => During job phase D W

theorem keeps_edit {f : BitPlaneDecodeContext → BitPlaneDecodeContext} (hf : Safe job f) :
    Keeps job (edit f : Rec Moment δ Unit) := fun _ D W =>
  .update fun m h =>
    have hafter : During job _ D W { m with ctx := f m.ctx } :=
      ⟨h.samePhase,hf D W m.ctx h.known,h.whole⟩
    ⟨hafter.good,hafter⟩

theorem keeps_pure : Keeps job (pure () : Rec Moment δ Unit) := fun _ _ _ => .pure fun _ h => h

theorem Keeps.bind {α β : Type} {m : Rec Moment δ α} {f : α → Rec Moment δ β} (hm : Keeps job m)
    (hf : ∀ a, Keeps job (f a)) : Keeps job (m >>= f) :=
  fun phase D W => (hm phase D W).bind fun a => hf a phase D W

theorem Keeps.read {α : Type} {f : Moment → Rec Moment δ α} (hf : ∀ m, Keeps job (f m)) :
    Keeps job (current >>= f) := fun phase D W =>
  .read fun m hm => (hf m phase D W).mono (fun _ h => h ▸ hm) fun _ _ h => h

theorem Keeps.ite {α : Type} {c : Prop} [Decidable c] {m m' : Rec Moment δ α} (hm : Keeps job m)
    (hm' : Keeps job m') : Keeps job (if c then m else m') :=
  fun phase D W => .ite (fun _ => hm phase D W) fun _ => hm' phase D W

theorem Keeps.forM {β : Type} {l : List β} {f : β → Rec Moment δ Unit}
    (hf : ∀ b ∈ l, Keeps job (f b)) : Keeps job (l.forM f) :=
  fun phase D W => .forM fun b hb => hf b hb phase D W

theorem keeps_readBitArithmetic (label : ℕ) : Keeps job (readBitArithmetic label) :=
  .read fun _ => .bind (fun _ _ _ => .consume) fun _ =>
    .bind (keeps_edit (.contexts _)) fun _ _ _ _ => .pure fun _ h => h

theorem keeps_readBitBypass (strict : Bool) (label : ℕ) :
    Keeps job (readBitBypass strict label) := fun _ _ _ => .consume

variable {readBit : ℕ → Rec Moment δ Bool} (hread : ∀ label, Keeps job (readBit label))
include hread

theorem keeps_becomeSignificant (raw : Bool) {x y : ℕ} (hx : x < job.width) (hy : y < job.height) :
    Keeps job (becomeSignificant job false readBit raw (job.cell x y) y) :=
  .bind (.read fun _ => .bind (hread _) fun _ => keeps_edit (.setSignIndex _ _)) fun _ =>
    keeps_edit (.setSignificantIndex hx hy)

theorem keeps_cleanupCoefficient (raw : Bool) {x y : ℕ} (hx : x < job.width) (hy : y < job.height) :
    Keeps job (cleanupCoefficient job false readBit raw x y) :=
  .read fun _ => .bind (hread _) fun _ => .bind (keeps_edit (.pushMagnitudeBitIndex _ _)) fun _ =>
    .ite (keeps_becomeSignificant hread raw hx hy) keeps_pure

theorem keeps_cleanupRunLength (raw : Bool) {rest : ℕ → Rec Moment δ Unit} {x baseY : ℕ}
    (hrest : ∀ y < job.height, Keeps job (rest y)) (hx : x < job.width)
    (hy : baseY + 3 < job.height) :
    Keeps job (cleanupRunLength job false readBit raw rest x baseY) := by
  refine .bind (hread _) fun bit => .ite (.bind (hread _) fun high => .bind (hread _) fun low => ?_)
    keeps_pure
  have hhigh := high.toNat_lt
  have hlow := low.toNat_lt
  refine .bind (keeps_edit (.pushMagnitudeBitIndex _ _)) fun _ =>
    .bind (keeps_becomeSignificant hread raw hx (by omega)) fun _ => .forM fun bitY hbitY => ?_
  have := List.mem_range'_1.mp hbitY
  exact hrest _ (by omega)

theorem keeps_refineCoefficient (x y : ℕ) : Keeps job (refineCoefficient job false readBit x y) :=
  .read fun _ => .bind (hread _) fun _ => .bind (keeps_edit (.pushMagnitudeBitIndex _ _)) fun _ =>
    keeps_edit (.setMagnitudeRefinement _)

omit hread in
theorem keeps_forColumns {column : ℕ → ℕ → Rec Moment δ Unit}
    (h : ∀ stripe, ∀ x < job.width, Keeps job (column stripe x)) : Keeps job (forColumns job column) :=
  .forM fun stripe _ => .forM fun x hx => h stripe x (List.mem_range.mp hx)

theorem keeps_magnitudeRefinementPass : Keeps job (magnitudeRefinementPass job false readBit) :=
  keeps_forColumns fun _ _ _ => .read fun _ => .forM fun _ _ =>
    .ite keeps_pure (keeps_refineCoefficient hread _ _)

theorem keeps_checkSegmentationSymbol : Keeps job (checkSegmentationSymbol job readBit) :=
  .ite (.bind (hread _) fun _ => .bind (hread _) fun _ => .bind (hread _) fun _ =>
    .bind (hread _) fun _ => .ite (fun _ _ _ => .giveUp) keeps_pure) keeps_pure

/-! ## Significance propagation -/

/-- Step lemma: behind its turn the flag of a coefficient is settled. -/
theorem propagateCoefficient_settles (raw : Bool) {x y : ℕ} (hx : x < job.width)
    (hy : y < job.height) (D : Set (ℕ × ℕ)) :
    Triple (Good job) (During job .significancePropagation D ∅)
      (propagateCoefficient job false readBit raw x y)
      fun _ => During job .significancePropagation (D ∪ {(x,y)}) ∅ := by
  refine .read fun m hm => ?_
  have hneighbors : m.ctx.neighborhoodSignificanceStatesForPath job false (job.cell x y) y =
      m.ctx.neighborhoodSignificanceStatesIndex job (job.cell x y) y := rfl
  refine .ite (fun hcoded => ?_) fun hskipped => .pure fun s hs => ?_
  · simp only [Bool.and_eq_true,Bool.not_eq_true',bne_iff_ne,hneighbors] at hcoded
    have hnear : During job .significancePropagation D {(x,y)} m :=
      ⟨hm.samePhase,⟨hm.known.inv,hm.known.settled,fun cx hcx cy hcy hmem => by
        obtain ⟨rfl,rfl⟩ := Prod.mk.inj (Set.mem_singleton_iff.mp hmem)
        exact hcoded.2⟩,hm.whole⟩
    have hzero : Triple (Good job) (During job .significancePropagation D {(x,y)})
        (edit fun ctx => ctx.setZeroCodingIndex job (job.cell x y) : Rec Moment δ Unit)
        fun _ => During job .significancePropagation (D ∪ {(x,y)}) {(x,y)} :=
      .update fun m h =>
        have hafter : During job .significancePropagation (D ∪ {(x,y)}) {(x,y)}
            { m with ctx := m.ctx.setZeroCodingIndex job (job.cell x y) } :=
          ⟨h.samePhase,h.known.setZeroCodingIndex hx hy rfl,nofun⟩
        ⟨hafter.good,hafter⟩
    refine Triple.mono (.bind (hread _ .significancePropagation D {(x,y)}) fun bit =>
      .bind (keeps_edit (.pushMagnitudeBitIndex _ _) _ _ _) fun _ => .bind hzero fun _ =>
      .ite (fun _ => keeps_becomeSignificant hread raw hx hy _ _ _) fun _ => .pure fun _ h => h)
      (fun _ h => h ▸ hnear) fun _ _ h => h.near_mono (Set.empty_subset _)
  · subst hs
    refine ⟨hm.samePhase,⟨hm.known.inv,fun cx hcx cy hcy hmem hflag => ?_,hm.known.near⟩,nofun⟩
    rcases hmem with hmem | hmem
    · exact hm.known.settled cx hcx cy hcy hmem hflag
    · obtain ⟨rfl,rfl⟩ := Prod.mk.inj (Set.mem_singleton_iff.mp hmem)
      have hne := hm.known.inv.zeroCoded cx hcx cy hcy hflag
      by_contra hnot
      rw [not_or,Bool.not_eq_true] at hnot
      refine hskipped ?_
      rw [hneighbors,hnot.1,Bool.not_false,Bool.true_and]
      exact bne_iff_ne.mpr hne

theorem significancePropagationPass_settles (raw : Bool) (D : Set (ℕ × ℕ)) :
    Triple (Good job) (During job .significancePropagation D ∅)
      (significancePropagationPass job false readBit raw)
      fun _ => During job .significancePropagation Set.univ ∅ := by
  have hcell : ∀ stripe, ∀ x ∈ List.range job.width,
      ∀ bitY ∈ List.range (stripeHeight job stripe), ∀ D,
      Triple (Good job) (During job .significancePropagation D ∅)
        (propagateCoefficient job false readBit raw x (4 * stripe + bitY))
        fun _ => During job .significancePropagation (D ∪ {(x,4 * stripe + bitY)}) ∅ := by
    intro stripe x hx bitY hbitY D
    rw [List.mem_range] at hx hbitY
    unfold stripeHeight at hbitY
    exact propagateCoefficient_settles hread raw hx (by omega) D
  have hcolumn : ∀ stripe, ∀ x ∈ List.range job.width, ∀ D,
      Triple (Good job) (During job .significancePropagation D ∅)
        ((List.range (stripeHeight job stripe)).forM fun bitY =>
          propagateCoefficient job false readBit raw x (4 * stripe + bitY))
        fun _ => During job .significancePropagation
          (D ∪ ⋃ bitY ∈ List.range (stripeHeight job stripe), {(x,4 * stripe + bitY)}) ∅ :=
    fun stripe x hx D => Triple.forM_collect (I := fun D => During job .significancePropagation D ∅)
      (hcell stripe x hx)
  have hstripe : ∀ stripe, ∀ D, Triple (Good job) (During job .significancePropagation D ∅)
        ((List.range job.width).forM fun x => (List.range (stripeHeight job stripe)).forM fun bitY =>
          propagateCoefficient job false readBit raw x (4 * stripe + bitY))
        fun _ => During job .significancePropagation (D ∪ ⋃ x ∈ List.range job.width,
          ⋃ bitY ∈ List.range (stripeHeight job stripe), {(x,4 * stripe + bitY)}) ∅ :=
    fun stripe D => Triple.forM_collect (I := fun D => During job .significancePropagation D ∅)
      (hcolumn stripe)
  refine Triple.mono (Triple.forM_collect (I := fun D => During job .significancePropagation D ∅)
    fun stripe _ D => hstripe stripe D) (fun _ h => h)
    fun _ s hs => ⟨hs.samePhase,⟨hs.known.inv,fun x hx y hy _ hflag => ?_,hs.known.near⟩,nofun⟩
  refine hs.known.settled x hx y hy (.inr ?_) hflag
  simp only [Set.mem_iUnion,List.mem_range,Set.mem_singleton_iff,Prod.mk.injEq]
  refine ⟨y / 4,by omega,x,hx,y % 4,?_,rfl,by omega⟩
  unfold stripeHeight
  omega

end

/-! ## Clean-up -/

section
variable {job : Job}

theorem mem_maskBits_cleanup {ctx : BitPlaneDecodeContext} {scanUnit stripeHeight bitY : ℕ}
    (h : bitY ∈ maskBits (cleanupCandidateScanMask ctx scanUnit stripeHeight)) :
    bitY < stripeHeight := by
  have hbit := (List.mem_filter.mp h).2
  unfold cleanupCandidateScanMask scanUnitValidMask at hbit
  rw [Nat.testBit_and,Nat.testBit_two_pow_sub_one,Bool.and_eq_true,decide_eq_true_eq] at hbit
  exact hbit.1

theorem keeps_cleanupPassArithmetic : Keeps job (cleanupPassArithmetic job false) := by
  have hread : ∀ label, Keeps job (readBitArithmetic label) := keeps_readBitArithmetic
  refine keeps_forColumns fun stripe x hx => .read fun m => ?_
  unfold Keeps
  intro phase D W
  refine .ite (fun hrun => ?_) fun _ => ?_
  · have hheight : stripeHeight job stripe = 4 := hrun.2.1
    unfold stripeHeight at hheight
    exact keeps_cleanupRunLength hread false
      (fun y hy => keeps_cleanupCoefficient hread false hx hy) hx (by omega) phase D W
  · refine Keeps.forM (fun bitY hbitY => ?_) phase D W
    have hlt := mem_maskBits_cleanup hbitY
    unfold stripeHeight at hlt
    exact keeps_cleanupCoefficient hread false hx (by omega)

theorem keeps_cleanupCoefficientBypass {x y : ℕ} (hx : x < job.width) (hy : y < job.height) :
    Keeps job (cleanupCoefficientBypass job x y) :=
  .read fun _ => .ite (keeps_cleanupCoefficient (keeps_readBitBypass job.strict) true hx hy) keeps_pure

theorem keeps_cleanupPassBypass : Keeps job (cleanupPassBypass job) := by
  refine keeps_forColumns fun stripe x hx => .read fun m => ?_
  unfold Keeps
  intro phase D W
  refine .ite (fun hrun => ?_) fun _ => ?_
  · have hheight : stripeHeight job stripe = 4 := hrun.1
    unfold stripeHeight at hheight
    exact keeps_cleanupRunLength (keeps_readBitBypass job.strict) true
      (fun y hy => keeps_cleanupCoefficientBypass hx hy) hx (by omega) phase D W
  · refine Keeps.forM (fun bitY hbitY => ?_) phase D W
    have hlt := List.mem_range.mp hbitY
    unfold stripeHeight at hlt
    exact keeps_cleanupCoefficientBypass hx (by omega)

end

/-! ## Schedule -/

/-- What a coding pass starts with: behind a clean-up nothing is known of the flags. -/
def BeforePass (job : Job) (pass : ℕ) : Moment → Prop :=
  During job .betweenPasses (if pass % 3 = 1 then ∅ else Set.univ) ∅

section
variable {δ : Type} {job : Job} {D : Set (ℕ × ℕ)}

theorem enter_triple {phase : Phase} (next : Phase) (hwhole : next = .cleanup → D = Set.univ) :
    Triple (Good job) (During job phase D ∅) (enter next : Rec Moment δ Unit)
      fun _ => During job next D ∅ :=
  .update fun m h =>
    have hafter : During job next D ∅ { m with phase := next } := ⟨rfl,h.known,hwhole⟩
    ⟨hafter.good,hafter⟩

theorem reset_triple : Triple (Good job) (During job .betweenPasses D ∅)
    (edit fun ctx => ctx.resetForNextBitplane job : Rec Moment δ Unit)
    fun _ => During job .betweenPasses ∅ ∅ :=
  .update fun m h =>
    have hafter : During job .betweenPasses ∅ ∅ { m with ctx := m.ctx.resetForNextBitplane job } :=
      ⟨h.samePhase,h.known.resetForNextBitplane,nofun⟩
    ⟨hafter.good,hafter⟩

/-- Step lemma: a pass leads from what it starts with to what the next one starts with. -/
theorem codingPass_triple {readBit : ℕ → Rec Moment δ Bool}
    {cleanup significancePropagation magnitudeRefinement : Rec Moment δ Unit}
    (hread : ∀ label, Keeps job (readBit label)) (hcleanup : Keeps job cleanup)
    (hpropagation : ∀ D, Triple (Good job) (During job .significancePropagation D ∅)
      significancePropagation fun _ => During job .significancePropagation Set.univ ∅)
    (hrefinement : Keeps job magnitudeRefinement) (pass : ℕ) :
    Triple (Good job) (BeforePass job pass)
      (codingPass job readBit cleanup significancePropagation magnitudeRefinement pass)
      fun _ => BeforePass job (pass + 1) := by
  have hcontexts : Keeps job (if job.style.resetContextProbabilities then
      edit fun ctx => { ctx with contexts := resetContexts } else pure () : Rec Moment δ Unit) :=
    .ite (keeps_edit (.contexts _)) keeps_pure
  unfold BeforePass codingPass
  refine .bind (keeps_edit (.currentBitPosition _) _ _ _) fun _ => ?_
  refine .bind ?_ fun _ => hcontexts _ _ _
  unfold passOfNumber
  rcases (by omega : pass % 3 = 0 ∨ pass % 3 = 1 ∨ pass % 3 = 2) with hpass | hpass | hpass
  · rw [if_neg (by omega),if_pos hpass,if_pos (show (pass + 1) % 3 = 1 by omega)]
    exact .bind (enter_triple .cleanup fun _ => rfl) fun _ => .bind (hcleanup _ _ _) fun _ =>
      .bind (keeps_checkSegmentationSymbol hread _ _ _) fun _ =>
      .bind (enter_triple .betweenPasses nofun) fun _ => reset_triple
  · rw [if_pos hpass,if_neg (show ¬pass % 3 = 0 by omega),if_pos hpass,
      if_neg (show ¬(pass + 1) % 3 = 1 by omega)]
    exact .bind (enter_triple .significancePropagation nofun) fun _ =>
      .bind (hpropagation _) fun _ => enter_triple .betweenPasses nofun
  · rw [if_neg (show ¬pass % 3 = 1 by omega),if_neg (show ¬pass % 3 = 0 by omega),
      if_neg (show ¬pass % 3 = 1 by omega),if_neg (show ¬(pass + 1) % 3 = 1 by omega)]
    exact .bind (enter_triple .magnitudeRefinement nofun) fun _ =>
      .bind (hrefinement _ _ _) fun _ => enter_triple .betweenPasses nofun

end

section
variable {job : Job}

/-- The path without a look at the stripe is taken only where it does not matter. -/
theorem handleArithmetic_path (start stop : ℕ) :
    handleArithmeticCodingPassesWithNeighbors job job.usesNormalArithmeticNeighborPath start stop =
      handleArithmeticCodingPassesWithNeighbors job false start stop := by
  cases hpath : job.usesNormalArithmeticNeighborPath with
  | false => rfl
  | true =>
      have hcausal := causal_of_normal hpath
      unfold handleArithmeticCodingPassesWithNeighbors
      rw [significancePropagationPass_eq hcausal,magnitudeRefinementPass_eq hcausal,
        cleanupPassArithmetic_eq hcausal]

theorem handleArithmetic_triple {start stop : ℕ} (h : start ≤ stop) :
    Triple (Good job) (BeforePass job start)
      (handleArithmeticCodingPassesWithNeighbors job false start stop)
      fun _ => BeforePass job stop := by
  have hrun := Triple.forM_range' (I := BeforePass job) start (stop - start)
    (codingPass_triple keeps_readBitArithmetic keeps_cleanupPassArithmetic
      (significancePropagationPass_settles keeps_readBitArithmetic false)
      (keeps_magnitudeRefinementPass keeps_readBitArithmetic))
  rwa [Nat.add_sub_cancel' h] at hrun

theorem handleBypass_triple {start stop : ℕ} (h : start ≤ stop) :
    Triple (Good job) (BeforePass job start) (handleBypassCodingPasses job start stop)
      fun _ => BeforePass job stop := by
  have hread : ∀ label, Keeps job (readBitBypass job.strict label) := keeps_readBitBypass job.strict
  have hrun := Triple.forM_range' (I := BeforePass job) start (stop - start)
    (codingPass_triple hread keeps_cleanupPassBypass (significancePropagationPass_settles hread true)
      (keeps_magnitudeRefinementPass hread))
  rwa [Nat.add_sub_cancel' h] at hrun

/-- A segment, whose passes beyond the last bit plane are left out. -/
theorem decodeSegment_triple {data : List ℕ} {start stop : ℕ} {useArithmetic : Bool}
    (h : start ≤ stop) :
    Triple (Good job) (BeforePass job (min start job.maxCodingPasses))
      (decodeSegment job ⟨data,start,stop,useArithmetic⟩)
      fun _ => BeforePass job (min stop job.maxCodingPasses) := by
  unfold decodeSegment
  dsimp only
  rw [handleArithmetic_path]
  by_cases hstart : start ≤ job.maxCodingPasses
  · rw [min_eq_left hstart]
    exact .ite (fun _ => (handleArithmetic_triple (by omega)).withSource)
      fun _ => (handleBypass_triple (by omega)).withSource
  · have hempty : min stop job.maxCodingPasses - start = 0 := by omega
    rw [min_eq_right (by omega : job.maxCodingPasses ≤ start)]
    unfold handleArithmeticCodingPassesWithNeighbors handleBypassCodingPasses
    rw [hempty,min_eq_right (by omega)]
    exact .ite (fun _ => Triple.withSource (.pure fun _ h => h))
      fun _ => Triple.withSource (.pure fun _ h => h)

/-- Run lemma over the segments of a job. -/
theorem decodeCodeBlockSegments_triple (segments : List CodeBlockSegment) (expectedStart n : ℕ) :
    Triple (Good job) (BeforePass job (min expectedStart job.maxCodingPasses))
      (decodeCodeBlockSegments job segments expectedStart n) fun _ _ => True := by
  induction segments generalizing expectedStart with
  | nil => exact .ite (fun _ => .giveUp) fun _ => .pure fun _ _ => trivial
  | cons segment segments ih =>
      obtain ⟨data,start,stop,useArithmetic⟩ := segment
      unfold decodeCodeBlockSegments
      refine .ite (fun _ => .giveUp) fun hsegment => ?_
      obtain ⟨rfl,hle⟩ : start = expectedStart ∧ start ≤ stop := by
        dsimp only at hsegment
        omega
      exact (decodeSegment_triple hle).bind fun _ => ih stop

/-- Run lemma over the segments that the style makes. -/
theorem scheduledSegments_triple (segments : List (List ℕ × ℕ)) (start : ℕ) :
    Triple (Good job) (BeforePass job (min start job.maxCodingPasses))
      ((scheduledSegments job.style start segments).forM (decodeSegment job)) fun _ _ => True := by
  induction segments generalizing start with
  | nil => exact .pure fun _ _ => trivial
  | cons segment segments ih =>
      obtain ⟨data,codingPasses⟩ := segment
      unfold scheduledSegments
      rw [RecordedRuns.forM_cons]
      exact (decodeSegment_triple (Nat.le_add_right start codingPasses)).bind fun _ => ih _

theorem decodeInner_triple (segments : List (List ℕ × ℕ)) (n : ℕ) :
    Triple (Good job) (BeforePass job (min 0 job.maxCodingPasses)) (decodeInner job segments n)
      fun _ _ => True :=
  .ite (fun _ => .giveUp) fun _ => .ite
    (fun _ => (decodeSegment_triple (Nat.zero_le _)).mono (fun _ h => h) fun _ _ _ => trivial)
    fun _ => scheduledSegments_triple segments 0

theorem startOfRun_before : BeforePass job (min 0 job.maxCodingPasses) startOfRun.state := by
  rw [Nat.zero_min]
  exact ⟨rfl,⟨Inv.reset,Settled.reset,fun _ _ _ _ hmem => absurd hmem (Set.notMem_empty _)⟩,nofun⟩

theorem startOfRun_good : ∀ m ∈ startOfRun.trace, Good job m := by
  intro m hm
  rw [List.mem_singleton.mp hm]
  exact startOfRun_before.good

end

/-! ## Decisions -/

/-- The arrays with the flags of earlier bit planes taken away. -/
def BitPlaneDecodeContext.thisPlane (job : Job) (ctx : BitPlaneDecodeContext) :
    BitPlaneDecodeContext :=
  { ctx with
    coefficientStates := fun idx =>
      ctx.coefficientStates idx &&& (2 ^ zeroCodingBit ^^^ 0xFF) |||
        if ctx.zeroCodedNow job idx then 2 ^ zeroCodingBit else 0 }

/-- What is said of the arrays in every state of a run. -/
structure Consistent (job : Job) (m : Moment) : Prop where
  scanMasks : ∀ x < job.width, ∀ y < job.height,
    (m.ctx.significantScanMasks (y / 4 * job.width + x)).testBit (y % 4) =
      m.ctx.isSignificant (job.cell x y)
  neighbors : ∀ x < job.width, ∀ y < job.height, ∀ bit,
    (m.ctx.neighborSignificances (job.cell x y)).testBit bit =
      (job.neighborAt (job.cell x y) bit).any m.ctx.isSignificant
  margin : ∀ idx, m.ctx.isSignificant idx → ∃ x < job.width, ∃ y < job.height, idx = job.cell x y
  runLength : ∀ normalNeighbors : Bool, (normalNeighbors → job.usesNormalArithmeticNeighborPath) →
    ∀ x < job.width, ∀ baseY, baseY + 4 ≤ job.height →
      cleanupRunLengthCandidate job normalNeighbors m.ctx x baseY =
        cleanupRunLengthCandidate job normalNeighbors (m.ctx.thisPlane job) x baseY
  cleanup : ∀ stripe, ∀ x < job.width, ∀ bitY < stripeHeight job stripe,
    (cleanupCandidateScanMask m.ctx (stripe * job.width + x) (stripeHeight job stripe)).testBit bitY =
      rawCleanupCandidate (m.ctx.thisPlane job) (job.cell x (4 * stripe + bitY))
  rawCleanup : m.phase = .cleanup → ∀ x < job.width, ∀ y < job.height,
    rawCleanupCandidate m.ctx (job.cell x y) =
      rawCleanupCandidate (m.ctx.thisPlane job) (job.cell x y)

section
variable {job : Job} {ctx : BitPlaneDecodeContext}

theorem thisPlane_isSignificant (idx : ℕ) :
    (ctx.thisPlane job).isSignificant idx = ctx.isSignificant idx := by
  have hmask : (2 ^ zeroCodingBit ^^^ 0xFF).testBit significanceBit = true := by decide
  unfold thisPlane isSignificant
  dsimp only
  rw [Nat.testBit_or,Nat.testBit_and,hmask,Bool.and_true]
  split_ifs
  · rw [Nat.testBit_two_pow]
    simp [zeroCodingBit,significanceBit]
  · rw [Nat.zero_testBit,Bool.or_false]

theorem thisPlane_hasZeroCoding (idx : ℕ) :
    (ctx.thisPlane job).hasZeroCoding idx = ctx.zeroCodedNow job idx := by
  have hmask : (2 ^ zeroCodingBit ^^^ 0xFF).testBit zeroCodingBit = false := by decide
  unfold thisPlane hasZeroCoding
  dsimp only
  rw [Nat.testBit_or,Nat.testBit_and,hmask,Bool.and_false,Bool.false_or]
  split_ifs with hnow
  · rw [Nat.testBit_two_pow,hnow]
    rfl
  · rw [Nat.zero_testBit,Bool.eq_false_iff.mpr hnow]

/-- A flag that is left over stands where a neighbor is significant, and there is no run. -/
theorem runLength_thisPlane (hinv : Inv job ctx) {x baseY : ℕ} (hx : x < job.width)
    (hy : baseY + 4 ≤ job.height) :
    cleanupRunLengthCandidate job false ctx x baseY =
      cleanupRunLengthCandidate job false (ctx.thisPlane job) x baseY := by
  unfold cleanupRunLengthCandidate
  rw [Bool.eq_iff_iff,List.all_eq_true,List.all_eq_true]
  refine forall₂_congr fun bitY hbitY => ?_
  have hlt : baseY + bitY < job.height := by
    have := List.mem_range.mp hbitY
    omega
  have hneighbors : (ctx.thisPlane job).neighborhoodSignificanceStatesForPath job false
      (job.cell x (baseY + bitY)) (baseY + bitY) =
    ctx.neighborhoodSignificanceStatesForPath job false (job.cell x (baseY + bitY)) (baseY + bitY) :=
    rfl
  have hstale := hinv.zeroCoded x hx (baseY + bitY) hlt
  have hmarked := hinv.marked x hx (baseY + bitY) hlt
  have hpath : ctx.neighborhoodSignificanceStatesForPath job false (job.cell x (baseY + bitY))
      (baseY + bitY) = ctx.neighborhoodSignificanceStatesIndex job (job.cell x (baseY + bitY))
      (baseY + bitY) := rfl
  rw [thisPlane_isSignificant,thisPlane_hasZeroCoding,hneighbors,hpath]
  simp only [Bool.not_eq_true',Bool.or_eq_false_iff,bne_eq_false_iff_eq]
  constructor
  · rintro ⟨⟨hsig,hflag⟩,hnone⟩
    refine ⟨⟨hsig,Bool.eq_false_iff.mpr fun hnow => ?_⟩,hnone⟩
    rw [hmarked hnow] at hflag
    cases hflag
  · rintro ⟨⟨hsig,-⟩,hnone⟩
    exact ⟨⟨hsig,Bool.eq_false_iff.mpr fun hflag => hstale hflag hnone⟩,hnone⟩

theorem Good.consistent {m : Moment} (h : Good job m) : Consistent job m := by
  obtain ⟨hinv,hsettled⟩ := h
  refine ⟨hinv.scanMasks,hinv.neighbors,hinv.margin,fun normalNeighbors hpath x hx baseY hy => ?_,
    fun stripe x hx bitY hbitY => ?_,fun hphase x hx y hy => ?_⟩
  · cases normalNeighbors with
    | false => exact runLength_thisPlane hinv hx hy
    | true =>
        have hcausal := causal_of_normal (hpath rfl)
        rw [cleanupRunLengthCandidate_eq hcausal,
          @cleanupRunLengthCandidate_eq job (m.ctx.thisPlane job) hcausal]
        exact runLength_thisPlane hinv hx hy
  · have hlt : bitY < 4 ∧ 4 * stripe + bitY < job.height := by
      unfold stripeHeight at hbitY
      omega
    have hplace := @Job.scanUnit_cell job x (4 * stripe + bitY) hx
    have hmask := hinv.scanMasks x hx (4 * stripe + bitY) hlt.2
    rw [show (4 * stripe + bitY) / 4 = stripe by omega,
      show (4 * stripe + bitY) % 4 = bitY by omega] at hplace hmask
    have hff : (0xFF : ℕ).testBit bitY = true := by
      rw [show (0xFF : ℕ) = 2 ^ 8 - 1 from rfl,Nat.testBit_two_pow_sub_one]
      exact decide_eq_true (by omega)
    unfold cleanupCandidateScanMask scanUnitValidMask rawCleanupCandidate
    rw [Nat.testBit_and,Nat.testBit_two_pow_sub_one,decide_eq_true hbitY,Nat.testBit_xor,hff,
      Nat.testBit_or,hmask,thisPlane_isSignificant,thisPlane_hasZeroCoding,Bool.true_and,
      Bool.xor_true]
    unfold zeroCodedNow
    rw [hplace]
  · unfold rawCleanupCandidate
    rw [thisPlane_isSignificant,thisPlane_hasZeroCoding]
    have hflag := hsettled hphase x hx y hy trivial
    have hmarked := hinv.marked x hx y hy
    cases hsig : m.ctx.isSignificant (job.cell x y) with
    | true => rfl
    | false =>
        rw [hsig] at hflag
        rw [Bool.false_or,Bool.false_or]
        congr 1
        rw [Bool.eq_iff_iff]
        exact ⟨fun h => (hflag h).resolve_left (by decide),hmarked⟩

/-- In every state that decoding goes through, also where it gives up: the scan masks and the
bytes of the neighbors show the significance of the coefficients, and no decision of a clean-up
depends on a flag of an earlier bit plane. -/
theorem block_state (job : Job) (segments : List CodeBlockSegment) (layers : List (List ℕ × ℕ))
    (numberOfCodingPasses : ℕ) :
    (∀ m ∈ (decodeCodeBlockSegments job segments 0 numberOfCodingPasses startOfRun).2.trace,
        Consistent job m) ∧
      ∀ m ∈ (decodeInner job layers numberOfCodingPasses startOfRun).2.trace, Consistent job m :=
  ⟨fun m hm => ((decodeCodeBlockSegments_triple segments 0 numberOfCodingPasses startOfRun
      startOfRun_before startOfRun_good).1 m hm).consistent,
    fun m hm => ((decodeInner_triple layers numberOfCodingPasses startOfRun
      startOfRun_before startOfRun_good).1 m hm).consistent⟩

end

end J2kNative.ClassicDecoder
