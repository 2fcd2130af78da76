import J2kNative.CountedLoops
import J2kNative.RoiPlan
import Mathlib.Algebra.BigOperators.Group.Finset.Basic
import Mathlib.Algebra.Order.BigOperators.Group.Finset

/-!
# Quality layers of coding segments

Every block offers its next segment, the offer of the steepest slope is taken, and the
segment goes to the first layer, not before that of its predecessor in the block, in which
all later cumulative budgets still hold; what fits nowhere goes to the last layer. The
arithmetic of slopes is a parameter, since the order in which offers are taken decides
nothing that is shown here. Memory accounting is left out.
-/
namespace J2kNative.LayerAssignment
open CountedLoops Fallible RoiPlan TileGeometry

/-! ## Candidates and slopes -/

/-- Double-precision numbers with what the slopes use of them. -/
structure DoubleArithmetic (F : Type) where
  infinity : F
  /-- Quotient by a converted rate. -/
  divRate : F → ℕ → F
  partialCmp : F → F → Option Ordering

variable {F : Type}

/-- `ClassicSegmentAssignmentCandidate` and `HtSegmentAssignmentCandidate`. -/
structure SegmentAssignmentCandidate (F : Type) where
  blockIndex : ℕ
  segmentIndex : ℕ
  rate : ℕ
  distortionDelta : F

def pcrdSlope (A : DoubleArithmetic F) (c : SegmentAssignmentCandidate F) : F :=
  if c.rate = 0 then A.infinity else A.divRate c.distortionDelta c.rate

/-- `compare_classic_segment_candidates` and `compare_ht_segment_candidates`. -/
def compareSegmentCandidates (A : DoubleArithmetic F) (left right : SegmentAssignmentCandidate F) :
    Ordering :=
  ((A.partialCmp (pcrdSlope A right) (pcrdSlope A left)).getD .eq).then
    ((compare left.blockIndex right.blockIndex).then
      (compare left.segmentIndex right.segmentIndex))

/-- `Iterator::min_by`: of equal ones the first. -/
def minBy {α : Type} (cmp : α → α → Ordering) : List α → Option α
  | [] => none
  | a :: l => some (l.foldl (fun best x => if cmp best x = .gt then x else best) a)

theorem minBy_mem {α : Type} {cmp : α → α → Ordering} {l : List α} {a : α}
    (h : minBy cmp l = some a) : a ∈ l := by
  have hfold : ∀ (l : List α) (best : α),
      l.foldl (fun best x => if cmp best x = .gt then x else best) best ∈ best :: l := by
    intro l
    induction l with
    | nil => exact fun best => List.mem_cons_self
    | cons x l ih =>
        intro best
        rw [List.foldl_cons]
        rcases List.mem_cons.mp (ih (if cmp best x = .gt then x else best)) with heq | hmem
        · rw [heq]
          split_ifs
          · exact List.mem_cons_of_mem _ List.mem_cons_self
          · exact List.mem_cons_self
        · exact List.mem_cons_of_mem _ (List.mem_cons_of_mem _ hmem)
  cases l with
  | nil => cases h
  | cons b l =>
      cases h
      exact hfold l b

/-! ## Budgets -/

def classicRateTargetTolerance (target : ℕ) : ℕ := max (target / 100) 512

/-- A sum of 64 bits. -/
def budgetAdd (x y : ℕ) : Except NativeEncodePipelineError ℕ :=
  if x + y < 2 ^ 64 then .ok (x + y)
  else .error (.arithmeticOverflow "quality layer byte budget overflow")

/-- The targets with their tolerance, and the bytes in each layer and those before it. -/
structure LayerBudgetAllocator where
  cumulativeTargets : List ℕ
  cumulativeUsed : Buffer ℕ

namespace LayerBudgetAllocator

/-- `layer_can_accept` over the next `n` layers. -/
def layerCanAccept (a : LayerBudgetAllocator) (rate : ℕ) :
    ℕ → ℕ → Except NativeEncodePipelineError Bool
  | 0, _ => .ok true
  | n + 1, idx => do
      let used ← budgetAdd (a.cumulativeUsed idx) rate
      if used > a.cumulativeTargets.getD idx 0 then .ok false
      else a.layerCanAccept rate n (idx + 1)

/-- `record_segment` over the next `n` layers. -/
def recordSegment (rate : ℕ) : ℕ → ℕ → Buffer ℕ → Except NativeEncodePipelineError (Buffer ℕ)
  | 0, _, used => .ok used
  | n + 1, idx, used => do
      let sum ← budgetAdd (used idx) rate
      recordSegment rate n (idx + 1) (used.set idx sum)

/-- The search of `assign_segment` over the next `n` layers. -/
def firstAccepting (a : LayerBudgetAllocator) (rate : ℕ) :
    ℕ → ℕ → Except NativeEncodePipelineError (Option ℕ)
  | 0, _ => .ok none
  | n + 1, layer => do
      if ← a.layerCanAccept rate (a.cumulativeTargets.length - layer) layer then .ok (some layer)
      else a.firstAccepting rate n (layer + 1)

def assignSegment (a : LayerBudgetAllocator) (minLayer rate : ℕ) :
    Except NativeEncodePipelineError (ℕ × LayerBudgetAllocator) :=
  if a.cumulativeTargets = [] then .ok (minLayer,a)
  else do
    let lastLayer := a.cumulativeTargets.length - 1
    let accepting ← a.firstAccepting rate (lastLayer - minLayer) minLayer
    let layer := accepting.getD lastLayer
    let used ← recordSegment rate (a.cumulativeTargets.length - layer) layer a.cumulativeUsed
    .ok (layer,{ a with cumulativeUsed := used })

end LayerBudgetAllocator

/-! ## Assignment -/

/-- The texts in which the two assignments differ. -/
structure AssignmentTexts where
  capacity : String
  order : String
  queue : String
  block : String

/-- A candidate may come behind the position of another. -/
def mayFollow (previous : Option (ℕ × ℕ)) (c : SegmentAssignmentCandidate F) : Bool :=
  match previous with
  | none => c.segmentIndex = 0
  | some (previousBlock,previousSegment) =>
      if c.blockIndex = previousBlock then previousSegment + 1 = c.segmentIndex
      else c.blockIndex > previousBlock ∧ c.segmentIndex = 0

/-- `ordered_candidate_block_count` from the position before on. -/
def orderedBlockCount (invalidOrder : String) :
    Option (ℕ × ℕ) → List (SegmentAssignmentCandidate F) → Except NativeEncodePipelineError ℕ
  | none, [] => .ok 0
  | some (blockIndex,_), [] =>
      if blockIndex + 1 < 2 ^ 64 then .ok (blockIndex + 1)
      else .error (.arithmeticOverflow "PCRD candidate block count")
  | previous, c :: candidates =>
      if mayFollow previous c then orderedBlockCount invalidOrder (some (c.blockIndex,c.segmentIndex)) candidates
      else .error (.internalInvariant invalidOrder)

structure AssignmentWorkspace where
  allocator : LayerBudgetAllocator
  blockFrontiers : Buffer (Option ℕ)
  blockMinLayers : Buffer ℕ
  assignments : Buffer ℕ

section
variable (A : DoubleArithmetic F) (texts : AssignmentTexts)
variable (candidates : List (SegmentAssignmentCandidate F))

/-- `validate_classic_assignment_inputs` and `validate_ht_assignment_inputs`. -/
def validateAssignmentInputs (candidateCapacity layerCount : ℕ) (cumulativeTargets : List ℕ) :
    Except NativeEncodePipelineError ℕ :=
  if cumulativeTargets ≠ [] ∧ cumulativeTargets.length ≠ layerCount then
    .error (.invalidInput "quality layer byte target count must match quality layer count")
  else if ¬cumulativeTargets.IsChain (· ≤ ·) then
    .error (.invalidInput "quality layer byte targets must be cumulative and monotonic")
  else if candidateCapacity < candidates.length then .error (.internalInvariant texts.capacity)
  else orderedBlockCount texts.order none candidates

/-- The first segment of each block waits; everything is in the last layer yet. -/
def initialWorkspace (layerCount : ℕ) (cumulativeTargets : List ℕ) : AssignmentWorkspace :=
  ⟨⟨cumulativeTargets.map fun target =>
      saturatingAdd 64 target (classicRateTargetTolerance target),fun _ => 0⟩,
    forRange candidates.length (fun i (frontiers : Buffer (Option ℕ)) =>
      match candidates[i]? with
      | some c => if c.segmentIndex = 0 then frontiers.set c.blockIndex (some i) else frontiers
      | none => frontiers) fun _ => none,
    fun _ => 0,fun _ => layerCount - 1⟩

/-- One turn: the steepest offer is placed, and its block offers the next segment. -/
def assignNext (blockCount : ℕ) (w : AssignmentWorkspace) :
    Except NativeEncodePipelineError AssignmentWorkspace :=
  let offers := (List.range blockCount).filterMap w.blockFrontiers
  match minBy (fun left right => match candidates[left]?, candidates[right]? with
      | some left, some right => compareSegmentCandidates A left right
      | _, _ => .eq) offers with
  | none => .error (.internalInvariant texts.queue)
  | some i =>
      match candidates[i]? with
      | none => .error (.internalInvariant texts.queue)
      | some c =>
          if c.blockIndex ≥ blockCount then .error (.internalInvariant texts.block)
          else do
            let (layer,allocator) ←
              w.allocator.assignSegment (w.blockMinLayers c.blockIndex) c.rate
            let next := match candidates[i + 1]? with
              | some c' => if c'.blockIndex = c.blockIndex then some (i + 1) else none
              | none => none
            .ok ⟨allocator,w.blockFrontiers.set c.blockIndex next,
              w.blockMinLayers.set c.blockIndex layer,w.assignments.set i layer⟩

def assignAll (blockCount : ℕ) : ℕ → AssignmentWorkspace →
    Except NativeEncodePipelineError AssignmentWorkspace
  | 0, w => .ok w
  | turns + 1, w => do
      let w ← assignNext A texts candidates blockCount w
      assignAll blockCount turns w

/-- `enforce_classic_assignment_monotonicity` and `enforce_ht_assignment_monotonicity`. -/
def enforceMonotonicity (assignments : Buffer ℕ) : Buffer ℕ :=
  forRange candidates.length (fun i (assignments : Buffer ℕ) =>
    match candidates[i]? with
    | none => assignments
    | some c =>
        let minLayer := ((List.range candidates.length).filterMap fun j =>
          match candidates[j]? with
          | some prior =>
              if prior.blockIndex = c.blockIndex ∧ prior.segmentIndex ≤ c.segmentIndex then
                some (assignments j) else none
          | none => none).foldl max 0
        assignments.set i (max (assignments i) minLayer)) assignments

def assignSegmentLayers (candidateCapacity layerCount : ℕ) (cumulativeTargets : List ℕ) :
    Except NativeEncodePipelineError (List ℕ) := do
  let blockCount ← validateAssignmentInputs texts candidates candidateCapacity layerCount
    cumulativeTargets
  let w ← assignAll A texts candidates blockCount candidates.length
    (initialWorkspace candidates layerCount cumulativeTargets)
  .ok ((List.range candidates.length).map (enforceMonotonicity candidates w.assignments))

end

def classicTexts : AssignmentTexts where
  capacity := "classic PCRD candidate capacity is smaller than its length"
  order := "classic PCRD candidates are not grouped in segment order"
  queue := "classic PCRD candidate queue underflow"
  block := "classic PCRD block index mismatch"

def htTexts : AssignmentTexts where
  capacity := "HT PCRD candidate capacity is smaller than its length"
  order := "HTJ2K PCRD candidates are not grouped in segment order"
  queue := "HTJ2K PCRD candidate queue underflow"
  block := "HTJ2K segment candidate block index mismatch"

/-- `assign_classic_segment_layers_by_slope_accounted`. -/
def assignClassicSegmentLayersBySlope (A : DoubleArithmetic F)
    (candidates : List (SegmentAssignmentCandidate F)) (candidateCapacity layerCount : ℕ)
    (cumulativeTargets : List ℕ) : Except NativeEncodePipelineError (List ℕ) := do
  let _ ← validateAssignmentInputs classicTexts candidates candidateCapacity layerCount
    cumulativeTargets
  if candidates.isEmpty then .ok []
  else assignSegmentLayers A classicTexts candidates candidateCapacity layerCount cumulativeTargets

/-- `assign_ht_segment_layers_by_budget_accounted`. -/
def assignHtSegmentLayersByBudget (A : DoubleArithmetic F)
    (candidates : List (SegmentAssignmentCandidate F)) (candidateCapacity layerCount : ℕ)
    (cumulativeTargets : List ℕ) : Except NativeEncodePipelineError (List ℕ) :=
  assignSegmentLayers A htTexts candidates candidateCapacity layerCount cumulativeTargets

/-! ## One segment against the budgets -/

theorem budgetAdd_eq_ok {x y sum : ℕ} : budgetAdd x y = .ok sum ↔ x + y < 2 ^ 64 ∧ sum = x + y := by
  unfold budgetAdd
  split_ifs with h
  · rw [Except.ok.injEq]
    exact ⟨fun heq => ⟨h,heq.symm⟩,fun heq => heq.2.symm⟩
  · exact ⟨fun heq => (by cases heq),fun heq => absurd heq.1 h⟩

namespace LayerBudgetAllocator

variable {a : LayerBudgetAllocator} {rate : ℕ}

theorem layerCanAccept_true {n idx : ℕ} (h : a.layerCanAccept rate n idx = .ok true) :
    ∀ l, idx ≤ l → l < idx + n → a.cumulativeUsed l + rate ≤ a.cumulativeTargets.getD l 0 := by
  induction n generalizing idx with
  | zero =>
      intro l hl hl'
      omega
  | succ n ih =>
      unfold layerCanAccept at h
      obtain ⟨used,hused,h⟩ := bind_eq_ok.mp h
      obtain ⟨-,rfl⟩ := budgetAdd_eq_ok.mp hused
      split_ifs at h with hover
      · cases h
      · intro l hl hl'
        rcases Nat.eq_or_lt_of_le hl with rfl | hlt
        · exact Nat.not_lt.mp hover
        · exact ih h l hlt (by omega)

theorem exists_layerCanAccept (n idx : ℕ)
    (h : ∀ l, idx ≤ l → l < idx + n → a.cumulativeUsed l + rate < 2 ^ 64) :
    ∃ b, a.layerCanAccept rate n idx = .ok b := by
  induction n generalizing idx with
  | zero => exact ⟨true,rfl⟩
  | succ n ih =>
      unfold layerCanAccept
      rw [budgetAdd_eq_ok.mpr ⟨h idx le_rfl (by omega),rfl⟩,ok_bind]
      split_ifs
      · exact ⟨false,rfl⟩
      · exact ih (idx + 1) fun l hl hl' => h l (by omega) (by omega)

theorem recordSegment_ok {n idx : ℕ} {used used' : Buffer ℕ}
    (h : recordSegment rate n idx used = .ok used') (l : ℕ) :
    used' l = if idx ≤ l ∧ l < idx + n then used l + rate else used l := by
  induction n generalizing idx used with
  | zero =>
      cases h
      rw [if_neg (by omega)]
  | succ n ih =>
      unfold recordSegment at h
      obtain ⟨sum,hsum,h⟩ := bind_eq_ok.mp h
      obtain ⟨-,rfl⟩ := budgetAdd_eq_ok.mp hsum
      rw [ih h]
      by_cases hl : l = idx
      · rw [if_neg (by omega),if_pos (by omega),hl,Buffer.set_self]
      · rw [Buffer.set_of_ne _ _ hl]
        split_ifs <;> first | rfl | omega

theorem exists_recordSegment (n idx : ℕ) (used : Buffer ℕ)
    (h : ∀ l, idx ≤ l → l < idx + n → used l + rate < 2 ^ 64) :
    ∃ used', recordSegment rate n idx used = .ok used' := by
  induction n generalizing idx used with
  | zero => exact ⟨used,rfl⟩
  | succ n ih =>
      unfold recordSegment
      rw [budgetAdd_eq_ok.mpr ⟨h idx le_rfl (by omega),rfl⟩,ok_bind]
      refine ih (idx + 1) _ fun l hl hl' => ?_
      rw [Buffer.set_of_ne _ _ (by omega)]
      exact h l (by omega) (by omega)

theorem firstAccepting_ok {n layer : ℕ} {accepting : Option ℕ}
    (h : a.firstAccepting rate n layer = .ok accepting) :
    ∀ found, accepting = some found → layer ≤ found ∧ found < layer + n ∧
      ∀ l, found ≤ l → l < a.cumulativeTargets.length →
        a.cumulativeUsed l + rate ≤ a.cumulativeTargets.getD l 0 := by
  induction n generalizing layer with
  | zero =>
      cases h
      exact nofun
  | succ n ih =>
      unfold firstAccepting at h
      obtain ⟨accepts,haccepts,h⟩ := bind_eq_ok.mp h
      cases accepts with
      | true =>
          rw [if_pos rfl] at h
          cases h
          rintro found ⟨⟩
          exact ⟨le_rfl,by omega,
            fun l hl hl' => layerCanAccept_true haccepts l hl (by omega)⟩
      | false =>
          intro found hfound
          obtain ⟨hle,hlt,hfits⟩ := ih h found hfound
          exact ⟨by omega,by omega,hfits⟩

theorem exists_firstAccepting (n layer : ℕ)
    (h : ∀ l < a.cumulativeTargets.length, a.cumulativeUsed l + rate < 2 ^ 64) :
    ∃ accepting, a.firstAccepting rate n layer = .ok accepting := by
  induction n generalizing layer with
  | zero => exact ⟨none,rfl⟩
  | succ n ih =>
      unfold firstAccepting
      obtain ⟨accepts,haccepts⟩ := @exists_layerCanAccept a rate
        (a.cumulativeTargets.length - layer) layer fun l hl hl' => h l (by omega)
      rw [haccepts,ok_bind]
      cases accepts with
      | true => exact ⟨some layer,rfl⟩
      | false => exact ih (layer + 1)

/-- Where a segment goes, and what is left of the budgets. -/
structure Placed (a : LayerBudgetAllocator) (minLayer layerCount rate layer : ℕ)
    (a' : LayerBudgetAllocator) : Prop where
  low : minLayer ≤ layer
  high : layer < layerCount
  targets : a'.cumulativeTargets = a.cumulativeTargets
  used : ∀ l < a.cumulativeTargets.length, a'.cumulativeUsed l =
    if layer ≤ l then a.cumulativeUsed l + rate else a.cumulativeUsed l
  budget : ∀ l, layer ≤ l → l + 1 < a.cumulativeTargets.length →
    a.cumulativeUsed l + rate ≤ a.cumulativeTargets.getD l 0

theorem assignSegment_ok {minLayer layerCount layer : ℕ} {a' : LayerBudgetAllocator}
    (hcount : a.cumulativeTargets ≠ [] → a.cumulativeTargets.length = layerCount)
    (hmin : minLayer < layerCount) (h : a.assignSegment minLayer rate = .ok (layer,a')) :
    Placed a minLayer layerCount rate layer a' := by
  unfold assignSegment at h
  split_ifs at h with hnone
  · cases h
    have hlength : a.cumulativeTargets.length = 0 := by rw [hnone]; rfl
    exact ⟨le_rfl,hmin,rfl,fun l hl => by omega,fun l _ hl => by omega⟩
  · have hlength := hcount hnone
    obtain ⟨accepting,haccepting,h⟩ := bind_eq_ok.mp h
    obtain ⟨used,hused,h⟩ := bind_eq_ok.mp h
    cases h
    have hfound := firstAccepting_ok haccepting
    have hrecord := recordSegment_ok hused
    cases accepting with
    | none =>
        rw [Option.getD_none] at hrecord ⊢
        refine ⟨by omega,by omega,rfl,fun l hl => ?_,fun l hle hl => by omega⟩
        refine (hrecord l).trans ?_
        split_ifs <;> first | rfl | omega
    | some found =>
        rw [Option.getD_some] at hrecord ⊢
        obtain ⟨hle,hlt,hfits⟩ := hfound found rfl
        refine ⟨hle,by omega,rfl,fun l hl => ?_,fun l hl hl' => hfits l hl (by omega)⟩
        refine (hrecord l).trans ?_
        split_ifs <;> first | rfl | omega

theorem exists_assignSegment (minLayer : ℕ)
    (h : ∀ l < a.cumulativeTargets.length, a.cumulativeUsed l + rate < 2 ^ 64) :
    ∃ layer a', a.assignSegment minLayer rate = .ok (layer,a') := by
  unfold assignSegment
  split_ifs
  · exact ⟨minLayer,a,rfl⟩
  · obtain ⟨accepting,haccepting⟩ := @exists_firstAccepting a rate
      (a.cumulativeTargets.length - 1 - minLayer) minLayer h
    obtain ⟨used,hused⟩ := @exists_recordSegment rate
      (a.cumulativeTargets.length - accepting.getD (a.cumulativeTargets.length - 1))
      (accepting.getD (a.cumulativeTargets.length - 1)) a.cumulativeUsed
      fun l hl hl' => h l (by omega)
    exact ⟨_,_,bind_eq_ok.mpr ⟨_,haccepting,bind_eq_ok.mpr ⟨_,hused,rfl⟩⟩⟩

end LayerBudgetAllocator

/-! ## Order of the candidates -/

section
variable (candidates : List (SegmentAssignmentCandidate F))

def blockAt (i : ℕ) : ℕ := (candidates[i]?.map (·.blockIndex)).getD 0

def segmentAt (i : ℕ) : ℕ := (candidates[i]?.map (·.segmentIndex)).getD 0

def rateAt (i : ℕ) : ℕ := (candidates[i]?.map (·.rate)).getD 0

/-- The candidates of one block stand together, its segments counted from zero. -/
structure Grouped (blockCount : ℕ) : Prop where
  first : 0 < candidates.length → segmentAt candidates 0 = 0
  next : ∀ i, i + 1 < candidates.length →
    (blockAt candidates (i + 1) = blockAt candidates i ∧
      segmentAt candidates (i + 1) = segmentAt candidates i + 1) ∨
    (blockAt candidates i < blockAt candidates (i + 1) ∧ segmentAt candidates (i + 1) = 0)
  block_lt : ∀ i < candidates.length, blockAt candidates i < blockCount

variable {candidates}

theorem exists_candidate {i : ℕ} (h : i < candidates.length) : ∃ c, candidates[i]? = some c ∧
    blockAt candidates i = c.blockIndex ∧ segmentAt candidates i = c.segmentIndex ∧
      rateAt candidates i = c.rate := by
  have hget := List.getElem?_eq_getElem h
  refine ⟨candidates[i],hget,?_⟩
  unfold blockAt segmentAt rateAt
  rw [hget]
  exact ⟨rfl,rfl,rfl⟩

/-- The position of a segment behind that of another. -/
def Follows (p q : ℕ × ℕ) : Prop := (q.1 = p.1 ∧ q.2 = p.2 + 1) ∨ (p.1 < q.1 ∧ q.2 = 0)

def position (c : SegmentAssignmentCandidate F) : ℕ × ℕ := (c.blockIndex,c.segmentIndex)

theorem mayFollow_some {p : ℕ × ℕ} {c : SegmentAssignmentCandidate F}
    (h : mayFollow (some p) c) : Follows p (position c) := by
  unfold mayFollow at h
  dsimp only at h
  split_ifs at h with hblock
  · exact .inl ⟨hblock,(of_decide_eq_true h).symm⟩
  · exact .inr (of_decide_eq_true h)

theorem orderedBlockCount_some {text : String} {p : ℕ × ℕ} {blockCount : ℕ}
    (h : orderedBlockCount text (some p) candidates = .ok blockCount) :
    (p :: candidates.map position).IsChain Follows ∧
      ∀ q ∈ p :: candidates.map position, q.1 < blockCount := by
  induction candidates generalizing p with
  | nil =>
      unfold orderedBlockCount at h
      split_ifs at h
      cases h
      exact ⟨.singleton p,by simp⟩
  | cons c candidates ih =>
      unfold orderedBlockCount at h
      split_ifs at h with hvalid
      obtain ⟨hchain,hlt⟩ := ih h
      have hfollows := mayFollow_some hvalid
      refine ⟨hchain.cons_cons hfollows,fun q hq => ?_⟩
      rcases List.mem_cons.mp hq with rfl | hq
      · have hc := hlt (position c) List.mem_cons_self
        rcases hfollows with hsame | hlater <;> omega
      · exact hlt q hq

theorem grouped_of_ordered {text : String} {blockCount : ℕ}
    (h : orderedBlockCount text none candidates = .ok blockCount) :
    Grouped candidates blockCount := by
  cases candidates with
  | nil => exact ⟨by simp,by simp,by simp⟩
  | cons c candidates =>
      unfold orderedBlockCount at h
      split_ifs at h with hvalid
      obtain ⟨hchain,hlt⟩ := orderedBlockCount_some h
      change ((c :: candidates).map position).IsChain Follows at hchain
      refine ⟨fun _ => of_decide_eq_true hvalid,fun i hi => ?_,fun i hi => ?_⟩
      · obtain ⟨a,ha,hblock,hsegment,-⟩ := exists_candidate (Nat.lt_of_succ_lt hi)
        obtain ⟨b,hb,hblock',hsegment',-⟩ := exists_candidate hi
        have hfollows := List.isChain_iff_getElem.mp hchain i (by rwa [List.length_map])
        rw [List.getElem_map,List.getElem_map,(List.getElem?_eq_some_iff.mp ha).2,
          (List.getElem?_eq_some_iff.mp hb).2] at hfollows
        rw [hblock,hblock',hsegment,hsegment']
        exact hfollows
      · obtain ⟨a,ha,hblock,-⟩ := exists_candidate hi
        rw [hblock]
        exact hlt (position a) (List.mem_map_of_mem (List.mem_of_getElem? ha))

namespace Grouped

variable {blockCount : ℕ}

theorem block_mono (g : Grouped candidates blockCount) {i j : ℕ} (hij : i ≤ j)
    (hj : j < candidates.length) : blockAt candidates i ≤ blockAt candidates j := by
  induction j, hij using Nat.le_induction with
  | base => exact le_rfl
  | succ j hij ih =>
      refine (ih (by omega)).trans ?_
      rcases g.next j hj with ⟨hsame,-⟩ | ⟨hlater,-⟩ <;> omega

/-- Within a block the segments are counted. -/
theorem segment_eq (g : Grouped candidates blockCount) {i j : ℕ} (hij : i ≤ j)
    (hj : j < candidates.length) (hblock : blockAt candidates i = blockAt candidates j) :
    segmentAt candidates j = segmentAt candidates i + (j - i) := by
  induction j, hij using Nat.le_induction with
  | base => rw [Nat.sub_self,Nat.add_zero]
  | succ j hij ih =>
      have hmono := g.block_mono hij (by omega : j < _)
      rcases g.next j hj with ⟨hsame,hsegment⟩ | ⟨hlater,-⟩
      · rw [hsegment,ih (by omega) (by omega)]
        omega
      · omega

theorem le_of_segment_le (g : Grouped candidates blockCount) {i j : ℕ}
    (hi : i < candidates.length) (hblock : blockAt candidates i = blockAt candidates j)
    (hsegment : segmentAt candidates i ≤ segmentAt candidates j) : i ≤ j := by
  by_contra hlt
  have := g.segment_eq (by omega : j ≤ i) hi hblock.symm
  omega

/-- Every segment has the first one of its block before it. -/
theorem exists_first (g : Grouped candidates blockCount) {i : ℕ} (hi : i < candidates.length) :
    ∃ k ≤ i, blockAt candidates k = blockAt candidates i ∧ segmentAt candidates k = 0 := by
  induction i with
  | zero => exact ⟨0,le_rfl,rfl,g.first hi⟩
  | succ i ih =>
      rcases g.next i hi with ⟨hsame,-⟩ | ⟨-,hzero⟩
      · obtain ⟨k,hk,hblock,hzero⟩ := ih (by omega)
        exact ⟨k,by omega,by omega,hzero⟩
      · exact ⟨i + 1,le_rfl,rfl,hzero⟩

end Grouped

end

/-! ## Turns -/

section
variable {A : DoubleArithmetic F} {texts : AssignmentTexts}
variable {candidates : List (SegmentAssignmentCandidate F)} {blockCount layerCount : ℕ}

/-- What holds when the segments of a set have their layers: the offers are the first segments
that have none yet, and the books are those of the set. -/
structure Progress (candidates : List (SegmentAssignmentCandidate F)) (layerCount : ℕ)
    (targets : List ℕ) (assigned : Finset ℕ) (w : AssignmentWorkspace) : Prop where
  offers : ∀ b k, w.blockFrontiers b = some k →
    k < candidates.length ∧ blockAt candidates k = b
  mem : ∀ i, i ∈ assigned ↔ i < candidates.length ∧
    ∀ k, w.blockFrontiers (blockAt candidates i) = some k → i < k
  targets_eq : w.allocator.cumulativeTargets = targets
  minLayer_lt : ∀ b, w.blockMinLayers b < layerCount
  le_minLayer : ∀ i ∈ assigned, w.assignments i ≤ w.blockMinLayers (blockAt candidates i)
  mono : ∀ i ∈ assigned, ∀ j ∈ assigned, i ≤ j → blockAt candidates i = blockAt candidates j →
    w.assignments i ≤ w.assignments j
  used : ∀ l < targets.length, w.allocator.cumulativeUsed l =
    ∑ i ∈ assigned with w.assignments i ≤ l, rateAt candidates i
  budget : ∀ l, l + 1 < targets.length → w.allocator.cumulativeUsed l ≤ targets.getD l 0

/-- The bytes of all candidates. -/
def totalRate (candidates : List (SegmentAssignmentCandidate F)) : ℕ :=
  ∑ i ∈ Finset.range candidates.length, rateAt candidates i

variable {targets : List ℕ} {assigned : Finset ℕ} {w w' : AssignmentWorkspace}

theorem Progress.lt (p : Progress candidates layerCount targets assigned w) {i : ℕ}
    (hi : i ∈ assigned) : w.assignments i < layerCount :=
  (p.le_minLayer i hi).trans_lt (p.minLayer_lt _)

/-- At first the offers are the segments with number zero. -/
theorem initial_offers (g : Grouped candidates blockCount) (cumulativeTargets : List ℕ) (b k : ℕ) :
    (initialWorkspace candidates layerCount cumulativeTargets).blockFrontiers b = some k ↔
      k < candidates.length ∧ blockAt candidates k = b ∧ segmentAt candidates k = 0 := by
  refine forRange_induction (n := candidates.length)
    (fun m (frontiers : Buffer (Option ℕ)) => m ≤ candidates.length → ∀ b k,
      frontiers b = some k ↔ k < m ∧ blockAt candidates k = b ∧ segmentAt candidates k = 0)
    (fun _ b k => by simp) ?_ le_rfl b k
  intro m hm frontiers hfrontiers _ b k
  obtain ⟨c,hc,hblock,hsegment,-⟩ := exists_candidate hm
  have hold := hfrontiers hm.le b k
  simp only [hc]
  by_cases hzero : c.segmentIndex = 0
  · rw [if_pos hzero]
    by_cases hb : b = c.blockIndex
    · rw [hb,Buffer.set_self]
      constructor
      · rintro ⟨⟩
        exact ⟨Nat.lt_succ_self m,hblock,hsegment.trans hzero⟩
      · rintro ⟨hk,hkblock,hkzero⟩
        rcases Nat.lt_succ_iff_lt_or_eq.mp hk with hlt | rfl
        · -- a second segment zero of the block would have a higher number
          have := g.segment_eq hlt.le hm (hkblock.trans hblock.symm)
          omega
        · rfl
    · rw [Buffer.set_of_ne _ _ hb,hold]
      refine and_congr_left fun hk => ?_
      have hne : k ≠ m := fun heq => hb (by rw [← hk.1,heq,hblock])
      omega
  · rw [if_neg hzero,hold]
    refine and_congr_left fun hk => ?_
    have hne : k ≠ m := fun heq => hzero (by rw [← hsegment,← heq,hk.2])
    omega

theorem initial_progress (g : Grouped candidates blockCount) (hlayers : 0 < layerCount)
    (cumulativeTargets : List ℕ) :
    Progress candidates layerCount (cumulativeTargets.map fun target =>
        saturatingAdd 64 target (classicRateTargetTolerance target)) ∅
      (initialWorkspace candidates layerCount cumulativeTargets) where
  offers := fun b k hk => by
    obtain ⟨hlt,hblock,-⟩ := (initial_offers g cumulativeTargets b k).mp hk
    exact ⟨hlt,hblock⟩
  mem := fun i => by
    refine ⟨fun hi => absurd hi (Finset.notMem_empty i),fun ⟨hi,hoffer⟩ => ?_⟩
    obtain ⟨k,hk,hblock,hzero⟩ := g.exists_first hi
    have := hoffer k ((initial_offers g cumulativeTargets _ k).mpr ⟨by omega,hblock,hzero⟩)
    omega
  targets_eq := rfl
  minLayer_lt := fun _ => hlayers
  le_minLayer := fun i hi => absurd hi (Finset.notMem_empty i)
  mono := fun i hi => absurd hi (Finset.notMem_empty i)
  used := fun _ _ => rfl
  budget := fun _ _ => Nat.zero_le _

/-- What the turn places: an offered segment, and the budgets have a place for it. -/
theorem assignNext_ok (h : assignNext A texts candidates blockCount w = .ok w') :
    ∃ i c layer allocator b, w.blockFrontiers b = some i ∧ candidates[i]? = some c ∧
      w.allocator.assignSegment (w.blockMinLayers c.blockIndex) c.rate = .ok (layer,allocator) ∧
      w' = ⟨allocator,
        w.blockFrontiers.set c.blockIndex (match candidates[i + 1]? with
          | some c' => if c'.blockIndex = c.blockIndex then some (i + 1) else none
          | none => none),
        w.blockMinLayers.set c.blockIndex layer,w.assignments.set i layer⟩ := by
  unfold assignNext at h
  dsimp only at h
  split at h
  · cases h
  next i hi =>
    obtain ⟨b,-,hb⟩ := List.mem_filterMap.mp (minBy_mem hi)
    split at h
    · cases h
    next c hc =>
      split_ifs at h
      obtain ⟨⟨layer,allocator⟩,hassign,h⟩ := bind_eq_ok.mp h
      cases h
      exact ⟨i,c,layer,allocator,b,hb,hc,hassign,rfl⟩

/-- The offer behind segment `i` is the next one of its block, where there is one. -/
theorem next_offer {i : ℕ} {c : SegmentAssignmentCandidate F} {next : Option ℕ} (hnext : (match candidates[i + 1]? with
      | some c' => if c'.blockIndex = c.blockIndex then some (i + 1) else none
      | none => none) = next) :
    (i + 1 < candidates.length ∧ blockAt candidates (i + 1) = c.blockIndex ∧ next = some (i + 1)) ∨
      ((i + 1 < candidates.length → blockAt candidates (i + 1) ≠ c.blockIndex) ∧ next = none) := by
  by_cases hlt : i + 1 < candidates.length
  · obtain ⟨c',hc',hblock,-⟩ := exists_candidate hlt
    rw [hc'] at hnext
    dsimp only at hnext
    split_ifs at hnext with hsame
    · exact .inl ⟨hlt,hblock.trans hsame,hnext.symm⟩
    · exact .inr ⟨fun _ heq => hsame (hblock.symm.trans heq),hnext.symm⟩
  · rw [List.getElem?_eq_none (Nat.not_lt.mp hlt)] at hnext
    exact .inr ⟨fun h => absurd h hlt,hnext.symm⟩

/-- The set of assigned segments behind a turn. -/
theorem Progress.mem_insert (p : Progress candidates layerCount targets assigned w)
    (g : Grouped candidates blockCount) {i : ℕ} (hi : i < candidates.length)
    (hoffer : w.blockFrontiers (blockAt candidates i) = some i) {next : Option ℕ}
    (hnext : (i + 1 < candidates.length ∧ blockAt candidates (i + 1) = blockAt candidates i ∧
        next = some (i + 1)) ∨
      ((i + 1 < candidates.length → blockAt candidates (i + 1) ≠ blockAt candidates i) ∧
        next = none)) (j : ℕ) :
    j ∈ insert i assigned ↔ j < candidates.length ∧
      ∀ k, w.blockFrontiers.set (blockAt candidates i) next (blockAt candidates j) = some k →
        j < k := by
  rw [Finset.mem_insert,p.mem]
  by_cases hblock : blockAt candidates j = blockAt candidates i
  · rw [hblock,Buffer.set_self,hoffer]
    have hold : (j < candidates.length ∧ ∀ k, some i = some k → j < k) ↔
        j < candidates.length ∧ j < i :=
      and_congr_right fun _ => ⟨fun h => h i rfl,fun h k hk => Option.some.inj hk ▸ h⟩
    rw [hold]
    rcases hnext with ⟨-,-,rfl⟩ | ⟨hlast,rfl⟩
    · constructor
      · rintro (rfl | ⟨hj,hlt⟩)
        · exact ⟨hi,fun k hk => by cases hk; omega⟩
        · exact ⟨hj,fun k hk => by cases hk; omega⟩
      · rintro ⟨hj,hlt⟩
        have := hlt (i + 1) rfl
        omega
    · constructor
      · rintro (rfl | ⟨hj,-⟩)
        · exact ⟨hi,nofun⟩
        · exact ⟨hj,nofun⟩
      · rintro ⟨hj,-⟩
        by_contra hnot
        -- a later segment of the block would have its block right behind `i`
        have hle := g.block_mono (by omega : i ≤ i + 1) (by omega)
        have hle' := g.block_mono (by omega : i + 1 ≤ j) hj
        exact hlast (by omega) (by omega)
  · rw [Buffer.set_of_ne _ _ hblock]
    exact or_iff_right fun heq => hblock (by rw [heq])

/-- The bytes up to a layer, with one more segment assigned. -/
theorem sum_filter_set {i : ℕ} (hi : i ∉ assigned) (assignments rate : Buffer ℕ) (layer l : ℕ) :
    ∑ j ∈ insert i assigned with assignments.set i layer j ≤ l, rate j =
      (if layer ≤ l then rate i else 0) + ∑ j ∈ assigned with assignments j ≤ l, rate j := by
  have hfilter : assigned.filter (fun j => assignments.set i layer j ≤ l) =
      assigned.filter fun j => assignments j ≤ l :=
    Finset.filter_congr fun j hj => by
      have hne : j ≠ i := fun heq => hi (heq ▸ hj)
      rw [Buffer.set_of_ne _ _ hne]
  rw [Finset.filter_insert,hfilter,Buffer.set_self]
  split_ifs
  · exact Finset.sum_insert fun hmem => hi (Finset.mem_filter.mp hmem).1
  · exact (Nat.zero_add _).symm

/-- Step lemma: a turn assigns one more segment and keeps the books. -/
theorem Progress.step (p : Progress candidates layerCount targets assigned w)
    (g : Grouped candidates blockCount)
    (hcount : targets ≠ [] → targets.length = layerCount)
    (h : assignNext A texts candidates blockCount w = .ok w') :
    ∃ i, i ∉ assigned ∧ Progress candidates layerCount targets (insert i assigned) w' := by
  obtain ⟨i,c,layer,allocator,b,hoffer,hc,hassign,rfl⟩ := assignNext_ok h
  obtain ⟨hi,rfl⟩ := p.offers b i hoffer
  obtain ⟨c',hc',hblock,-,hrate⟩ := exists_candidate hi
  cases hc.symm.trans hc'
  rw [← hblock] at hassign ⊢
  generalize hnext : (match candidates[i + 1]? with
    | some c' => if c'.blockIndex = blockAt candidates i then some (i + 1) else none
    | none => none) = next
  rw [hblock] at hnext
  have hnext := next_offer hnext
  rw [← hblock] at hnext
  have hplaced := @LayerBudgetAllocator.assignSegment_ok _ _ _ layerCount _ _
    (by rw [p.targets_eq]; exact hcount) (p.minLayer_lt _) hassign
  rw [← hrate] at hplaced
  have hnew : i ∉ assigned := fun hmem => Nat.lt_irrefl i (((p.mem i).mp hmem).2 i hoffer)
  have hne : ∀ j ∈ assigned, j ≠ i := fun j hj heq => hnew (heq ▸ hj)
  have hkept : ∀ j ∈ assigned, w.assignments.set i layer j = w.assignments j := fun j hj =>
    Buffer.set_of_ne _ _ (hne j hj)
  have hbefore : ∀ j ∈ assigned, blockAt candidates j = blockAt candidates i →
      j < i ∧ w.assignments j ≤ layer := fun j hj hsame => by
    have hle := p.le_minLayer j hj
    rw [hsame] at hle
    exact ⟨((p.mem j).mp hj).2 i (by rw [hsame,hoffer]),hle.trans hplaced.low⟩
  refine ⟨i,hnew,?_,p.mem_insert g hi hoffer hnext,hplaced.targets.trans p.targets_eq,?_,?_,?_,?_,?_⟩
  · intro b k hk
    dsimp only at hk
    by_cases hb : b = blockAt candidates i
    · rw [hb] at hk ⊢
      rw [Buffer.set_self] at hk
      rcases hnext with ⟨hlt,hsame,rfl⟩ | ⟨-,rfl⟩
      · cases hk
        exact ⟨hlt,hsame⟩
      · cases hk
    · rw [Buffer.set_of_ne _ _ hb] at hk
      exact p.offers b k hk
  · intro b
    dsimp only
    by_cases hb : b = blockAt candidates i
    · rw [hb,Buffer.set_self]
      exact hplaced.high
    · rw [Buffer.set_of_ne _ _ hb]
      exact p.minLayer_lt b
  · intro j hj
    dsimp only
    rcases Finset.mem_insert.mp hj with rfl | hj
    · rw [Buffer.set_self,Buffer.set_self]
    · rw [hkept j hj]
      by_cases hb : blockAt candidates j = blockAt candidates i
      · rw [hb,Buffer.set_self]
        exact (hbefore j hj hb).2
      · rw [Buffer.set_of_ne _ _ hb]
        exact p.le_minLayer j hj
  · intro j hj k hk hle hsame
    dsimp only
    rcases Finset.mem_insert.mp hj with rfl | hj'
    · rcases Finset.mem_insert.mp hk with rfl | hk'
      · exact le_rfl
      · have := (hbefore k hk' hsame.symm).1
        omega
    · rw [hkept j hj']
      rcases Finset.mem_insert.mp hk with rfl | hk'
      · rw [Buffer.set_self]
        exact (hbefore j hj' hsame).2
      · rw [hkept k hk']
        exact p.mono j hj' k hk' hle hsame
  · intro l hl
    dsimp only
    rw [hplaced.used l (by rw [p.targets_eq]; exact hl),p.used l hl,sum_filter_set hnew]
    split_ifs <;> omega
  · intro l hl
    dsimp only
    rw [hplaced.used l (by rw [p.targets_eq]; omega)]
    split_ifs with hle
    · have := hplaced.budget l hle (by rw [p.targets_eq]; exact hl)
      rwa [p.targets_eq] at this
    · exact p.budget l hl

/-- While segments are left, there is a turn, if no sum of bytes exceeds 64 bits. -/
theorem Progress.exists_step (p : Progress candidates layerCount targets assigned w)
    (g : Grouped candidates blockCount) (hcard : assigned.card < candidates.length)
    (htotal : totalRate candidates < 2 ^ 64) :
    ∃ w', assignNext A texts candidates blockCount w = .ok w' := by
  obtain ⟨j,hj,hnot⟩ : ∃ j < candidates.length, j ∉ assigned := by
    by_contra hall
    have hsub : Finset.range candidates.length ⊆ assigned := fun j hj => by
      by_contra hnot
      exact hall ⟨j,Finset.mem_range.mp hj,hnot⟩
    have := Finset.card_le_card hsub
    rw [Finset.card_range] at this
    omega
  have hoffered : ∃ k, w.blockFrontiers (blockAt candidates j) = some k := by
    by_contra hnone
    exact hnot ((p.mem j).mpr ⟨hj,fun k hk => absurd ⟨k,hk⟩ hnone⟩)
  obtain ⟨k,hk⟩ := hoffered
  have hmem : k ∈ (List.range blockCount).filterMap w.blockFrontiers :=
    List.mem_filterMap.mpr ⟨_,List.mem_range.mpr (g.block_lt j hj),hk⟩
  unfold assignNext
  dsimp only
  split
  next hnone =>
    cases hoffers : (List.range blockCount).filterMap w.blockFrontiers with
    | nil =>
        rw [hoffers] at hmem
        cases hmem
    | cons a l =>
        rw [hoffers] at hnone
        cases hnone
  next i hi =>
    obtain ⟨b,-,hb⟩ := List.mem_filterMap.mp (minBy_mem hi)
    obtain ⟨hlt,rfl⟩ := p.offers b i hb
    obtain ⟨c,hc,hblock,-,hrate⟩ := exists_candidate hlt
    simp only [hc]
    rw [if_neg (by rw [← hblock]; exact Nat.not_le.mpr (g.block_lt i hlt))]
    have hnew : i ∉ assigned := fun hmem => Nat.lt_irrefl i (((p.mem i).mp hmem).2 i hb)
    have hsub : insert i assigned ⊆ Finset.range candidates.length := fun j hj => by
      rcases Finset.mem_insert.mp hj with rfl | hj
      · exact Finset.mem_range.mpr hlt
      · exact Finset.mem_range.mpr ((p.mem j).mp hj).1
    have hsum : ∀ l < w.allocator.cumulativeTargets.length,
        w.allocator.cumulativeUsed l + c.rate < 2 ^ 64 := fun l hl => by
      rw [p.targets_eq] at hl
      have hle : w.allocator.cumulativeUsed l ≤ ∑ j ∈ assigned, rateAt candidates j := by
        rw [p.used l hl]
        exact Finset.sum_le_sum_of_subset (Finset.filter_subset _ _)
      have hall := Finset.sum_le_sum_of_subset (f := rateAt candidates) hsub
      rw [Finset.sum_insert hnew] at hall
      unfold totalRate at htotal
      omega
    obtain ⟨layer,allocator,hassign⟩ := @LayerBudgetAllocator.exists_assignSegment
      w.allocator c.rate (w.blockMinLayers c.blockIndex) hsum
    rw [hassign]
    exact ⟨_,rfl⟩

/-- Run lemma: as many turns as there are segments assign all of them. -/
theorem Progress.run (g : Grouped candidates blockCount)
    (hcount : targets ≠ [] → targets.length = layerCount) {turns : ℕ}
    (p : Progress candidates layerCount targets assigned w)
    (hcard : assigned.card + turns = candidates.length) :
    (∀ w', assignAll A texts candidates blockCount turns w = .ok w' →
        Progress candidates layerCount targets (Finset.range candidates.length) w') ∧
      (totalRate candidates < 2 ^ 64 →
        ∃ w', assignAll A texts candidates blockCount turns w = .ok w') := by
  induction turns generalizing assigned w with
  | zero =>
      refine ⟨fun w' h => ?_,fun _ => ⟨w,rfl⟩⟩
      cases h
      have hsub : assigned ⊆ Finset.range candidates.length := fun j hj =>
        Finset.mem_range.mpr ((p.mem j).mp hj).1
      rw [← Finset.eq_of_subset_of_card_le hsub (by rw [Finset.card_range]; omega)]
      exact p
  | succ turns ih =>
      unfold assignAll
      refine ⟨fun w' h => ?_,fun htotal => ?_⟩
      · obtain ⟨w₁,hstep,h⟩ := bind_eq_ok.mp h
        obtain ⟨i,hi,p₁⟩ := p.step g hcount hstep
        exact (ih p₁ (by rw [Finset.card_insert_of_notMem hi]; omega)).1 w' h
      · obtain ⟨w₁,hstep⟩ := @Progress.exists_step _ A texts _ _ _ _ _ _ p g (by omega) htotal
        obtain ⟨i,hi,p₁⟩ := p.step g hcount hstep
        rw [hstep,ok_bind]
        exact (ih p₁ (by rw [Finset.card_insert_of_notMem hi]; omega)).2 htotal

/-! ## The finished assignment -/

theorem foldl_max_le {l : List ℕ} {start bound : ℕ} (hstart : start ≤ bound)
    (h : ∀ x ∈ l, x ≤ bound) : l.foldl max start ≤ bound := by
  induction l generalizing start with
  | nil => exact hstart
  | cons x l ih =>
      exact ih (max_le hstart (h x List.mem_cons_self))
        fun y hy => h y (List.mem_cons_of_mem _ hy)

/-- The last pass finds nothing to raise. -/
theorem enforceMonotonicity_eq (g : Grouped candidates blockCount) {assignments : Buffer ℕ}
    (hmono : ∀ i j, i ≤ j → j < candidates.length → blockAt candidates i = blockAt candidates j →
      assignments i ≤ assignments j) : enforceMonotonicity candidates assignments = assignments := by
  refine forRange_induction (fun _ (b : Buffer ℕ) => b = assignments) rfl ?_
  rintro i hi b rfl
  obtain ⟨c,hc,hblock,hsegment,-⟩ := exists_candidate hi
  simp only [hc]
  rw [max_eq_left (foldl_max_le (Nat.zero_le _) fun x hx => ?_)]
  · funext j
    by_cases hj : j = i
    · rw [hj,Buffer.set_self]
    · rw [Buffer.set_of_ne _ _ hj]
  · obtain ⟨j,hj,hprior⟩ := List.mem_filterMap.mp hx
    obtain ⟨c',hc',hblock',hsegment',-⟩ := exists_candidate (List.mem_range.mp hj)
    rw [hc'] at hprior
    dsimp only at hprior
    split_ifs at hprior with hbefore
    cases hprior
    have hsame : blockAt candidates j = blockAt candidates i := by omega
    exact hmono j i (g.le_of_segment_le (List.mem_range.mp hj) hsame (by omega)) hi hsame

/-- One layer for each segment, in the order of the segments of a block, within the budget of
every layer but the last. -/
structure LayersAssigned (candidates : List (SegmentAssignmentCandidate F)) (layerCount : ℕ)
    (cumulativeTargets layers : List ℕ) : Prop where
  length_eq : layers.length = candidates.length
  layer_lt : ∀ layer ∈ layers, layer < layerCount
  mono : ∀ i < candidates.length, ∀ j < candidates.length,
    blockAt candidates i = blockAt candidates j →
    segmentAt candidates i ≤ segmentAt candidates j → layers.getD i 0 ≤ layers.getD j 0
  budget : ∀ l target, cumulativeTargets[l]? = some target → l + 1 < layerCount →
    ∑ i ∈ Finset.range candidates.length with layers.getD i 0 ≤ l, rateAt candidates i ≤
      target + classicRateTargetTolerance target

theorem validateAssignmentInputs_ok {candidateCapacity : ℕ} {cumulativeTargets : List ℕ}
    (h : validateAssignmentInputs texts candidates candidateCapacity layerCount cumulativeTargets =
      .ok blockCount) :
    (cumulativeTargets ≠ [] → cumulativeTargets.length = layerCount) ∧
      Grouped candidates blockCount := by
  unfold validateAssignmentInputs at h
  split_ifs at h with hlength
  exact ⟨fun hne => not_not.mp fun hlen => hlength ⟨hne,hlen⟩,grouped_of_ordered h⟩

theorem getD_map_range (f : ℕ → ℕ) {n i : ℕ} (h : i < n) :
    ((List.range n).map f).getD i 0 = f i := by
  rw [List.getD_eq_getElem?_getD,List.getElem?_map,List.getElem?_range h]
  rfl

/-- Every segment of the finished run has its place. -/
theorem Progress.layersAssigned {cumulativeTargets : List ℕ}
    (g : Grouped candidates blockCount)
    (hcount : cumulativeTargets ≠ [] → cumulativeTargets.length = layerCount)
    (p : Progress candidates layerCount (cumulativeTargets.map fun target =>
        saturatingAdd 64 target (classicRateTargetTolerance target))
      (Finset.range candidates.length) w) :
    LayersAssigned candidates layerCount cumulativeTargets
      ((List.range candidates.length).map (enforceMonotonicity candidates w.assignments)) := by
  rw [enforceMonotonicity_eq g fun i j hij hj hsame =>
    p.mono i (Finset.mem_range.mpr (by omega)) j (Finset.mem_range.mpr hj) hij hsame]
  refine ⟨by rw [List.length_map,List.length_range],fun layer hlayer => ?_,
    fun i hi j hj hsame hle => ?_,fun l target htarget hl => ?_⟩
  · obtain ⟨i,hi,rfl⟩ := List.mem_map.mp hlayer
    exact p.lt (Finset.mem_range.mpr (List.mem_range.mp hi))
  · rw [getD_map_range _ hi,getD_map_range _ hj]
    exact p.mono i (Finset.mem_range.mpr hi) j (Finset.mem_range.mpr hj)
      (g.le_of_segment_le hi hsame hle) hsame
  · obtain ⟨hlt,-⟩ := List.getElem?_eq_some_iff.mp htarget
    have hlength := hcount (List.ne_nil_of_length_pos (by omega))
    have hbudget := p.budget l (by rw [List.length_map]; omega)
    rw [p.used l (by rwa [List.length_map]),List.getD_eq_getElem?_getD,List.getElem?_map,
      htarget] at hbudget
    have hfilter : (Finset.range candidates.length).filter
          (fun i => ((List.range candidates.length).map w.assignments).getD i 0 ≤ l) =
        (Finset.range candidates.length).filter fun i => w.assignments i ≤ l :=
      Finset.filter_congr fun i hi => by rw [getD_map_range _ (Finset.mem_range.mp hi)]
    rw [hfilter]
    exact hbudget.trans (min_le_left _ _)

theorem assignSegmentLayers_spec (hlayers : 0 < layerCount) {candidateCapacity : ℕ}
    {cumulativeTargets : List ℕ} :
    (∀ layers, assignSegmentLayers A texts candidates candidateCapacity layerCount
        cumulativeTargets = .ok layers →
      LayersAssigned candidates layerCount cumulativeTargets layers) ∧
    ((∃ n, validateAssignmentInputs texts candidates candidateCapacity layerCount
        cumulativeTargets = .ok n) → totalRate candidates < 2 ^ 64 →
      ∃ layers, assignSegmentLayers A texts candidates candidateCapacity layerCount
        cumulativeTargets = .ok layers) := by
  unfold assignSegmentLayers
  have hrun : ∀ {n}, validateAssignmentInputs texts candidates candidateCapacity layerCount
      cumulativeTargets = .ok n → _ := fun {n} h => by
    obtain ⟨hcount,g⟩ := validateAssignmentInputs_ok h
    exact @Progress.run _ A texts _ _ _ _ _ _ g (by rw [List.length_map]; simpa using hcount)
      _ (initial_progress g hlayers cumulativeTargets) (by rw [Finset.card_empty,Nat.zero_add])
  refine ⟨fun layers h => ?_,fun ⟨n,hvalid⟩ htotal => ?_⟩
  · obtain ⟨n,hvalid,h⟩ := bind_eq_ok.mp h
    obtain ⟨w,hw,h⟩ := bind_eq_ok.mp h
    cases h
    obtain ⟨hcount,g⟩ := validateAssignmentInputs_ok hvalid
    exact ((hrun hvalid).1 w hw).layersAssigned g hcount
  · obtain ⟨w,hw⟩ := (hrun hvalid).2 htotal
    exact ⟨_,bind_eq_ok.mpr ⟨n,hvalid,bind_eq_ok.mpr ⟨w,hw,rfl⟩⟩⟩

/-- Both assignments give every segment one layer below the layer count, never an earlier one
than to the segment before it in the block, and the bytes up to each layer but the last keep to
its target and the tolerance. Candidates that pass the checks are assigned, if their bytes have a
sum of 64 bits. -/
theorem layers_assigned (A : DoubleArithmetic F) (candidates : List (SegmentAssignmentCandidate F))
    (candidateCapacity : ℕ) {layerCount : ℕ} (hlayers : 0 < layerCount)
    (cumulativeTargets : List ℕ) :
    ((∀ layers, assignClassicSegmentLayersBySlope A candidates candidateCapacity layerCount
        cumulativeTargets = .ok layers →
        LayersAssigned candidates layerCount cumulativeTargets layers) ∧
      ((∃ n, validateAssignmentInputs classicTexts candidates candidateCapacity layerCount
          cumulativeTargets = .ok n) → totalRate candidates < 2 ^ 64 →
        ∃ layers, assignClassicSegmentLayersBySlope A candidates candidateCapacity layerCount
          cumulativeTargets = .ok layers)) ∧
    ((∀ layers, assignHtSegmentLayersByBudget A candidates candidateCapacity layerCount
        cumulativeTargets = .ok layers →
        LayersAssigned candidates layerCount cumulativeTargets layers) ∧
      ((∃ n, validateAssignmentInputs htTexts candidates candidateCapacity layerCount
          cumulativeTargets = .ok n) → totalRate candidates < 2 ^ 64 →
        ∃ layers, assignHtSegmentLayersByBudget A candidates candidateCapacity layerCount
          cumulativeTargets = .ok layers)) := by
  refine ⟨?_,assignSegmentLayers_spec hlayers⟩
  obtain ⟨hassigned,htotal⟩ := @assignSegmentLayers_spec _ A classicTexts candidates
    layerCount hlayers candidateCapacity cumulativeTargets
  unfold assignClassicSegmentLayersBySlope
  constructor
  · intro layers h
    obtain ⟨n,hvalid,h⟩ := bind_eq_ok.mp h
    split_ifs at h with hempty
    · cases h
      rw [List.isEmpty_iff.mp hempty]
      exact ⟨rfl,nofun,nofun,fun _ _ _ _ => Nat.zero_le _⟩
    · exact hassigned layers h
  · rintro ⟨n,hvalid⟩ hsum
    obtain ⟨layers,hlayers⟩ := htotal ⟨n,hvalid⟩ hsum
    rw [hvalid,ok_bind]
    split_ifs
    · exact ⟨[],rfl⟩
    · exact ⟨layers,hlayers⟩

/-- Slopes as quotients of natural numbers. -/
def integralSlopes : DoubleArithmetic ℕ := ⟨10 ^ 9,fun d rate => d / rate,fun x y => some (compare x y)⟩

/-- Two blocks, in the first of which the second segment has the steeper slope. -/
theorem layers_assigned_inverted_slopes :
    LayersAssigned [⟨0,0,300,600⟩,⟨0,1,400,8000⟩,⟨1,0,500,5000⟩] 2 [100,5000] [1,1,0] :=
  (layers_assigned integralSlopes [⟨0,0,300,600⟩,⟨0,1,400,8000⟩,⟨1,0,500,5000⟩] 3 (by decide)
    [100,5000]).2.1 [1,1,0] (by decide)

end

end J2kNative.LayerAssignment
