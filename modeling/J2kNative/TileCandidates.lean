import J2kNative.CodestreamWriter
import J2kNative.CountedLoops
import Mathlib.Data.List.Sort
import Mathlib.Data.Prod.Lex
import Mathlib.Order.OrderDual
import Mathlib.Algebra.BigOperators.Group.Finset.Basic
import Mathlib.Algebra.Order.BigOperators.Group.Finset

/-!
# Candidates of a tile under a byte budget

Each family of alternate codings of a block is reduced to the hull of its points of rate
and distortion gain. From the cheapest points on, the steepest edge of all hulls that still
fits is taken until none fits. The arithmetic of the gains is a parameter; only the total
order of its numbers is used. The flat vector of hull points with its ranges is the list of
the hulls, and memory that cannot be had is left out.
-/
namespace J2kNative.TileCandidates
open CodestreamWriter CountedLoops Fallible

/-- Double-precision numbers, beside their total order. -/
structure DistortionArithmetic (F : Type) where
  zero : F
  infinity : F
  add : F → F → F
  sub : F → F → F
  /-- Quotient by a converted rate. -/
  divRate : F → ℕ → F
  /-- Finite, and not below zero. -/
  valid : F → Bool
  /-- The comparison `<=`. -/
  le : F → F → Bool

structure HtCandidateRange where
  start : ℕ
  len : ℕ
  deriving DecidableEq, Repr

structure HtCandidateSelection where
  candidateIndex : ℕ
  numCodingPasses : ℕ
  deriving DecidableEq, Repr

structure HtCandidatePoint (F : Type) where
  candidateIndex : ℕ
  numCodingPasses : ℕ
  rate : ℕ
  distortion : F
  deriving DecidableEq

/-- What the selection reads of an encoded block. -/
structure EncodedCodeBlock (F : Type) where
  numCodingPasses : ℕ
  htCleanupLength : ℕ
  htSigpropLength : ℕ
  htMagrefLength : ℕ
  htDistortionDeltas : List F

section
variable {F : Type} [LinearOrder F] (A : DistortionArithmetic F)

/-! ## Points of a family -/

def passRate (candidate : EncodedCodeBlock F) (pass : ℕ) : ℕ :=
  match pass with
  | 0 => candidate.htCleanupLength
  | 1 => candidate.htSigpropLength
  | _ => candidate.htMagrefLength

/-- The points of one candidate from a pass on; a fourth gain does not exist. -/
def passPoints (candidate : EncodedCodeBlock F) (index : ℕ) :
    ℕ → ℕ → ℕ → F → Except EncodeError (List (HtCandidatePoint F))
  | 0, _, _, _ => .ok []
  | n + 1, pass, rate, distortion =>
      if rate + passRate candidate pass ≥ 2 ^ 64 then
        .error (.arithmeticOverflow "HTJ2K candidate cumulative rate")
      else match candidate.htDistortionDeltas[pass]? with
        | none => .error (.internalInvariant "index out of bounds")
        | some delta =>
            if A.valid delta then do
              let rate := rate + passRate candidate pass
              let distortion := A.add distortion delta
              let points ← passPoints candidate index n (pass + 1) rate distortion
              .ok (⟨index,pass + 1,rate,distortion⟩ :: points)
            else .error (.internalInvariant "HTJ2K candidate distortion is invalid")

def ownPoints (candidate : EncodedCodeBlock F) (index : ℕ) :
    Except EncodeError (List (HtCandidatePoint F)) :=
  if candidate.numCodingPasses = 0 then .ok [⟨index,0,0,A.zero⟩]
  else passPoints A candidate index candidate.numCodingPasses 0 0 A.zero

/-- `candidate_points` from a candidate on. -/
def candidatePoints : ℕ → List (EncodedCodeBlock F) → Except EncodeError (List (HtCandidatePoint F))
  | _, [] => .ok []
  | index, candidate :: candidates => do
      let own ← ownPoints A candidate index
      let rest ← candidatePoints (index + 1) candidates
      .ok (own ++ rest)

/-! ## Hull -/

/-- The order of the points: by rate, by falling distortion gain, by candidate and by passes. -/
def pointKey (p : HtCandidatePoint F) : ℕ ×ₗ Fᵒᵈ ×ₗ ℕ ×ₗ ℕ :=
  toLex (p.rate,toLex (OrderDual.toDual p.distortion,toLex (p.candidateIndex,p.numCodingPasses)))

def sortPoints (points : List (HtCandidatePoint F)) : List (HtCandidatePoint F) :=
  points.insertionSort fun left right => pointKey left ≤ pointKey right

/-- The loop of `nondominated_points`; before the first point nothing is best, which every gain
exceeds. -/
def nondominatedPoints (previousRate : Option ℕ) (bestDistortion : Option F) :
    List (HtCandidatePoint F) → List (HtCandidatePoint F)
  | [] => []
  | point :: points =>
      if previousRate = some point.rate then nondominatedPoints previousRate bestDistortion points
      else if bestDistortion.any fun best => A.le point.distortion best then
        nondominatedPoints (some point.rate) bestDistortion points
      else point :: nondominatedPoints (some point.rate) (some point.distortion) points

def edgeSlope (left right : HtCandidatePoint F) : F :=
  let rate := right.rate - left.rate
  if rate = 0 then A.infinity else A.divRate (A.sub right.distortion left.distortion) rate

/-- One point onto the hull, the last point first: points that do not turn down are popped. -/
def pushPoint (point : HtCandidatePoint F) : List (HtCandidatePoint F) → List (HtCandidatePoint F)
  | middle :: left :: hull =>
      if edgeSlope A middle point < edgeSlope A left middle then point :: middle :: left :: hull
      else pushPoint point (left :: hull)
  | hull => point :: hull

/-- The points that remain of all points of a family. -/
def hullOfPoints (points : List (HtCandidatePoint F)) : List (HtCandidatePoint F) :=
  ((nondominatedPoints A none none (sortPoints points)).foldl
    (fun hull point => pushPoint A point hull) []).reverse

/-- `append_candidate_hull`: the points it appends. -/
def candidateHull (candidates : List (EncodedCodeBlock F)) (candidateOffset : ℕ) :
    Except EncodeError (List (HtCandidatePoint F)) := do
  if candidates.length * 3 ≥ 2 ^ 64 then
    .error (.arithmeticOverflow "HTJ2K block candidate point count")
  else
    let points ← candidatePoints A candidateOffset candidates
    .ok (hullOfPoints A points)

def candidateFamily (candidates : List (EncodedCodeBlock F)) (range : HtCandidateRange) :
    Except EncodeError (List (EncodedCodeBlock F)) :=
  if range.start + range.len ≥ 2 ^ 64 then
    .error (.arithmeticOverflow "HTJ2K tile candidate family range")
  else if range.len = 0 ∨ range.start + range.len > candidates.length then
    .error (.internalInvariant "HTJ2K tile candidate family range is invalid")
  else .ok ((candidates.drop range.start).take range.len)

/-! ## Selection -/

def selection (point : HtCandidatePoint F) : HtCandidateSelection :=
  ⟨point.candidateIndex,point.numCodingPasses⟩

/-- An edge that fits, with its family, its end, its bytes and its slope. -/
structure FittingEdge (F : Type) where
  family : ℕ
  point : HtCandidatePoint F
  deltaRate : ℕ
  slope : F

/-- The chain of comparisons that replaces the best edge. -/
def replaces (edge best : FittingEdge F) : Bool :=
  ((compare edge.slope best.slope).then ((compare best.family edge.family).then
    ((compare best.point.candidateIndex edge.point.candidateIndex).then
      (compare best.point.numCodingPasses edge.point.numCodingPasses)))) = .gt

/-- One turn of `best_fitting_edge`. -/
def considerFamily (hulls : List (List (HtCandidatePoint F))) (frontiers : Buffer ℕ)
    (remaining : ℕ) (best : Option (FittingEdge F)) (family : ℕ) :
    Except EncodeError (Option (FittingEdge F)) :=
  match (hulls.getD family [])[frontiers family - 1]?, (hulls.getD family [])[frontiers family]? with
  | some previous, some next =>
      if next.rate < previous.rate then
        .error (.internalInvariant "HTJ2K tile candidate hull rate is not monotonic")
      else if next.rate - previous.rate > remaining then .ok best
      else
        let edge := ⟨family,next,next.rate - previous.rate,edgeSlope A previous next⟩
        if best.all fun best => replaces edge best then .ok (some edge) else .ok best
  | _, _ => .ok best

def bestFittingEdge (hulls : List (List (HtCandidatePoint F))) (frontiers : Buffer ℕ)
    (remaining : ℕ) : Except EncodeError (Option (FittingEdge F)) :=
  (List.range hulls.length).foldlM (considerFamily A hulls frontiers remaining) none

structure Allocation where
  used : ℕ
  selections : Buffer HtCandidateSelection
  frontiers : Buffer ℕ

/-- The cheapest point of every family. -/
def cheapest : List (List (HtCandidatePoint F)) → ℕ → Except EncodeError (ℕ × List HtCandidateSelection)
  | [], used => .ok (used,[])
  | hull :: hulls, used =>
      match hull.head? with
      | none => .error (.internalInvariant "HTJ2K tile candidate hull is empty")
      | some first =>
          if used + first.rate ≥ 2 ^ 64 then
            .error (.arithmeticOverflow "HTJ2K tile candidate cleanup budget")
          else do
            let (used,selections) ← cheapest hulls (used + first.rate)
            .ok (used,selection first :: selections)

/-- The loop of `allocate_hull_points`. -/
def allocateLoop (hulls : List (List (HtCandidatePoint F))) (byteBudget : ℕ) :
    ℕ → Allocation → Except EncodeError (Option Allocation)
  | 0, _ => .ok none
  | turns + 1, a =>
      match bestFittingEdge A hulls a.frontiers (byteBudget - a.used) with
      | .error e => .error e
      | .ok none => .ok (some a)
      | .ok (some edge) =>
          if a.used + edge.deltaRate ≥ 2 ^ 64 then
            .error (.arithmeticOverflow "HTJ2K tile candidate selected bytes")
          else allocateLoop hulls byteBudget turns
            ⟨a.used + edge.deltaRate,a.selections.set edge.family (selection edge.point),
              a.frontiers.set edge.family (a.frontiers edge.family + 1)⟩

/-- `allocate_hull_points`; each turn takes one edge of a hull, so that one turn more than there
are points suffices (`allocateLoop_returns`). -/
def allocateHullPoints (hulls : List (List (HtCandidatePoint F))) (byteBudget : ℕ) :
    Except EncodeError (Option (List HtCandidateSelection)) := do
  let (used,selections) ← cheapest hulls 0
  let a ← allocateLoop A hulls byteBudget (hulls.flatten.length + 1)
    ⟨used,fun family => selections.getD family ⟨0,0⟩,fun _ => 1⟩
  .ok (a.map fun a => (List.range hulls.length).map a.selections)

def candidateHulls (candidates : List (EncodedCodeBlock F)) (ranges : List HtCandidateRange) :
    Except EncodeError (List (List (HtCandidatePoint F))) :=
  ranges.mapM fun range => do
    let family ← candidateFamily candidates range
    candidateHull A family range.start

/-- `select_tile_code_block_candidates`. -/
def selectTileCodeBlockCandidates (candidates : List (EncodedCodeBlock F))
    (ranges : List HtCandidateRange) (byteBudget : ℕ) :
    Except EncodeError (Option (List HtCandidateSelection)) := do
  if candidates.length * 3 ≥ 2 ^ 64 then
    .error (.arithmeticOverflow "HTJ2K tile candidate point count")
  else
    let hulls ← candidateHulls A candidates ranges
    allocateHullPoints A hulls byteBudget

/-! ## What a hull is -/

variable {A}

/-- Behind every edge of the hull, read from its end, comes a steeper one. -/
def Bends (A : DistortionArithmetic F) : List (HtCandidatePoint F) → Prop
  | point :: middle :: left :: hull =>
      edgeSlope A middle point < edgeSlope A left middle ∧ Bends A (middle :: left :: hull)
  | _ => True

theorem Bends.tail {point : HtCandidatePoint F} {hull : List (HtCandidatePoint F)}
    (h : Bends A (point :: hull)) : Bends A hull := by
  match hull, h with
  | [], _ => exact trivial
  | [_], _ => exact trivial
  | _ :: _ :: _, h => exact h.2

theorem Bends.pushPoint {point : HtCandidatePoint F} {hull : List (HtCandidatePoint F)}
    (h : Bends A hull) : Bends A (pushPoint A point hull) := by
  induction hull using pushPoint.induct A point with
  | case1 middle left hull hlt =>
      unfold TileCandidates.pushPoint
      rw [if_pos hlt]
      exact ⟨hlt,h⟩
  | case2 middle left hull hlt ih =>
      unfold TileCandidates.pushPoint
      rw [if_neg hlt]
      exact ih h.tail
  | case3 hull hshort =>
      match hull, hshort with
      | [], _ => exact trivial
      | [_], _ => exact trivial
      | middle :: left :: hull, hshort => exact absurd rfl (hshort middle left hull)

/-- A push only pops, and never the first point. -/
theorem pushPoint_spec (point : HtCandidatePoint F) (hull : List (HtCandidatePoint F)) :
    (pushPoint A point hull).Sublist (point :: hull) ∧
      (hull ≠ [] → (pushPoint A point hull).getLast? = hull.getLast?) := by
  induction hull using pushPoint.induct A point with
  | case1 middle left hull hlt =>
      unfold pushPoint
      rw [if_pos hlt]
      exact ⟨.refl _,fun _ => List.getLast?_cons_cons⟩
  | case2 middle left hull hlt ih =>
      unfold pushPoint
      rw [if_neg hlt]
      refine ⟨ih.1.trans ((List.sublist_cons_self middle (left :: hull)).cons_cons point),fun _ => ?_⟩
      rw [ih.2 (List.cons_ne_nil _ _),List.getLast?_cons_cons]
  | case3 hull hshort =>
      match hull, hshort with
      | [], _ => exact ⟨.refl _,fun hne => absurd rfl hne⟩
      | [_], _ => exact ⟨.refl _,fun _ => List.getLast?_cons_cons⟩
      | middle :: left :: hull, hshort => exact absurd rfl (hshort middle left hull)

/-- The pushes of a list of points onto a hull. -/
theorem pushAll_spec (points hull : List (HtCandidatePoint F)) (h : Bends A hull) :
    Bends A (points.foldl (fun hull point => pushPoint A point hull) hull) ∧
      (points.foldl (fun hull point => pushPoint A point hull) hull).Sublist
        (points.reverse ++ hull) ∧
      (hull ≠ [] → (points.foldl (fun hull point => pushPoint A point hull) hull).getLast? =
        hull.getLast?) := by
  induction points generalizing hull with
  | nil => exact ⟨h,.refl _,fun _ => rfl⟩
  | cons point points ih =>
      obtain ⟨hsub,hlast⟩ := pushPoint_spec (A := A) point hull
      obtain ⟨hbends,hall,hkept⟩ := ih _ (@Bends.pushPoint _ _ _ point _ h)
      refine ⟨hbends,hall.trans ?_,fun hne => ?_⟩
      · rw [List.reverse_cons,List.append_assoc]
        exact hsub.append_left _
      · rw [List.foldl_cons,hkept fun hnil => ?_,hlast hne]
        have := hlast hne
        rw [hnil,List.getLast?_nil] at this
        exact hne (List.getLast?_eq_none_iff.mp this.symm)

omit [LinearOrder F] in
/-- Of sorted points those of one rate are reduced to one, so that the rates rise. -/
theorem nondominatedPoints_spec (points : List (HtCandidatePoint F)) (previousRate : Option ℕ)
    (bestDistortion : Option F) (hsorted : points.Pairwise fun a b => a.rate ≤ b.rate)
    (hprevious : ∀ r ∈ previousRate, ∀ p ∈ points, r ≤ p.rate) :
    (nondominatedPoints A previousRate bestDistortion points).Sublist points ∧
      (nondominatedPoints A previousRate bestDistortion points).Pairwise
        (fun a b => a.rate < b.rate) ∧
      ∀ r ∈ previousRate, ∀ p ∈ nondominatedPoints A previousRate bestDistortion points,
        r < p.rate := by
  induction points generalizing previousRate bestDistortion with
  | nil => exact ⟨.slnil,.nil,nofun⟩
  | cons point points ih =>
      obtain ⟨hhead,htail⟩ := List.pairwise_cons.mp hsorted
      have hnext : ∀ r ∈ some point.rate, ∀ p ∈ points, r ≤ p.rate := by
        rintro r ⟨⟩ p hp
        exact hhead p hp
      unfold nondominatedPoints
      split_ifs with hsame hbest
      · obtain ⟨hsub,hpairs,hlt⟩ := ih previousRate bestDistortion htail
          fun r hr p hp => hprevious r hr p (List.mem_cons_of_mem _ hp)
        exact ⟨hsub.cons _,hpairs,hlt⟩
      · obtain ⟨hsub,hpairs,hlt⟩ := ih (some point.rate) bestDistortion htail hnext
        exact ⟨hsub.cons _,hpairs,fun r hr p hp =>
          (hprevious r hr point List.mem_cons_self).trans_lt (hlt _ rfl p hp)⟩
      · obtain ⟨hsub,hpairs,hlt⟩ := ih (some point.rate) (some point.distortion) htail hnext
        refine ⟨hsub.cons_cons _,List.pairwise_cons.mpr ⟨hlt _ rfl,hpairs⟩,fun r hr p hp => ?_⟩
        have hle := hprevious r hr point List.mem_cons_self
        have hne : r ≠ point.rate := fun heq => hsame (by rw [← heq]; exact hr)
        rcases List.mem_cons.mp hp with rfl | hp
        · omega
        · have := hlt _ rfl p hp
          omega

theorem sortPoints_rates (points : List (HtCandidatePoint F)) :
    (sortPoints points).Pairwise fun a b => a.rate ≤ b.rate := by
  have : Std.Total fun left right : HtCandidatePoint F => pointKey left ≤ pointKey right :=
    ⟨fun left right => le_total (pointKey left) (pointKey right)⟩
  have : IsTrans (HtCandidatePoint F) fun left right => pointKey left ≤ pointKey right :=
    ⟨fun _ _ _ => le_trans⟩
  refine (List.pairwise_insertionSort _ points).imp fun {a b} hle => ?_
  rcases Prod.Lex.le_iff.mp hle with hlt | ⟨heq,-⟩
  · exact hlt.le
  · exact heq.le

/-- The points of a family that its hull keeps: the first of them is the cheapest point, rates
rise strictly and slopes fall strictly. -/
structure IsHull (A : DistortionArithmetic F) (points hull : List (HtCandidatePoint F)) : Prop where
  mem : ∀ p ∈ hull, p ∈ points
  rates : hull.Pairwise fun a b => a.rate < b.rate
  slopes : ∀ l a b c r, hull = l ++ a :: b :: c :: r → edgeSlope A b c < edgeSlope A a b
  first : ∃ p, hull.head? = some p ∧ ∀ q ∈ points, p.rate ≤ q.rate

theorem Bends.slope_lt {hull l r : List (HtCandidatePoint F)} {a b c : HtCandidatePoint F}
    (h : Bends A hull) (heq : hull = l ++ c :: b :: a :: r) :
    edgeSlope A b c < edgeSlope A a b := by
  induction l generalizing hull with
  | nil =>
      rw [heq] at h
      exact h.1
  | cons p l ih =>
      rw [heq] at h
      exact ih h.tail rfl

theorem hull_rates (points : List (HtCandidatePoint F)) :
    (hullOfPoints A points).Pairwise fun a b => a.rate < b.rate := by
  obtain ⟨-,hpairs,-⟩ := nondominatedPoints_spec (A := A) (sortPoints points) none none
    (sortPoints_rates points) nofun
  obtain ⟨-,hpushed,-⟩ :=
    pushAll_spec (A := A) (nondominatedPoints A none none (sortPoints points)) [] trivial
  rw [List.append_nil] at hpushed
  have hforward := List.reverse_sublist.mpr hpushed
  rw [List.reverse_reverse] at hforward
  exact hpairs.sublist hforward

theorem isHull_of_points {points : List (HtCandidatePoint F)} (hne : points ≠ []) :
    IsHull A points (hullOfPoints A points) := by
  have hperm : (sortPoints points).Perm points := List.perm_insertionSort _ points
  have hsorted := sortPoints_rates points
  obtain ⟨hsub,-,-⟩ := nondominatedPoints_spec (A := A) (sortPoints points) none none hsorted nofun
  obtain ⟨hbends,hpushed,-⟩ :=
    pushAll_spec (A := A) (nondominatedPoints A none none (sortPoints points)) [] trivial
  rw [List.append_nil] at hpushed
  have hforward := List.reverse_sublist.mpr hpushed
  rw [List.reverse_reverse] at hforward
  refine ⟨fun p hp => hperm.mem_iff.mp (hsub.subset (hforward.subset hp)),hull_rates points,
    fun l a b c r heq => ?_,?_⟩
  · refine hbends.slope_lt (l := r.reverse) (r := l.reverse) ?_
    unfold hullOfPoints at heq
    rw [← List.reverse_reverse (List.foldl _ _ _),heq]
    simp
  · cases hlist : sortPoints points with
    | nil =>
        rw [hlist] at hperm
        exact absurd hperm.nil_eq.symm hne
    | cons first rest =>
        have hhead : nondominatedPoints A none none (first :: rest) =
            first :: nondominatedPoints A (some first.rate) (some first.distortion) rest := rfl
        refine ⟨first,?_,fun q hq => ?_⟩
        · unfold hullOfPoints
          rw [hlist,hhead,List.head?_reverse,List.foldl_cons]
          have hlast := (pushAll_spec (A := A)
            (nondominatedPoints A (some first.rate) (some first.distortion) rest) [first]
            trivial).2.2 (List.cons_ne_nil _ _)
          exact hlast
        · have hq := hperm.mem_iff.mpr hq
          rw [hlist] at hq hsorted
          rcases List.mem_cons.mp hq with rfl | hq
          · exact le_rfl
          · exact (List.pairwise_cons.mp hsorted).1 q hq

/-! ## Edges -/

section
variable {hulls : List (List (HtCandidatePoint F))} {frontiers : Buffer ℕ} {remaining : ℕ}

def Rising (hulls : List (List (HtCandidatePoint F))) : Prop :=
  ∀ hull ∈ hulls, hull.Pairwise fun a b => a.rate < b.rate

/-- The edge leads from the point before the frontier of its family to the point there. -/
structure IsEdge (hulls : List (List (HtCandidatePoint F))) (frontiers : Buffer ℕ)
    (remaining : ℕ) (edge : FittingEdge F) : Prop where
  family_lt : edge.family < hulls.length
  next : (hulls.getD edge.family [])[frontiers edge.family]? = some edge.point
  previous : ∃ p, (hulls.getD edge.family [])[frontiers edge.family - 1]? = some p ∧
    p.rate + edge.deltaRate = edge.point.rate
  fits : edge.deltaRate ≤ remaining

theorem considerFamily_ok {best best' : Option (FittingEdge F)} {family : ℕ}
    (hfamily : family < hulls.length)
    (hbest : ∀ edge ∈ best, IsEdge hulls frontiers remaining edge)
    (h : considerFamily A hulls frontiers remaining best family = .ok best') :
    ∀ edge ∈ best', IsEdge hulls frontiers remaining edge := by
  unfold considerFamily at h
  split at h
  next previous next hprevious hnext =>
    dsimp only at h
    split_ifs at h with hless hfits hreplace
    · cases h
      exact hbest
    · cases h
      rintro edge ⟨⟩
      exact ⟨hfamily,hnext,⟨previous,hprevious,Nat.add_sub_of_le (Nat.not_lt.mp hless)⟩,
        Nat.not_lt.mp hfits⟩
    · cases h
      exact hbest
  · cases h
    exact hbest

theorem bestFittingEdge_ok {best : Option (FittingEdge F)}
    (h : bestFittingEdge A hulls frontiers remaining = .ok best) :
    ∀ edge ∈ best, IsEdge hulls frontiers remaining edge :=
  foldlM_invariant (P := fun best => ∀ edge ∈ best, IsEdge hulls frontiers remaining edge)
    (fun _ hfamily _ _ hbest h => considerFamily_ok (List.mem_range.mp hfamily) hbest h)
    (fun _ hnone => by cases hnone) h

/-- On hulls with rising rates the search never gives up. -/
theorem exists_bestFittingEdge (hrising : Rising hulls) :
    ∃ best, bestFittingEdge A hulls frontiers remaining = .ok best := by
  have hturn : ∀ best, ∀ family < hulls.length,
      ∃ best', considerFamily A hulls frontiers remaining best family = .ok best' := by
    intro best family hfamily
    have hpairs := hrising (hulls.getD family []) (by
      rw [List.getD_eq_getElem _ _ hfamily]
      exact List.getElem_mem hfamily)
    unfold considerFamily
    split
    next previous next hprevious hnext =>
      obtain ⟨hlt,rfl⟩ := List.getElem?_eq_some_iff.mp hprevious
      obtain ⟨hlt',rfl⟩ := List.getElem?_eq_some_iff.mp hnext
      have hle : ((hulls.getD family [])[frontiers family - 1]).rate ≤
          ((hulls.getD family [])[frontiers family]).rate := by
        rcases Nat.eq_zero_or_pos (frontiers family) with hzero | hpos
        · simp only [hzero,Nat.zero_sub]
          exact le_rfl
        · exact (List.pairwise_iff_getElem.mp hpairs _ _ hlt hlt' (by omega)).le
      rw [if_neg (Nat.not_lt.mpr hle)]
      dsimp only
      split_ifs <;> exact ⟨_,rfl⟩
    · exact ⟨best,rfl⟩
  have hall : ∀ families : List ℕ, (∀ family ∈ families, family < hulls.length) → ∀ best,
      ∃ best', families.foldlM (considerFamily A hulls frontiers remaining) best = .ok best' := by
    intro families
    induction families with
    | nil => exact fun _ best => ⟨best,rfl⟩
    | cons family families ih =>
        intro hlt best
        obtain ⟨best₁,hbest₁⟩ := hturn best family (hlt family List.mem_cons_self)
        obtain ⟨best',hbest'⟩ := ih (fun f hf => hlt f (List.mem_cons_of_mem _ hf)) best₁
        exact ⟨best',by rw [List.foldlM_cons,hbest₁,ok_bind,hbest']⟩
  exact hall _ (fun family hfamily => List.mem_range.mp hfamily) none

/-! ## Allocation -/

/-- The last point taken of a family. -/
def reached (hulls : List (List (HtCandidatePoint F))) (frontiers : Buffer ℕ) (family : ℕ) :
    Option (HtCandidatePoint F) := (hulls.getD family [])[frontiers family - 1]?

def reachedRate (hulls : List (List (HtCandidatePoint F))) (frontiers : Buffer ℕ) (family : ℕ) :
    ℕ := ((reached hulls frontiers family).map (·.rate)).getD 0

structure Allocated (hulls : List (List (HtCandidatePoint F))) (byteBudget : ℕ) (a : Allocation) :
    Prop where
  frontier : ∀ family < hulls.length,
    0 < a.frontiers family ∧ a.frontiers family ≤ (hulls.getD family []).length
  selected : ∀ family < hulls.length, ∀ p, reached hulls a.frontiers family = some p →
    a.selections family = selection p
  used_eq : a.used = ∑ family ∈ Finset.range hulls.length, reachedRate hulls a.frontiers family
  used_le : a.used ≤ byteBudget

/-- The points that are not taken yet. -/
def untaken (hulls : List (List (HtCandidatePoint F))) (frontiers : Buffer ℕ) : ℕ :=
  ∑ family ∈ Finset.range hulls.length, ((hulls.getD family []).length - frontiers family)

/-- A sum over the families in which one term changes. -/
theorem sum_change {n family : ℕ} (h : family < n) {f g : ℕ → ℕ}
    (hsame : ∀ i, i ≠ family → f i = g i) :
    ∑ i ∈ Finset.range n, f i + g family = ∑ i ∈ Finset.range n, g i + f family := by
  have hmem := Finset.mem_range.mpr h
  have hrest : ∑ i ∈ (Finset.range n).erase family, f i =
      ∑ i ∈ (Finset.range n).erase family, g i :=
    Finset.sum_congr rfl fun i hi => hsame i (Finset.ne_of_mem_erase hi)
  rw [← Finset.add_sum_erase _ f hmem,← Finset.add_sum_erase _ g hmem,hrest]
  omega

variable {byteBudget : ℕ} {a : Allocation}

omit [LinearOrder F] in
/-- Step lemma: an edge that fits is taken. -/
theorem Allocated.take {edge : FittingEdge F} (h : Allocated hulls byteBudget a)
    (hedge : IsEdge hulls a.frontiers (byteBudget - a.used) edge) :
    Allocated hulls byteBudget ⟨a.used + edge.deltaRate,
        a.selections.set edge.family (selection edge.point),
        a.frontiers.set edge.family (a.frontiers edge.family + 1)⟩ ∧
      untaken hulls (a.frontiers.set edge.family (a.frontiers edge.family + 1)) + 1 =
        untaken hulls a.frontiers := by
  obtain ⟨hlt,-⟩ := List.getElem?_eq_some_iff.mp hedge.next
  obtain ⟨p,hp,hrate⟩ := hedge.previous
  have hreached : reached hulls (a.frontiers.set edge.family (a.frontiers edge.family + 1))
      edge.family = some edge.point := by
    unfold reached
    rw [Buffer.set_self]
    exact hedge.next
  have hkept : ∀ family, family ≠ edge.family →
      reached hulls (a.frontiers.set edge.family (a.frontiers edge.family + 1)) family =
        reached hulls a.frontiers family := fun family hne => by
    unfold reached
    rw [Buffer.set_of_ne _ _ hne]
  refine ⟨⟨fun family hfamily => ?_,fun family hfamily q hq => ?_,?_,?_⟩,?_⟩
  · by_cases heq : family = edge.family
    · rw [heq]
      dsimp only
      rw [Buffer.set_self]
      omega
    · dsimp only
      rw [Buffer.set_of_ne _ _ heq]
      exact h.frontier family hfamily
  · dsimp only at hq ⊢
    by_cases heq : family = edge.family
    · rw [heq,hreached] at hq
      cases hq
      rw [heq,Buffer.set_self]
    · rw [hkept family heq] at hq
      rw [Buffer.set_of_ne _ _ heq]
      exact h.selected family hfamily q hq
  · have hchange := sum_change hedge.family_lt
      (f := reachedRate hulls (a.frontiers.set edge.family (a.frontiers edge.family + 1)))
      (g := reachedRate hulls a.frontiers)
      fun family hne => by
        unfold reachedRate
        rw [hkept family hne]
    have hnew : reachedRate hulls (a.frontiers.set edge.family (a.frontiers edge.family + 1))
        edge.family = edge.point.rate := by
      unfold reachedRate
      rw [hreached]
      rfl
    have hold : reachedRate hulls a.frontiers edge.family = p.rate := by
      unfold reachedRate reached
      rw [hp]
      rfl
    have hused := h.used_eq
    dsimp only
    omega
  · have := hedge.fits
    have := h.used_le
    dsimp only
    omega
  · have hchange := sum_change hedge.family_lt
      (f := fun family => (hulls.getD family []).length -
        a.frontiers.set edge.family (a.frontiers edge.family + 1) family)
      (g := fun family => (hulls.getD family []).length - a.frontiers family)
      fun family hne => by rw [Buffer.set_of_ne _ _ hne]
    rw [Buffer.set_self] at hchange
    unfold untaken
    omega

/-- Run lemma: the loop comes to an end within the budget. -/
theorem allocateLoop_returns (hrising : Rising hulls) (h64 : byteBudget < 2 ^ 64) {turns : ℕ}
    (h : Allocated hulls byteBudget a) (hturns : untaken hulls a.frontiers < turns) :
    ∃ a', allocateLoop A hulls byteBudget turns a = .ok (some a') ∧
      Allocated hulls byteBudget a' := by
  induction turns generalizing a with
  | zero => exact absurd hturns (Nat.not_lt_zero _)
  | succ turns ih =>
      obtain ⟨best,hbest⟩ := @exists_bestFittingEdge _ _ A _ a.frontiers
        (byteBudget - a.used) hrising
      unfold allocateLoop
      rw [hbest]
      cases best with
      | none => exact ⟨a,rfl,h⟩
      | some edge =>
          obtain ⟨hnext,hless⟩ := h.take (bestFittingEdge_ok hbest edge rfl)
          have hle := hnext.used_le
          dsimp only at hle ⊢
          rw [if_neg (by omega)]
          exact ih hnext (by dsimp only; omega)

/-! ## From the cheapest points on -/

omit [LinearOrder F] in
theorem sum_getD (g : List (HtCandidatePoint F) → ℕ) (hulls : List (List (HtCandidatePoint F))) :
    ∑ family ∈ Finset.range hulls.length, g (hulls.getD family []) = (hulls.map g).sum := by
  induction hulls with
  | nil => rfl
  | cons hull hulls ih =>
      rw [List.length_cons,Finset.sum_range_succ',List.map_cons,List.sum_cons,← ih,Nat.add_comm]
      rfl

omit [LinearOrder F] in
theorem cheapest_ok {firsts : List (HtCandidatePoint F)}
    (hfirsts : List.Forall₂ (fun hull p => hull.head? = some p) hulls firsts) (used : ℕ)
    (h : used + (firsts.map (·.rate)).sum < 2 ^ 64) :
    cheapest hulls used = .ok (used + (firsts.map (·.rate)).sum,firsts.map selection) := by
  induction hfirsts generalizing used with
  | nil => rfl
  | cons hhead _ ih =>
      rw [List.map_cons,List.sum_cons] at h ⊢
      unfold cheapest
      rw [hhead]
      dsimp only
      rw [if_neg (by omega),ih _ (by omega)]
      simp only [ok_bind,Nat.add_assoc,List.map_cons]

omit [LinearOrder F] in
theorem allocated_cheapest {firsts : List (HtCandidatePoint F)}
    (hfirsts : List.Forall₂ (fun hull p => hull.head? = some p) hulls firsts)
    (hbudget : (firsts.map (·.rate)).sum ≤ byteBudget) :
    Allocated hulls byteBudget ⟨(firsts.map (·.rate)).sum,
      fun family => (firsts.map selection).getD family ⟨0,0⟩,fun _ => 1⟩ := by
  have hget : ∀ family < hulls.length, ∃ p, firsts[family]? = some p ∧
      (hulls.getD family []).head? = some p := fun family hfamily => by
    have hlt : family < firsts.length := by rwa [← hfirsts.length_eq]
    refine ⟨firsts[family],List.getElem?_eq_getElem hlt,?_⟩
    rw [List.getD_eq_getElem _ _ hfamily]
    exact List.Forall₂.get hfirsts hfamily hlt
  refine ⟨fun family hfamily => ⟨Nat.one_pos,?_⟩,fun family hfamily p hp => ?_,?_,hbudget⟩
  · obtain ⟨p,-,hp⟩ := hget family hfamily
    exact List.length_pos_of_mem (List.mem_of_head? hp)
  · obtain ⟨q,hq,hhead⟩ := hget family hfamily
    have hfirst : reached hulls (fun _ => 1) family = some q := by
      rw [← hhead,List.head?_eq_getElem?]
      rfl
    have hsame : some p = some q := hp.symm.trans hfirst
    cases hsame
    dsimp only
    rw [List.getD_eq_getElem?_getD,List.getElem?_map,hq]
    rfl
  · have hrates : firsts.map (·.rate) =
        hulls.map fun hull => ((hull[0]?).map (·.rate)).getD 0 := by
      refine map_eq_of_forall₂ (hfirsts.imp fun hull p hp => ?_)
      rw [← List.head?_eq_getElem?,hp]
      rfl
    dsimp only
    rw [hrates,← sum_getD]
    rfl

theorem allocateHullPoints_ok (hrising : Rising hulls) (h64 : byteBudget < 2 ^ 64)
    {firsts : List (HtCandidatePoint F)}
    (hfirsts : List.Forall₂ (fun hull p => hull.head? = some p) hulls firsts)
    (hbudget : (firsts.map (·.rate)).sum ≤ byteBudget) :
    ∃ chosen, List.Forall₂ (fun hull p => p ∈ hull) hulls chosen ∧
      allocateHullPoints A hulls byteBudget = .ok (some (chosen.map selection)) ∧
      (chosen.map (·.rate)).sum ≤ byteBudget := by
  have huntaken : untaken hulls (fun _ => 1) ≤ hulls.flatten.length := by
    rw [List.length_flatten,← sum_getD List.length]
    exact Finset.sum_le_sum fun family _ => Nat.sub_le _ _
  obtain ⟨a,hloop,ha⟩ := allocateLoop_returns (A := A) hrising h64
    (allocated_cheapest hfirsts hbudget) (Nat.lt_succ_of_le huntaken)
  obtain ⟨chosen,hchosen⟩ := exists_forall₂
    (R := fun family p => reached hulls a.frontiers family = some p)
    (List.range hulls.length) fun family hfamily => by
      have := ha.frontier family (List.mem_range.mp hfamily)
      exact ⟨_,List.getElem?_eq_getElem (by omega)⟩
  have hhulls : (List.range hulls.length).map (fun family => hulls.getD family []) = hulls := by
    refine List.ext_getElem (by simp) fun family h₁ h₂ => ?_
    rw [List.getElem_map,List.getElem_range,List.getD_eq_getElem _ _ h₂]
  have hselections : chosen.map selection = (List.range hulls.length).map a.selections :=
    map_eq_of_forall₂ (List.forall₂_iff_get.mpr ⟨hchosen.length_eq,fun i h₁ h₂ => by
      have hp := hchosen.get h₁ h₂
      have hlt : (List.range hulls.length).get ⟨i,h₁⟩ < hulls.length :=
        List.mem_range.mp (List.get_mem _ _)
      exact (ha.selected _ hlt _ hp).symm⟩)
  have hrates : chosen.map (·.rate) =
      (List.range hulls.length).map (reachedRate hulls a.frontiers) :=
    map_eq_of_forall₂ (hchosen.imp fun family p hp => by
      unfold reachedRate
      rw [hp]
      rfl)
  refine ⟨chosen,?_,?_,?_⟩
  · rw [← hhulls,List.forall₂_map_left_iff]
    exact hchosen.imp fun family p hp => List.mem_of_getElem? hp
  · unfold allocateHullPoints
    rw [cheapest_ok hfirsts 0 (by omega),Nat.zero_add]
    simp only [ok_bind]
    rw [hloop,ok_bind,hselections]
    rfl
  · have hused := ha.used_le
    rw [ha.used_eq] at hused
    rw [hrates]
    exact hused

end

/-! ## Families that the encoder forms -/

/-- Lengths are 32 bits wide, an array holds three gains, and none of these is refused. -/
structure WellFormed (A : DistortionArithmetic F) (candidate : EncodedCodeBlock F) : Prop where
  passes : candidate.numCodingPasses ≤ 3
  deltas : candidate.htDistortionDeltas.length = 3
  rates : ∀ pass, passRate candidate pass < 2 ^ 32
  valid : ∀ delta ∈ candidate.htDistortionDeltas, A.valid delta = true

omit [LinearOrder F] in
theorem passPoints_ok {candidate : EncodedCodeBlock F} (h : WellFormed A candidate) (index : ℕ) :
    ∀ (n pass rate : ℕ) (distortion : F), pass + n ≤ 3 → rate + n * 2 ^ 32 < 2 ^ 64 →
      ∃ points, passPoints A candidate index n pass rate distortion = .ok points ∧
        points.length = n := by
  intro n
  induction n with
  | zero => exact fun _ _ _ _ _ => ⟨[],rfl,rfl⟩
  | succ n ih =>
      intro pass rate distortion hpass hrate
      have hlt : pass < candidate.htDistortionDeltas.length := by
        rw [h.deltas]
        omega
      have := h.rates pass
      obtain ⟨points,hpoints,hlength⟩ := ih (pass + 1) (rate + passRate candidate pass)
        (A.add distortion candidate.htDistortionDeltas[pass]) (by omega) (by omega)
      refine ⟨⟨index,pass + 1,rate + passRate candidate pass,
        A.add distortion candidate.htDistortionDeltas[pass]⟩ :: points,?_,
        congrArg (· + 1) hlength⟩
      unfold passPoints
      rw [if_neg (by omega),List.getElem?_eq_getElem hlt]
      dsimp only
      rw [if_pos (h.valid _ (List.getElem_mem hlt)),hpoints]
      rfl

omit [LinearOrder F] in
theorem candidatePoints_ok {candidates : List (EncodedCodeBlock F)} (hne : candidates ≠ [])
    (h : ∀ candidate ∈ candidates, WellFormed A candidate) (index : ℕ) :
    ∃ points, candidatePoints A index candidates = .ok points ∧ points ≠ [] := by
  induction candidates generalizing index with
  | nil => exact absurd rfl hne
  | cons candidate candidates ih =>
      have hcandidate := h candidate List.mem_cons_self
      obtain ⟨own,hown,hpos⟩ : ∃ own, ownPoints A candidate index = .ok own ∧ own ≠ [] := by
        unfold ownPoints
        split_ifs with hzero
        · exact ⟨_,rfl,List.cons_ne_nil _ _⟩
        · have := hcandidate.passes
          obtain ⟨points,hpoints,hlength⟩ := passPoints_ok hcandidate index
            candidate.numCodingPasses 0 0 A.zero (by omega) (by omega)
          exact ⟨points,hpoints,fun hnil => hzero (by rw [← hlength,hnil]; rfl)⟩
      obtain ⟨rest,hrest⟩ : ∃ rest, candidatePoints A (index + 1) candidates = .ok rest := by
        by_cases hnil : candidates = []
        · exact ⟨[],by rw [hnil]; rfl⟩
        · obtain ⟨rest,hrest,-⟩ := ih hnil (fun c hc => h c (List.mem_cons_of_mem _ hc)) (index + 1)
          exact ⟨rest,hrest⟩
      refine ⟨own ++ rest,?_,fun hnil => hpos (List.append_eq_nil_iff.mp hnil).1⟩
      unfold candidatePoints
      rw [hown,ok_bind,hrest]
      rfl

/-- The points of the family that a range names. -/
def IsFamily (A : DistortionArithmetic F) (candidates : List (EncodedCodeBlock F))
    (range : HtCandidateRange) (points : List (HtCandidatePoint F)) : Prop :=
  candidatePoints A range.start ((candidates.drop range.start).take range.len) = .ok points

/-- The hull that is built for a range. -/
def IsFamilyHull (A : DistortionArithmetic F) (candidates : List (EncodedCodeBlock F))
    (range : HtCandidateRange) (hull : List (HtCandidatePoint F)) : Prop :=
  (do let family ← candidateFamily candidates range
      candidateHull A family range.start) = .ok hull

variable {candidates : List (EncodedCodeBlock F)}

theorem familyHull_ok (h : ∀ candidate ∈ candidates, WellFormed A candidate)
    (h64 : candidates.length * 3 < 2 ^ 64) {range : HtCandidateRange} (hpos : 0 < range.len)
    (hend : range.start + range.len ≤ candidates.length) :
    ∃ points, IsFamily A candidates range points ∧ points ≠ [] ∧
      IsFamilyHull A candidates range (hullOfPoints A points) := by
  have hlength : ((candidates.drop range.start).take range.len).length = range.len := by
    rw [List.length_take,List.length_drop]
    omega
  have hne : (candidates.drop range.start).take range.len ≠ [] := by
    rw [← List.length_pos_iff_ne_nil]
    omega
  obtain ⟨points,hpoints,hpointsne⟩ := candidatePoints_ok hne
    (fun c hc => h c (List.mem_of_mem_drop (List.mem_of_mem_take hc))) range.start
  refine ⟨points,hpoints,hpointsne,?_⟩
  unfold IsFamilyHull candidateFamily candidateHull
  rw [if_neg (by omega),if_neg (by omega)]
  simp only [ok_bind]
  rw [if_neg (by omega),hpoints]
  rfl

/-! ## The error of the edges -/

theorem familyHull_rising {range : HtCandidateRange} {hull : List (HtCandidatePoint F)}
    (h : IsFamilyHull A candidates range hull) : hull.Pairwise fun a b => a.rate < b.rate := by
  obtain ⟨family,-,h⟩ := bind_eq_ok.mp h
  unfold candidateHull at h
  split_ifs at h
  obtain ⟨points,-,h⟩ := bind_eq_ok.mp h
  cases h
  exact hull_rates points

/-- What the error says is never the case. -/
def notMonotonic : EncodeError :=
  .internalInvariant "HTJ2K tile candidate hull rate is not monotonic"

omit [LinearOrder F] in
theorem passPoints_ne_notMonotonic (candidate : EncodedCodeBlock F) (index : ℕ) :
    ∀ (n pass rate : ℕ) (distortion : F),
      passPoints A candidate index n pass rate distortion ≠ .error notMonotonic := by
  intro n
  induction n with
  | zero => exact fun _ _ _ => nofun
  | succ n ih =>
      intro pass rate distortion
      unfold passPoints
      split_ifs
      · exact nofun
      · split
        · exact fun h => absurd (Except.error.inj h) (by decide)
        · split_ifs
          · exact bind_ne_error (ih _ _ _) fun _ => nofun
          · exact fun h => absurd (Except.error.inj h) (by decide)

omit [LinearOrder F] in
theorem candidatePoints_ne_notMonotonic (index : ℕ) (candidates : List (EncodedCodeBlock F)) :
    candidatePoints A index candidates ≠ .error notMonotonic := by
  induction candidates generalizing index with
  | nil => exact nofun
  | cons candidate candidates ih =>
      have hown : ownPoints A candidate index ≠ .error notMonotonic := by
        unfold ownPoints
        split_ifs
        · exact nofun
        · exact passPoints_ne_notMonotonic _ _ _ _ _ _
      exact bind_ne_error hown fun _ => bind_ne_error (ih _) fun _ => nofun

omit [LinearOrder F] in
theorem candidateFamily_ne_notMonotonic (candidates : List (EncodedCodeBlock F))
    (range : HtCandidateRange) : candidateFamily candidates range ≠ .error notMonotonic := by
  unfold candidateFamily
  split_ifs
  · exact nofun
  · exact fun h => absurd (Except.error.inj h) (by decide)
  · exact nofun

theorem candidateHull_ne_notMonotonic (candidates : List (EncodedCodeBlock F)) (offset : ℕ) :
    candidateHull A candidates offset ≠ .error notMonotonic := by
  unfold candidateHull
  split_ifs
  · exact nofun
  · exact bind_ne_error (candidatePoints_ne_notMonotonic _ _) fun _ => nofun

theorem allocateLoop_ne_notMonotonic {hulls : List (List (HtCandidatePoint F))}
    (hrising : Rising hulls) (byteBudget turns : ℕ) (a : Allocation) :
    allocateLoop A hulls byteBudget turns a ≠ .error notMonotonic := by
  induction turns generalizing a with
  | zero => exact nofun
  | succ turns ih =>
      obtain ⟨best,hbest⟩ := @exists_bestFittingEdge _ _ A _ a.frontiers
        (byteBudget - a.used) hrising
      unfold allocateLoop
      rw [hbest]
      cases best with
      | none => exact nofun
      | some edge =>
          dsimp only
          split_ifs
          · exact nofun
          · exact ih _

omit [LinearOrder F] in
theorem cheapest_ne_notMonotonic (hulls : List (List (HtCandidatePoint F))) (used : ℕ) :
    cheapest hulls used ≠ .error notMonotonic := by
  induction hulls generalizing used with
  | nil => exact nofun
  | cons hull hulls ih =>
      unfold cheapest
      split
      · exact fun h => absurd (Except.error.inj h) (by decide)
      · split_ifs
        · exact nofun
        · exact bind_ne_error (ih _) fun _ => nofun

end

end J2kNative.TileCandidates
