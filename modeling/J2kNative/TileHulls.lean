import J2kNative.TileCandidates
import J2kNative.UpperHull
import Mathlib.Data.Int.Log
import Mathlib.Data.Rat.Cast.Order
import Mathlib.Data.Rat.Floor

/-!
# The hulls of a tile in exact arithmetic

With the rounding of the gains left out, a hull has all the points of its family on or under
its edges and none above its end. The selection of a tile is then put together.
-/
namespace J2kNative.TileCandidates
open CodestreamWriter Fallible UpperHull

universe u
variable {F : Type} [LinearOrder F] {A : DistortionArithmetic F}
variable {K : Type u} [Field K] [LinearOrder K] [IsStrictOrderedRing K]

/-- The operations are those of an ordered field, into which their numbers are read. -/
structure Exact (A : DistortionArithmetic F) (value : F → K) : Prop where
  mono : StrictMono value
  sub : ∀ x y, value (A.sub x y) = value x - value y
  divRate : ∀ x n, value (A.divRate x n) = value x / n
  le : ∀ x y, A.le x y = true ↔ x ≤ y

/-- A point in the plane of bytes and gain. -/
def coordinates (value : F → K) (p : HtCandidatePoint F) : K × K := (p.rate,value p.distortion)

/-- What makes the points kept the upper hull of all. -/
structure Covers (value : F → K) (points hull : List (HtCandidatePoint F)) : Prop where
  edges : ∀ p ∈ points, ∀ l a b r, hull = l ++ a :: b :: r →
    Under (coordinates value a) (coordinates value b) (coordinates value p)
  last : ∀ p ∈ points, ∀ q ∈ hull.getLast?, value p.distortion ≤ value q.distortion

variable {value : F → K}

omit [IsStrictOrderedRing K] in
theorem Exact.edgeSlope (h : Exact A value) {a b : HtCandidatePoint F} (hlt : a.rate < b.rate) :
    value (edgeSlope A a b) = UpperHull.slope (coordinates value a) (coordinates value b) := by
  unfold TileCandidates.edgeSlope UpperHull.slope coordinates
  rw [if_neg (by omega),h.divRate,h.sub,Nat.cast_sub hlt.le]

/-! ## Pushes in the plane -/

omit [IsStrictOrderedRing K] in
theorem Exact.pushPoint (h : Exact A value) {point : HtCandidatePoint F}
    {hull : List (HtCandidatePoint F)}
    (hfalls : (point :: hull).Pairwise fun a b => b.rate < a.rate) :
    (pushPoint A point hull).map (coordinates value) =
      push (coordinates value point) (hull.map (coordinates value)) := by
  induction hull using pushPoint.induct A point with
  | case1 middle left hull hlt =>
      obtain ⟨hpoint,hfalls⟩ := List.pairwise_cons.mp hfalls
      have hmiddle := hpoint middle List.mem_cons_self
      have hleft := (List.pairwise_cons.mp hfalls).1 left List.mem_cons_self
      have hslope := h.mono hlt
      rw [h.edgeSlope hmiddle,h.edgeSlope hleft] at hslope
      unfold TileCandidates.pushPoint
      rw [if_pos hlt]
      simp only [List.map_cons]
      rw [push,if_pos hslope]
  | case2 middle left hull hlt ih =>
      obtain ⟨hpoint,hrest⟩ := List.pairwise_cons.mp hfalls
      have hmiddle := hpoint middle List.mem_cons_self
      have hleft := (List.pairwise_cons.mp hrest).1 left List.mem_cons_self
      have hslope := h.mono.monotone (not_lt.mp hlt)
      rw [h.edgeSlope hmiddle,h.edgeSlope hleft] at hslope
      unfold TileCandidates.pushPoint
      rw [if_neg hlt,ih (hfalls.sublist ((List.sublist_cons_self middle _).cons_cons point))]
      simp only [List.map_cons]
      rw [push,if_neg (not_lt.mpr hslope)]
  | case3 hull hshort =>
      rcases hull with _ | ⟨middle,_ | ⟨left,hull⟩⟩
      · rfl
      · rfl
      · exact absurd rfl (hshort middle left hull)

omit [IsStrictOrderedRing K] in
theorem Exact.pushAll (h : Exact A value) {points hull : List (HtCandidatePoint F)}
    (hfalls : (points.reverse ++ hull).Pairwise fun a b => b.rate < a.rate) :
    (points.foldl (fun hull point => TileCandidates.pushPoint A point hull) hull).map
        (coordinates value) =
      (points.map (coordinates value)).foldl (fun stack q => push q stack)
        (hull.map (coordinates value)) := by
  induction points generalizing hull with
  | nil => rfl
  | cons point points ih =>
      rw [List.reverse_cons,List.append_assoc,List.singleton_append] at hfalls
      rw [List.foldl_cons,List.map_cons,List.foldl_cons,
        ← h.pushPoint (hfalls.sublist (List.sublist_append_right _ _))]
      exact ih (hfalls.sublist ((pushPoint_spec point hull).1.append_left _))

/-! ## Points that are not kept -/

omit [IsStrictOrderedRing K] in
/-- Every point has one among those kept that costs no more and gains no less. -/
theorem exists_nondominated (h : Exact A value) (points : List (HtCandidatePoint F))
    (previousRate : Option ℕ) (bestDistortion : Option F)
    (hsorted : points.Pairwise fun a b => pointKey a ≤ pointKey b)
    (hsame : ∀ r ∈ previousRate, ∃ best ∈ bestDistortion, ∀ p ∈ points, p.rate = r →
      p.distortion ≤ best)
    {p : HtCandidatePoint F} (hp : p ∈ points) :
    (∃ q ∈ nondominatedPoints A previousRate bestDistortion points,
      q.rate ≤ p.rate ∧ p.distortion ≤ q.distortion) ∨
    ∃ best ∈ bestDistortion, p.distortion ≤ best := by
  induction points generalizing previousRate bestDistortion with
  | nil => cases hp
  | cons point points ih =>
      obtain ⟨hhead,htail⟩ := List.pairwise_cons.mp hsorted
      have hequal : ∀ q ∈ points, q.rate = point.rate → q.distortion ≤ point.distortion :=
        fun q hq heq => by
          rcases Prod.Lex.le_iff.mp (hhead q hq) with hlt | ⟨-,hle⟩
          · exact absurd heq (ne_of_gt hlt)
          · rcases Prod.Lex.le_iff.mp hle with hlt | ⟨heq',-⟩
            · exact (OrderDual.toDual_lt_toDual.mp hlt).le
            · exact (OrderDual.toDual_inj.mp heq').ge
      unfold nondominatedPoints
      split_ifs with hprevious hbest
      · rcases List.mem_cons.mp hp with rfl | hp
        · obtain ⟨best,hbest,hle⟩ := hsame p.rate hprevious
          exact .inr ⟨best,hbest,hle p List.mem_cons_self rfl⟩
        · exact ih previousRate bestDistortion htail (fun r hr => by
            obtain ⟨best,hbest,hle⟩ := hsame r hr
            exact ⟨best,hbest,fun q hq => hle q (List.mem_cons_of_mem _ hq)⟩) hp
      · obtain ⟨best,hsome,hle⟩ : ∃ best ∈ bestDistortion, point.distortion ≤ best := by
          cases bestDistortion with
          | none => cases hbest
          | some best => exact ⟨best,rfl,(h.le _ _).mp hbest⟩
        rcases List.mem_cons.mp hp with rfl | hp
        · exact .inr ⟨best,hsome,hle⟩
        · refine ih (some point.rate) bestDistortion htail (fun r hr => ?_) hp
          cases hr
          exact ⟨best,hsome,fun q hq heq => (hequal q hq heq).trans hle⟩
      · rcases List.mem_cons.mp hp with rfl | hp
        · exact .inl ⟨p,List.mem_cons_self,le_rfl,le_rfl⟩
        · rcases ih (some point.rate) (some point.distortion) htail (fun r hr => by
            cases hr
            exact ⟨_,rfl,hequal⟩) hp with ⟨q,hq,hle⟩ | ⟨best,hbest,hle⟩
          · exact .inl ⟨q,List.mem_cons_of_mem _ hq,hle⟩
          · cases hbest
            rcases Prod.Lex.le_iff.mp (hhead p hp) with hlt | ⟨heq,-⟩
            · exact .inl ⟨point,List.mem_cons_self,le_of_lt hlt,hle⟩
            · exact .inl ⟨point,List.mem_cons_self,le_of_eq heq,hle⟩

omit [IsStrictOrderedRing K] in
/-- The points kept gain more and more. -/
theorem nondominated_gains (h : Exact A value) (points : List (HtCandidatePoint F))
    (previousRate : Option ℕ) (bestDistortion : Option F) :
    (nondominatedPoints A previousRate bestDistortion points).Pairwise
        (fun a b => a.distortion < b.distortion) ∧
      ∀ best ∈ bestDistortion, ∀ p ∈ nondominatedPoints A previousRate bestDistortion points,
        best < p.distortion := by
  induction points generalizing previousRate bestDistortion with
  | nil => exact ⟨.nil,fun _ _ _ hp => absurd hp List.not_mem_nil⟩
  | cons point points ih =>
      unfold nondominatedPoints
      split_ifs with hprevious hbest
      · exact ih previousRate bestDistortion
      · exact ih (some point.rate) bestDistortion
      · obtain ⟨hpairs,hlt⟩ := ih (some point.rate) (some point.distortion)
        refine ⟨List.pairwise_cons.mpr ⟨hlt _ rfl,hpairs⟩,fun best hsome p hp => ?_⟩
        have hfirst : best < point.distortion := not_le.mp fun hle => hbest (by
          rw [Option.mem_def.mp hsome]
          exact (h.le _ _).mpr hle)
        rcases List.mem_cons.mp hp with rfl | hp
        · exact hfirst
        · exact hfirst.trans (hlt _ rfl p hp)

theorem gain_lt {kept : List (HtCandidatePoint F)} (hrates : kept.Pairwise fun a b => a.rate < b.rate)
    (hgains : kept.Pairwise fun a b => a.distortion < b.distortion) {p q : HtCandidatePoint F}
    (hp : p ∈ kept) (hq : q ∈ kept) (hlt : p.rate < q.rate) : p.distortion < q.distortion := by
  obtain ⟨i,hi,rfl⟩ := List.getElem_of_mem hp
  obtain ⟨j,hj,rfl⟩ := List.getElem_of_mem hq
  rcases lt_trichotomy i j with hij | rfl | hji
  · exact List.pairwise_iff_getElem.mp hgains i j hi hj hij
  · exact absurd hlt (lt_irrefl _)
  · exact absurd (List.pairwise_iff_getElem.mp hrates j i hj hi hji) hlt.asymm

/-- A point that costs more and gains less than one under a rising line is under it too. -/
theorem under_dominated {a b p q : K × K} (h : Under a b q) (hab : a.1 < b.1) (hrise : a.2 ≤ b.2)
    (hcost : q.1 ≤ p.1) (hgain : p.2 ≤ q.2) : Under a b p := by
  have hslope : 0 ≤ UpperHull.slope a b := div_nonneg (sub_nonneg.mpr hrise) (sub_nonneg.mpr hab.le)
  have hmul := mul_le_mul_of_nonneg_left (sub_le_sub_right hcost a.1) hslope
  exact hgain.trans (le_trans h (add_le_add_right hmul _))

theorem covers_of_points (h : Exact A value) (points : List (HtCandidatePoint F)) :
    Covers value points (hullOfPoints A points) := by
  have hsorted : (sortPoints points).Pairwise fun a b => pointKey a ≤ pointKey b := by
    have : Std.Total fun left right : HtCandidatePoint F => pointKey left ≤ pointKey right :=
      ⟨fun left right => le_total (pointKey left) (pointKey right)⟩
    have : IsTrans (HtCandidatePoint F) fun left right => pointKey left ≤ pointKey right :=
      ⟨fun _ _ _ => le_trans⟩
    exact List.pairwise_insertionSort _ points
  have hmem : ∀ p ∈ points, p ∈ sortPoints points := fun p hp =>
    (List.perm_insertionSort _ points).mem_iff.mpr hp
  set kept := nondominatedPoints A none none (sortPoints points) with hkept
  have hrates : kept.Pairwise fun a b => a.rate < b.rate :=
    (nondominatedPoints_spec (sortPoints points) none none (sortPoints_rates points) nofun).2.1
  have hgains : kept.Pairwise fun a b => a.distortion < b.distortion :=
    (nondominated_gains h (sortPoints points) none none).1
  have hplane := @Exact.pushAll _ _ _ _ _ _ _ h kept [] (by
    rw [List.append_nil,List.pairwise_reverse]
    exact hrates)
  have hpushed : ∀ q ∈ kept, Pushed ((kept.foldl (fun hull point => pushPoint A point hull) []).map
      (coordinates value)) (coordinates value q) := fun q hq => by
    rw [hplane]
    refine pushed_foldl trivial .nil ?_ (fun _ _ _ hb => absurd hb List.not_mem_nil)
      (.inr (List.mem_map_of_mem hq))
    exact List.pairwise_map.mpr (hrates.imp fun hlt => Nat.cast_lt.mpr hlt)
  have hsub := (pushAll_spec (A := A) kept [] trivial).2.1
  rw [List.append_nil] at hsub
  have hforward := List.reverse_sublist.mpr hsub
  rw [List.reverse_reverse] at hforward
  constructor
  · intro p hp l a b r heq
    obtain ⟨q,hq,hcost,hgain⟩ :=
      (exists_nondominated h _ none none hsorted nofun (hmem p hp)).resolve_right nofun
    have hreversed : kept.foldl (fun hull point => pushPoint A point hull) [] =
        r.reverse ++ b :: a :: l.reverse := by
      unfold hullOfPoints at heq
      rw [← List.reverse_reverse (List.foldl _ _ _),heq]
      simp
    have hpair : (hullOfPoints A points).Pairwise _ := hrates.sublist hforward
    have hpair' : (hullOfPoints A points).Pairwise _ := hgains.sublist hforward
    rw [heq] at hpair hpair'
    have hab := (List.pairwise_cons.mp (List.pairwise_append.mp hpair).2.1).1 b List.mem_cons_self
    have hab' := (List.pairwise_cons.mp (List.pairwise_append.mp hpair').2.1).1 b List.mem_cons_self
    have hunder := (hpushed q hq).covered.edge (l := r.reverse.map (coordinates value))
      (r := l.reverse.map (coordinates value)) (by rw [hreversed,List.map_append]; rfl)
    exact under_dominated hunder (Nat.cast_lt.mpr hab) (h.mono hab').le (Nat.cast_le.mpr hcost)
      (h.mono.monotone hgain)
  · intro p hp last hlast
    obtain ⟨q,hq,-,hgain⟩ :=
      (exists_nondominated h _ none none hsorted nofun (hmem p hp)).resolve_right nofun
    unfold hullOfPoints at hlast
    rw [List.getLast?_reverse] at hlast
    obtain ⟨b,hb,hqb⟩ := (hpushed q hq).top
    rw [List.head?_map,Option.mem_def.mp hlast] at hb
    cases hb
    refine (h.mono.monotone hgain).trans ?_
    rcases hqb with hlt | heq
    · have hlt : q.rate < last.rate := Nat.cast_lt.mp hlt
      have hlastmem : last ∈ kept := by
        have := hsub.subset (List.mem_of_head? hlast)
        rwa [List.mem_reverse] at this
      exact (h.mono (gain_lt hrates hgains hq hlastmem hlt)).le
    · exact (congrArg Prod.snd heq).le

/-! ## The selection -/

theorem exists_firsts {families hulls : List (List (HtCandidatePoint F))}
    (hhulls : List.Forall₂ (IsHull A) families hulls) {cheapest : List (HtCandidatePoint F)}
    (hcheapest : List.Forall₂ (fun points p => p ∈ points ∧ ∀ q ∈ points, p.rate ≤ q.rate)
      families cheapest) :
    ∃ firsts, List.Forall₂ (fun hull p => hull.head? = some p) hulls firsts ∧
      firsts.map (·.rate) = cheapest.map (·.rate) := by
  induction hhulls generalizing cheapest with
  | nil =>
      cases hcheapest
      exact ⟨[],.nil,rfl⟩
  | cons hhull _ ih =>
      cases hcheapest with
      | cons hp hrest =>
          obtain ⟨firsts,hfirsts,hrates⟩ := ih hrest
          obtain ⟨first,hhead,hleast⟩ := hhull.first
          have hmem := hhull.mem first (List.mem_of_head? hhead)
          refine ⟨first :: firsts,.cons hhead hfirsts,?_⟩
          rw [List.map_cons,List.map_cons,hrates,
            le_antisymm (hleast _ hp.1) (hp.2 first hmem)]

theorem select_ne_notMonotonic (candidates : List (EncodedCodeBlock F))
    (ranges : List HtCandidateRange) (byteBudget : ℕ) :
    selectTileCodeBlockCandidates A candidates ranges byteBudget ≠ .error notMonotonic := by
  have hall : candidateHulls A candidates ranges ≠ .error notMonotonic :=
    mapM_ne_error (fun range => bind_ne_error (candidateFamily_ne_notMonotonic _ _)
      fun family => candidateHull_ne_notMonotonic _ _) ranges
  unfold selectTileCodeBlockCandidates
  split_ifs
  · exact nofun
  cases hhulls : candidateHulls A candidates ranges with
  | error e =>
      exact fun h => hall (hhulls.trans (congrArg Except.error (Except.error.inj h)))
  | ok hulls =>
      have hrising : Rising hulls := fun hull hhull => by
        obtain ⟨range,-,hrange⟩ := exists_related (mapM_forall₂ hhulls) hhull
        exact familyHull_rising hrange
      rw [ok_bind]
      exact bind_ne_error (cheapest_ne_notMonotonic _ _) fun start =>
        bind_ne_error (allocateLoop_ne_notMonotonic hrising _ _ _) fun _ => nofun

/-- Rational gains, which are not rounded; the last number stands for infinity. -/
def rationalGains : DistortionArithmetic ℚ where
  zero := 0
  infinity := 2 ^ 1024
  add := (· + ·)
  sub := (· - ·)
  divRate gain rate := gain / rate
  valid gain := decide (0 ≤ gain)
  le left right := decide (left ≤ right)

theorem exact_rationalGains : Exact rationalGains (id : ℚ → ℚ) where
  mono := strictMono_id
  sub _ _ := rfl
  divRate _ _ := rfl
  le _ _ := decide_eq_true_iff

def twoFamilies : List (EncodedCodeBlock ℚ) :=
  [⟨3,10,10,10,[100,10,90]⟩,⟨1,40,0,0,[310,0,0]⟩,⟨2,5,5,0,[50,20,0]⟩]

/-- The nearest whole number, of two the even one. -/
def roundEven (x : ℚ) : ℤ :=
  if x - ⌊x⌋ < 1 / 2 then ⌊x⌋
  else if 1 / 2 < x - ⌊x⌋ then ⌊x⌋ + 1
  else if ⌊x⌋ % 2 = 0 then ⌊x⌋ else ⌊x⌋ + 1

/-- The nearest double-precision number, of 53 binary digits; below the normal ones they keep
the unit of the least of them. What is out of their range stays as it is. -/
def roundBinary64 (x : ℚ) : ℚ :=
  let unit : ℚ := 2 ^ (max (Int.log 2 |x|) (-1022) - 52)
  roundEven (x / unit) * unit

/-- Gains of double precision, every operation of which rounds; the last number stands for
infinity. A rate is exact as a double-precision number. -/
def binary64Gains : DistortionArithmetic ℚ where
  zero := 0
  infinity := 2 ^ 1024
  add left right := roundBinary64 (left + right)
  sub left right := roundBinary64 (left - right)
  divRate gain rate := roundBinary64 (gain / rate)
  valid gain := decide (0 ≤ gain)
  le left right := decide (left ≤ right)

/-- The gains 1.8 and 9.9 as double-precision numbers. -/
def roundedFamily : List (EncodedCodeBlock ℚ) :=
  [⟨2,1,2,0,[0,roundBinary64 (18 / 10),0]⟩,⟨1,12,0,0,[roundBinary64 (99 / 10),0,0]⟩]

end J2kNative.TileCandidates
