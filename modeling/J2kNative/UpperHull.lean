import Mathlib.Algebra.Order.Field.Basic
import Mathlib.Data.List.Basic
import Mathlib.Tactic.LinearCombination
import Mathlib.Tactic.Linarith
import Mathlib.Tactic.Ring

/-!
# Upper hulls of points in the plane

Points of rising abscissa are pushed onto a stack, from which those are popped first that do
not turn down. Every point ever pushed then lies on or under the line of every edge left.
-/
namespace J2kNative.UpperHull

universe u
variable {K : Type u} [Field K] [LinearOrder K]

def slope (p q : K × K) : K := (q.2 - p.2) / (q.1 - p.1)

/-- The point is not above the line through two points. -/
def Under (a b p : K × K) : Prop := p.2 ≤ a.2 + slope a b * (p.1 - a.1)

/-- One point onto the stack, whose first entry is its top. -/
def push (x : K × K) : List (K × K) → List (K × K)
  | m :: l :: stack => if slope m x < slope l m then x :: m :: l :: stack else push x (l :: stack)
  | stack => x :: stack

/-- Further down every edge is steeper. -/
def Steepens : List (K × K) → Prop
  | x :: m :: l :: stack => slope m x < slope l m ∧ Steepens (m :: l :: stack)
  | _ => True

/-- The abscissas fall. -/
def Falls (stack : List (K × K)) : Prop := stack.Pairwise fun p q => q.1 < p.1

/-- The point is not above the line of any edge. -/
def Covered : List (K × K) → K × K → Prop
  | b :: a :: stack, p => Under a b p ∧ Covered (a :: stack) p
  | _, _ => True

theorem Steepens.tail {x : K × K} {stack : List (K × K)} (h : Steepens (x :: stack)) :
    Steepens stack := by
  match stack, h with
  | [], _ => exact trivial
  | [_], _ => exact trivial
  | _ :: _ :: _, h => exact h.2

theorem Covered.edge {stack l r : List (K × K)} {a b p : K × K} (h : Covered stack p)
    (heq : stack = l ++ b :: a :: r) : Under a b p := by
  induction l generalizing stack with
  | nil =>
      rw [heq] at h
      exact h.1
  | cons c l ih =>
      rw [heq] at h
      cases l with
      | nil => exact ih h.2 rfl
      | cons d l => exact ih h.2 rfl

/-! ## Pushes -/

theorem push_spec (x : K × K) (stack : List (K × K)) :
    (push x stack).Sublist (x :: stack) ∧ (push x stack).head? = some x ∧
      (stack ≠ [] → (push x stack).getLast? = stack.getLast?) := by
  induction stack using push.induct x with
  | case1 m l stack hlt =>
      unfold push
      rw [if_pos hlt]
      exact ⟨.refl _,rfl,fun _ => List.getLast?_cons_cons⟩
  | case2 m l stack hlt ih =>
      unfold push
      rw [if_neg hlt]
      refine ⟨ih.1.trans ((List.sublist_cons_self m (l :: stack)).cons_cons x),ih.2.1,fun _ => ?_⟩
      rw [ih.2.2 (List.cons_ne_nil _ _),List.getLast?_cons_cons]
  | case3 stack hshort =>
      match stack, hshort with
      | [], _ => exact ⟨.refl _,rfl,fun hne => absurd rfl hne⟩
      | [_], _ => exact ⟨.refl _,rfl,fun _ => List.getLast?_cons_cons⟩
      | m :: l :: stack, hshort => exact absurd rfl (hshort m l stack)

theorem Steepens.push {x : K × K} {stack : List (K × K)} (h : Steepens stack) :
    Steepens (push x stack) := by
  induction stack using push.induct x with
  | case1 m l stack hlt =>
      unfold UpperHull.push
      rw [if_pos hlt]
      exact ⟨hlt,h⟩
  | case2 m l stack hlt ih =>
      unfold UpperHull.push
      rw [if_neg hlt]
      exact ih h.tail
  | case3 stack hshort =>
      match stack, hshort with
      | [], _ => exact trivial
      | [_], _ => exact trivial
      | m :: l :: stack, hshort => exact absurd rfl (hshort m l stack)

/-! ## Lines -/

section
variable {l m x p : K × K}

theorem slope_mul (h : l.1 < m.1) : slope l m * (m.1 - l.1) = m.2 - l.2 :=
  div_mul_cancel₀ _ (sub_ne_zero.mpr h.ne')

/-- A line may be read from its right point. -/
theorem under_right (h : l.1 < m.1) : Under l m p ↔ p.2 ≤ m.2 + slope l m * (p.1 - m.1) := by
  have := slope_mul h
  have : l.2 + slope l m * (p.1 - l.1) = m.2 + slope l m * (p.1 - m.1) := by linear_combination this
  rw [Under,this]

theorem under_self (l x : K × K) : Under l x l := by
  rw [Under,sub_self,mul_zero,add_zero]

theorem under_end (h : l.1 < x.1) : Under l x x := by
  rw [under_right h,sub_self,mul_zero,add_zero]

variable [IsStrictOrderedRing K]

/-- Left of where a flatter edge starts its line is the higher one. -/
theorem Under.flatter (h : Under l m p) (hlm : l.1 < m.1) (hslope : slope m x ≤ slope l m)
    (hp : p.1 ≤ m.1) : Under m x p := by
  have hmul := mul_le_mul_of_nonpos_right hslope (sub_nonpos.mpr hp)
  exact ((under_right hlm).mp h).trans (add_le_add_right hmul _)

/-- Right of where it ends the line of a steeper edge is the higher one. -/
theorem Under.steeper (h : Under m x p) (hlm : l.1 < m.1) (hslope : slope m x ≤ slope l m)
    (hp : m.1 ≤ p.1) : Under l m p := by
  have hmul := mul_le_mul_of_nonneg_right hslope (sub_nonneg.mpr hp)
  exact (under_right hlm).mpr (h.trans (add_le_add_right hmul _))

/-- Without a point that does not turn down the edge over it runs between the two slopes. -/
theorem slope_between (hlm : l.1 < m.1) (hmx : m.1 < x.1) (h : slope l m ≤ slope m x) :
    slope l m ≤ slope l x ∧ slope l x ≤ slope m x := by
  have hlx := slope_mul (hlm.trans hmx)
  have hleft := slope_mul hlm
  have hright := slope_mul hmx
  have hpos : 0 < x.1 - l.1 := sub_pos.mpr (hlm.trans hmx)
  have hmul := mul_le_mul_of_nonneg_right h (sub_pos.mpr hmx).le
  have hmul' := mul_le_mul_of_nonneg_right h (sub_pos.mpr hlm).le
  constructor
  · refine le_of_mul_le_mul_right ?_ hpos
    linarith [mul_sub (slope l m) x.1 l.1,mul_sub (slope l m) x.1 m.1,mul_sub (slope l m) m.1 l.1]
  · refine le_of_mul_le_mul_right ?_ hpos
    linarith [mul_sub (slope m x) x.1 l.1,mul_sub (slope m x) x.1 m.1,mul_sub (slope m x) m.1 l.1]

/-- Under both edges at a point that does not turn down is under the edge over it. -/
theorem under_over (hlm : l.1 < m.1) (hmx : m.1 < x.1) (h : slope l m ≤ slope m x)
    (hl : l.1 ≤ p.1) (hx : p.1 ≤ x.1) (hleft : Under l m p) (hright : m.1 ≤ p.1 → Under m x p) :
    Under l x p := by
  obtain ⟨hfirst,hsecond⟩ := slope_between hlm hmx h
  rcases le_total p.1 m.1 with hp | hp
  · have hmul := mul_le_mul_of_nonneg_right hfirst (sub_nonneg.mpr hl)
    exact le_trans hleft (add_le_add_right hmul _)
  · have hmul := mul_le_mul_of_nonpos_right hsecond (sub_nonpos.mpr hx)
    have hend := (under_right hmx).mp (hright hp)
    exact (under_right (hlm.trans hmx)).mpr (hend.trans (add_le_add_right hmul _))

/-! ## Covers -/

/-- A point right of the stack under its last edge is under all. -/
theorem covered_of_right {stack : List (K × K)} (hsteep : Steepens stack) (hfalls : Falls stack)
    (hright : ∀ b ∈ stack.head?, b.1 ≤ x.1)
    (hunder : ∀ b a r, stack = b :: a :: r → Under a b x) : Covered stack x := by
  induction stack with
  | nil => exact trivial
  | cons b stack ih =>
      obtain ⟨hb,hfalls⟩ := List.pairwise_cons.mp hfalls
      have hbx := hright b rfl
      cases stack with
      | nil => exact trivial
      | cons a stack =>
          have hab := hb a List.mem_cons_self
          refine ⟨hunder b a stack rfl,ih hsteep.tail hfalls (fun _ ha => ?_) fun b' a' r heq => ?_⟩
          · cases ha
            exact hab.le.trans hbx
          · cases heq
            exact (hunder _ _ _ rfl).steeper ((List.pairwise_cons.mp hfalls).1 _ List.mem_cons_self)
              hsteep.1.le (hab.le.trans hbx)

/-- What is pushed is covered. -/
theorem covered_push_self {stack : List (K × K)} (hsteep : Steepens stack)
    (hfalls : Falls (x :: stack)) : Covered (push x stack) x := by
  induction stack using push.induct x with
  | case1 m l stack hlt =>
      obtain ⟨hx,hfalls⟩ := List.pairwise_cons.mp hfalls
      have hmx := hx m List.mem_cons_self
      have hlm := (List.pairwise_cons.mp hfalls).1 l List.mem_cons_self
      unfold push
      rw [if_pos hlt]
      refine ⟨under_end hmx,covered_of_right hsteep hfalls (fun _ hb => ?_) fun b a r heq => ?_⟩
      · cases hb
        exact hmx.le
      · cases heq
        exact (under_end hmx).steeper hlm hlt.le hmx.le
  | case2 m l stack hlt ih =>
      unfold push
      rw [if_neg hlt]
      exact ih hsteep.tail (hfalls.sublist ((List.sublist_cons_self m (l :: stack)).cons_cons x))
  | case3 stack hshort =>
      match stack, hshort, hfalls with
      | [], _, _ => exact trivial
      | [m], _, hfalls =>
          exact ⟨under_end ((List.pairwise_cons.mp hfalls).1 m List.mem_cons_self),trivial⟩
      | m :: l :: stack, hshort, _ => exact absurd rfl (hshort m l stack)

/-- What was covered remains so. The induction carries that what lies right of the top is under
the edge from there to the new point. -/
theorem Covered.push {stack : List (K × K)} (hfalls : Falls (x :: stack)) (hcovered : Covered stack p)
    (hx : p.1 ≤ x.1) (hfirst : ∀ a ∈ stack.getLast?, a.1 ≤ p.1)
    (htop : ∀ b ∈ stack.head?, b.1 ≤ p.1 → Under b x p) : Covered (push x stack) p := by
  induction stack using push.induct x with
  | case1 m l stack hlt =>
      have hlm := (List.pairwise_cons.mp (List.pairwise_cons.mp hfalls).2).1 l List.mem_cons_self
      unfold UpperHull.push
      rw [if_pos hlt]
      refine ⟨?_,hcovered⟩
      rcases le_total p.1 m.1 with hp | hp
      · exact hcovered.1.flatter hlm hlt.le hp
      · exact htop m rfl hp
  | case2 m l stack hlt ih =>
      have hmx := (List.pairwise_cons.mp hfalls).1 m List.mem_cons_self
      have hlm := (List.pairwise_cons.mp (List.pairwise_cons.mp hfalls).2).1 l List.mem_cons_self
      unfold UpperHull.push
      rw [if_neg hlt]
      refine ih (hfalls.sublist ((List.sublist_cons_self m (l :: stack)).cons_cons x)) hcovered.2
        (fun a ha => hfirst a (by rwa [List.getLast?_cons_cons])) fun b hb hp => ?_
      cases hb
      exact under_over hlm hmx (not_lt.mp hlt) hp hx hcovered.1 (htop m rfl)
  | case3 stack hshort =>
      match stack, hshort, hfirst, htop with
      | [], _, _, _ => exact trivial
      | [m], _, hfirst, htop => exact ⟨htop m rfl (hfirst m rfl),trivial⟩
      | m :: l :: stack, hshort, _, _ => exact absurd rfl (hshort m l stack)

/-- Where the points pushed before are. -/
structure Pushed (stack : List (K × K)) (p : K × K) : Prop where
  covered : Covered stack p
  first : ∀ a ∈ stack.getLast?, a.1 ≤ p.1
  top : ∃ b, stack.head? = some b ∧ (p.1 < b.1 ∨ p = b)

/-- Run lemma: after all pushes every point is covered. -/
theorem pushed_foldl {points stack : List (K × K)} (hsteep : Steepens stack) (hfalls : Falls stack)
    (hrises : points.Pairwise fun p q => p.1 < q.1)
    (hright : ∀ q ∈ points, ∀ b ∈ stack, b.1 < q.1)
    (hp : Pushed stack p ∨ p ∈ points) :
    Pushed (points.foldl (fun stack q => UpperHull.push q stack) stack) p := by
  induction points generalizing stack with
  | nil => exact hp.resolve_right List.not_mem_nil
  | cons q points ih =>
      obtain ⟨hq,hrises⟩ := List.pairwise_cons.mp hrises
      obtain ⟨hsub,hhead,hlast⟩ := push_spec q stack
      have hall : Falls (q :: stack) :=
        List.pairwise_cons.mpr ⟨fun b hb => hright q List.mem_cons_self b hb,hfalls⟩
      refine ih hsteep.push (hall.sublist hsub) hrises (fun q' hq' b hb => ?_) ?_
      · rcases List.mem_cons.mp (hsub.subset hb) with rfl | hb
        · exact hq q' hq'
        · exact hright q' (List.mem_cons_of_mem _ hq') b hb
      · rcases hp with hp | hp
        · obtain ⟨b,hb,hpb⟩ := hp.top
          have hbq := hright q List.mem_cons_self b (List.mem_of_mem_head? hb)
          have hpq : p.1 < q.1 := by
            rcases hpb with hlt | rfl
            · exact hlt.trans hbq
            · exact hbq
          have hne : stack ≠ [] := fun hnil => by
            rw [hnil] at hb
            cases hb
          refine .inl ⟨hp.covered.push hall hpq.le hp.first fun b' hb' hle => ?_,fun a ha => ?_,
            q,hhead,.inl hpq⟩
          · have hsame : b' = b := Option.some.inj (hb'.symm.trans hb)
            rcases hpb with hlt | rfl
            · rw [hsame] at hle
              exact absurd hle (not_le.mpr hlt)
            · rw [hsame]
              exact under_self _ _
          · rw [hlast hne] at ha
            exact hp.first a ha
        · rcases List.mem_cons.mp hp with rfl | hp
          · refine .inl ⟨covered_push_self hsteep hall,fun a ha => ?_,p,hhead,.inr rfl⟩
            rcases List.mem_cons.mp (hsub.subset (List.mem_of_getLast? ha)) with rfl | ha
            · exact le_rfl
            · exact (hright p List.mem_cons_self a ha).le
          · exact .inr hp

end

end J2kNative.UpperHull
