import Mathlib.Algebra.Group.Basic
import Mathlib.Algebra.Order.Group.Int
import Mathlib.Data.Int.Notation

/-!
# Lifting steps

A lifting step adds to every sample of one class a quantity computed from the
samples outside the class, so subtracting the same quantity undoes it, whatever
the quantity is and however it is rounded. The second half instantiates the
scheme to a line of samples with mirrored ends and the two steps of the
reversible 5/3 filter. The class of a sample is the parity of its position plus
a phase, so that lines which begin at an odd coordinate are covered as well.
-/
namespace J2kNative.Lifting

section
variable {ι α : Type*} [AddGroup α]

/-- Samples satisfying `T` receive the amount `g`. -/
def lift (T : ι → Prop) [DecidablePred T] (g : (ι → α) → ι → α) (x : ι → α) : ι → α :=
  fun i => if T i then x i + g x i else x i

def unlift (T : ι → Prop) [DecidablePred T] (g : (ι → α) → ι → α) (x : ι → α) : ι → α :=
  fun i => if T i then x i - g x i else x i

/-- The amount at `i` is determined by the samples outside the class. -/
def Outside (T : ι → Prop) (g : (ι → α) → ι → α) (i : ι) : Prop :=
  ∀ x y : ι → α, (∀ j, ¬ T j → x j = y j) → g x i = g y i

variable {T : ι → Prop} [DecidablePred T] {g : (ι → α) → ι → α}

theorem lift_of {i : ι} (h : T i) (x : ι → α) : lift T g x i = x i + g x i := if_pos h

theorem unlift_of {i : ι} (h : T i) (x : ι → α) : unlift T g x i = x i - g x i := if_pos h

theorem lift_of_not {i : ι} (h : ¬ T i) (x : ι → α) : lift T g x i = x i := if_neg h

theorem unlift_of_not {i : ι} (h : ¬ T i) (x : ι → α) : unlift T g x i = x i := if_neg h

theorem lift_congr {x y : ι → α} {i : ι} (hx : x i = y i) (hg : g x i = g y i) :
    lift T g x i = lift T g y i := by
  unfold lift
  rw [hx, hg]

theorem unlift_congr {x y : ι → α} {i : ι} (hx : x i = y i) (hg : g x i = g y i) :
    unlift T g x i = unlift T g y i := by
  unfold unlift
  rw [hx, hg]

theorem unlift_lift {i : ι} (h : T i → Outside T g i) (x : ι → α) :
    unlift T g (lift T g x) i = x i := by
  by_cases hi : T i
  · have hg : g (lift T g x) i = g x i := h hi _ _ fun j hj => lift_of_not hj x
    unfold unlift
    rw [if_pos hi, hg, lift, if_pos hi, add_sub_cancel_right]
  · rw [unlift_of_not hi, lift_of_not hi]

end

/-! ## Reversible 5/3 filter on a line with mirrored ends -/

/-- Neighbor below position `i`, mirrored at the start of the line. -/
def left (i : ℕ) : ℕ := if i = 0 then 1 else i - 1

/-- Neighbor above position `i`, mirrored at the end of a line of `n` samples. -/
def right (n i : ℕ) : ℕ := if i + 1 < n then i + 1 else n - 2

@[simp] theorem left_zero : left 0 = 1 := rfl

theorem left_of_pos {i : ℕ} (h : 0 < i) : left i = i - 1 := if_neg (Nat.ne_of_gt h)

theorem right_inner {n i : ℕ} (h : i + 1 < n) : right n i = i + 1 := if_pos h

theorem right_last {n i : ℕ} (h : n ≤ i + 1) : right n i = n - 2 := if_neg (Nat.not_lt.mpr h)

/-- High-pass positions of a line whose first sample has coordinate parity `phase`. -/
def High (phase i : ℕ) : Prop := (phase + i) % 2 = 1

instance (phase : ℕ) : DecidablePred (High phase) := fun _ => inferInstanceAs (Decidable (_ = _))

def predictAmount (n : ℕ) (x : ℕ → ℤ) (i : ℕ) : ℤ := -((x (left i) + x (right n i)) / 2)

def updateAmount (n : ℕ) (x : ℕ → ℤ) (i : ℕ) : ℤ := (x (left i) + x (right n i) + 2) / 4

/-- Forward transform: predict the high-pass samples, then update the low-pass ones. -/
def analyze (phase n : ℕ) (x : ℕ → ℤ) : ℕ → ℤ :=
  lift (fun i => ¬ High phase i) (updateAmount n) (lift (High phase) (predictAmount n) x)

/-- Inverse transform: the same steps subtracted in the opposite order. -/
def synthesize (phase n : ℕ) (x : ℕ → ℤ) : ℕ → ℤ :=
  unlift (High phase) (predictAmount n) (unlift (fun i => ¬ High phase i) (updateAmount n) x)

theorem left_parity (phase i : ℕ) : High phase (left i) ↔ ¬ High phase i := by
  unfold High left
  split_ifs <;> omega

theorem right_parity {n i : ℕ} (phase : ℕ) (hn : 2 ≤ n) (hi : i < n) :
    High phase (right n i) ↔ ¬ High phase i := by
  unfold High right
  split_ifs <;> omega

theorem left_lt {n i : ℕ} (hn : 2 ≤ n) (hi : i < n) : left i < n := by
  unfold left
  split_ifs <;> omega

theorem right_lt {n i : ℕ} (hn : 2 ≤ n) : right n i < n := by
  unfold right
  split_ifs <;> omega

theorem predict_outside {n i : ℕ} {phase : ℕ} (hn : 2 ≤ n) (hi : i < n) (hh : High phase i) :
    Outside (High phase) (predictAmount n) i := by
  intro x y h
  have hl := h (left i) fun hj => (left_parity phase i).mp hj hh
  have hr := h (right n i) fun hj => (right_parity phase hn hi).mp hj hh
  unfold predictAmount
  rw [hl, hr]

theorem update_outside {n i : ℕ} {phase : ℕ} (hn : 2 ≤ n) (hi : i < n) (hh : ¬ High phase i) :
    Outside (fun i => ¬ High phase i) (updateAmount n) i := by
  intro x y h
  have hl := h (left i) (not_not.mpr ((left_parity phase i).mpr hh))
  have hr := h (right n i) (not_not.mpr ((right_parity phase hn hi).mpr hh))
  unfold updateAmount
  rw [hl, hr]

/-- Both amounts of a line depend on the samples of the line only. -/
theorem amounts_congr {n i : ℕ} {x y : ℕ → ℤ} (hn : 2 ≤ n) (hi : i < n)
    (h : ∀ j < n, x j = y j) :
    predictAmount n x i = predictAmount n y i ∧ updateAmount n x i = updateAmount n y i := by
  unfold predictAmount updateAmount
  rw [h _ (left_lt hn hi), h _ (right_lt hn)]
  exact ⟨rfl, rfl⟩

theorem analyze_congr {n i : ℕ} (phase : ℕ) {x y : ℕ → ℤ} (hn : 2 ≤ n) (hi : i < n)
    (h : ∀ j < n, x j = y j) : analyze phase n x i = analyze phase n y i := by
  have hp : ∀ j < n, lift (High phase) (predictAmount n) x j =
      lift (High phase) (predictAmount n) y j :=
    fun j hj => lift_congr (h j hj) (amounts_congr hn hj h).1
  exact lift_congr (hp i hi) (amounts_congr hn hi hp).2

theorem synthesize_congr {n i : ℕ} (phase : ℕ) {x y : ℕ → ℤ} (hn : 2 ≤ n) (hi : i < n)
    (h : ∀ j < n, x j = y j) : synthesize phase n x i = synthesize phase n y i := by
  have hu : ∀ j < n, unlift (fun i => ¬ High phase i) (updateAmount n) x j =
      unlift (fun i => ¬ High phase i) (updateAmount n) y j :=
    fun j hj => unlift_congr (h j hj) (amounts_congr hn hj h).2
  exact unlift_congr (hu i hi) (amounts_congr hn hi hu).1

/-- The inverse filter undoes the forward filter on a line of either phase. -/
theorem synthesize_analyze {n i : ℕ} (phase : ℕ) (hn : 2 ≤ n) (hi : i < n) (x : ℕ → ℤ) :
    synthesize phase n (analyze phase n x) i = x i := by
  have hupdate : ∀ j < n, unlift (fun i => ¬ High phase i) (updateAmount n) (analyze phase n x) j =
      lift (High phase) (predictAmount n) x j :=
    fun j hj => unlift_lift (update_outside hn hj) _
  have hpredict : unlift (High phase) (predictAmount n)
      (lift (High phase) (predictAmount n) x) i = x i :=
    unlift_lift (predict_outside hn hi) _
  rw [← hpredict]
  exact unlift_congr (hupdate i hi) (amounts_congr hn hi hupdate).1

end J2kNative.Lifting
