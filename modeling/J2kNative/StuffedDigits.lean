import Mathlib.Algebra.Order.Ring.Nat
import Mathlib.Data.Nat.Notation
import Mathlib.Order.Basic

/-!
# Digit strings whose digit widths depend on the preceding digit

A byte-stuffed code string is a sequence of digits in which the number of bits
by which a digit extends the value is decided by the digit before it. The
first digit is worth itself; every later digit shifts the value read so far by
the width that its predecessor grants. A digit may exceed its width: the excess
is a carry into the predecessor's cell.

The value and the bit offset are functions of the index on an infinite stream,
so that a finite string, its extensions and a corrected copy are compared by
congruence. Inequalities between values at different offsets are stated after
multiplication by powers of two and never divide.
-/
namespace J2kNative.StuffedDigits

section
variable (width : ℕ → ℕ)

/-- Bits between the least significant bit of digit `0` and that of digit `k`. -/
def offset (d : ℕ → ℕ) : ℕ → ℕ
  | 0 => 0
  | k + 1 => offset d k + width (d k)

/-- The digits `0..k` read as one number in units of digit `k`. -/
def value (d : ℕ → ℕ) : ℕ → ℕ
  | 0 => d 0
  | k + 1 => value d k * 2 ^ width (d k) + d (k + 1)

@[simp] theorem offset_zero (d : ℕ → ℕ) : offset width d 0 = 0 := rfl

theorem offset_succ (d : ℕ → ℕ) (k : ℕ) :
    offset width d (k + 1) = offset width d k + width (d k) := rfl

@[simp] theorem value_zero (d : ℕ → ℕ) : value width d 0 = d 0 := rfl

theorem value_succ (d : ℕ → ℕ) (k : ℕ) :
    value width d (k + 1) = value width d k * 2 ^ width (d k) + d (k + 1) := rfl

theorem offset_congr {d e : ℕ → ℕ} {k : ℕ} (h : ∀ i < k, d i = e i) :
    offset width d k = offset width e k := by
  induction k with
  | zero => rfl
  | succ k ih =>
      rw [offset_succ, offset_succ, ih fun i hi => h i (Nat.lt_succ_of_lt hi),
        h k (Nat.lt_succ_self k)]

theorem value_congr {d e : ℕ → ℕ} {k : ℕ} (h : ∀ i ≤ k, d i = e i) :
    value width d k = value width e k := by
  induction k with
  | zero => exact h 0 le_rfl
  | succ k ih =>
      rw [value_succ, value_succ, ih fun i hi => h i (Nat.le_succ_of_le hi),
        h k (Nat.le_succ k), h (k + 1) le_rfl]

/-- Two strings that agree before digit `k` differ in value by that digit only. -/
theorem value_add_digit {d e : ℕ → ℕ} {k : ℕ} (h : ∀ i < k, d i = e i) :
    value width d k + e k = value width e k + d k := by
  cases k with
  | zero => simp only [value_zero]; omega
  | succ k =>
      have hv := value_congr width (k := k) fun i hi => h i (Nat.lt_succ_of_le hi)
      rw [value_succ, value_succ, hv, h k (Nat.lt_succ_self k)]
      omega

theorem offset_mono (d : ℕ → ℕ) {j k : ℕ} (h : j ≤ k) :
    offset width d j ≤ offset width d k := by
  induction k, h using Nat.le_induction with
  | base => exact le_rfl
  | succ k _ ih => exact ih.trans (Nat.le_add_right _ _)

/-- A longer prefix never denotes less than a shorter one. -/
theorem value_prefix_le (d : ℕ → ℕ) {j k : ℕ} (h : j ≤ k) :
    value width d j * 2 ^ offset width d k ≤ value width d k * 2 ^ offset width d j := by
  induction k, h using Nat.le_induction with
  | base => exact le_rfl
  | succ k _ ih =>
      calc value width d j * 2 ^ offset width d (k + 1)
          = value width d j * 2 ^ offset width d k * 2 ^ width (d k) := by
            rw [offset_succ, pow_add, mul_assoc]
        _ ≤ value width d k * 2 ^ offset width d j * 2 ^ width (d k) :=
            Nat.mul_le_mul_right _ ih
        _ = value width d k * 2 ^ width (d k) * 2 ^ offset width d j := by
            rw [mul_right_comm]
        _ ≤ value width d (k + 1) * 2 ^ offset width d j :=
            Nat.mul_le_mul_right _ (Nat.le_add_right _ _)

/-- The point `low / 2^scale` lies before the end of the cell that digit `k` opens. -/
def Starts (d : ℕ → ℕ) (k low scale : ℕ) : Prop :=
  low * 2 ^ offset width d k < (value width d k + 1) * 2 ^ scale

/-- The cell that digit `k` opens ends no later than `high / 2^scale`. -/
def Ends (d : ℕ → ℕ) (k high scale : ℕ) : Prop :=
  (value width d k + 1) * 2 ^ scale ≤ high * 2 ^ offset width d k

theorem Starts.anti {d : ℕ → ℕ} {k low low' scale : ℕ} (h : Starts width d k low' scale)
    (hl : low ≤ low') : Starts width d k low scale :=
  (Nat.mul_le_mul_right _ hl).trans_lt h

theorem Ends.mono {d : ℕ → ℕ} {k high high' scale : ℕ} (h : Ends width d k high' scale)
    (hh : high' ≤ high) : Ends width d k high scale :=
  Nat.le_trans h (Nat.mul_le_mul_right _ hh)

theorem starts_scale {d : ℕ → ℕ} {k low scale : ℕ} (n : ℕ) :
    Starts width d k (low * 2 ^ n) (scale + n) ↔ Starts width d k low scale := by
  unfold Starts
  rw [pow_add, ← mul_assoc, mul_right_comm, Nat.mul_lt_mul_right (Nat.two_pow_pos n)]

theorem ends_scale {d : ℕ → ℕ} {k high scale : ℕ} (n : ℕ) :
    Ends width d k (high * 2 ^ n) (scale + n) ↔ Ends width d k high scale := by
  unfold Ends
  have hh : high * 2 ^ n * 2 ^ offset width d k = high * 2 ^ offset width d k * 2 ^ n :=
    mul_right_comm _ _ _
  rw [hh, pow_add, ← mul_assoc, Nat.mul_le_mul_right_iff (Nat.two_pow_pos n)]

/-- Comparison of a lower end with a cell in units of `2^-(scale + n)`, which is fine
enough for both. -/
theorem starts_at {d : ℕ → ℕ} {k low scale n : ℕ} (h : offset width d k ≤ scale + n) :
    Starts width d k low scale ↔
      low * 2 ^ n < (value width d k + 1) * 2 ^ (scale + n - offset width d k) := by
  have hp : 2 ^ (scale + n) = 2 ^ (scale + n - offset width d k) * 2 ^ offset width d k := by
    rw [← pow_add, Nat.sub_add_cancel h]
  rw [← starts_scale width n]
  unfold Starts
  rw [hp, ← mul_assoc, Nat.mul_lt_mul_right (Nat.two_pow_pos _)]

theorem ends_at {d : ℕ → ℕ} {k high scale n : ℕ} (h : offset width d k ≤ scale + n) :
    Ends width d k high scale ↔
      (value width d k + 1) * 2 ^ (scale + n - offset width d k) ≤ high * 2 ^ n := by
  have hp : 2 ^ (scale + n) = 2 ^ (scale + n - offset width d k) * 2 ^ offset width d k := by
    rw [← pow_add, Nat.sub_add_cancel h]
  rw [← ends_scale width n]
  unfold Ends
  rw [hp, ← mul_assoc, Nat.mul_le_mul_right_iff (Nat.two_pow_pos _)]

/-- A cell that ends by `high` bounds the opening of every cell that contains it. -/
theorem Ends.prefix_lt {d : ℕ → ℕ} {j k high scale : ℕ} (h : Ends width d k high scale)
    (hj : j ≤ k) : value width d j * 2 ^ scale < high * 2 ^ offset width d j := by
  have hp := Nat.mul_le_mul_right (2 ^ scale) (value_prefix_le width d hj)
  have hlt : value width d k * 2 ^ scale < high * 2 ^ offset width d k :=
    (Nat.mul_lt_mul_of_pos_right (Nat.lt_succ_self _) (Nat.two_pow_pos _)).trans_le h
  have hs := Nat.mul_lt_mul_of_pos_right hlt (Nat.two_pow_pos (offset width d j))
  refine Nat.lt_of_mul_lt_mul_right (a := 2 ^ offset width d k) ?_
  calc value width d j * 2 ^ scale * 2 ^ offset width d k
      = value width d j * 2 ^ offset width d k * 2 ^ scale := mul_right_comm _ _ _
    _ ≤ value width d k * 2 ^ offset width d j * 2 ^ scale := hp
    _ = value width d k * 2 ^ scale * 2 ^ offset width d j := mul_right_comm _ _ _
    _ < high * 2 ^ offset width d k * 2 ^ offset width d j := hs
    _ = high * 2 ^ offset width d j * 2 ^ offset width d k := mul_right_comm _ _ _

/-- Granularity: an integral bound at a coarser scale closes the whole cell. -/
theorem Ends.of_prefix {d : ℕ → ℕ} {j k high scale : ℕ} (h : Ends width d k high scale)
    (hj : j ≤ k) (hs : scale ≤ offset width d j) : Ends width d j high scale := by
  obtain ⟨e, he⟩ := Nat.exists_eq_add_of_le hs
  have hlt := h.prefix_lt width hj
  unfold Ends
  rw [he, pow_add, mul_comm (2 ^ scale), ← mul_assoc] at hlt ⊢
  exact Nat.mul_le_mul_right _ (Nat.lt_of_mul_lt_mul_right hlt)

end

end J2kNative.StuffedDigits
