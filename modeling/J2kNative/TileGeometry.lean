import Mathlib.Data.Nat.Notation
import Mathlib.Algebra.Order.Ring.Nat

/-!
# Rectangles on the reference grid

Tiles, component tiles, resolutions and sub-bands of the decoder are rectangles
with exclusive upper corners, obtained from one another by rounding coordinates
up to multiples. Coordinates are natural numbers below `2^32`; saturating `u32`
operations are written out where the source uses them. A rectangle whose upper
corner precedes its lower one has extent zero here; the source never forms its
extent.
-/
namespace J2kNative.TileGeometry

structure IntRect where
  x0 : ℕ
  y0 : ℕ
  x1 : ℕ
  y1 : ℕ
  deriving DecidableEq, Repr, Inhabited

namespace IntRect

/-- `from_xywh`. -/
def fromXywh (x y w h : ℕ) : IntRect := ⟨x, y, x + w, y + h⟩

def width (r : IntRect) : ℕ := r.x1 - r.x0

def height (r : IntRect) : ℕ := r.y1 - r.y0

def isEmpty (r : IntRect) : Bool := r.x0 ≥ r.x1 ∨ r.y0 ≥ r.y1

end IntRect

/-- `saturating_add` of numbers of `bits` bits. -/
def saturatingAdd (bits a b : ℕ) : ℕ := min (a + b) (2 ^ bits - 1)

/-- `u32::div_ceil`. -/
def divCeil (value divisor : ℕ) : ℕ := (value + divisor - 1) / divisor

def ceilDivByPowerOfTwo (value exponent : ℕ) : ℕ :=
  if exponent = 0 then value
  else if exponent ≥ 32 then (if value ≠ 0 then 1 else 0)
  else divCeil value (1 <<< exponent)

/-- `subband_coordinate`: a coordinate of the band at `decompositionLevel`, shifted
by half a period for a high-pass axis. -/
def subbandCoordinate (value decompositionLevel : ℕ) (highPass : Bool) : ℕ :=
  let adjusted :=
    if !highPass || decompositionLevel = 0 then value
    else if decompositionLevel > 32 then 0
    else value - 1 <<< (decompositionLevel - 1)
  ceilDivByPowerOfTwo adjusted decompositionLevel

/-! ## Rounding up -/

theorem divCeil_le_iff {v d q : ℕ} (hd : 0 < d) : divCeil v d ≤ q ↔ v ≤ q * d := by
  unfold divCeil
  rw [Nat.div_le_iff_le_mul_add_pred hd, Nat.mul_comm]
  omega

theorem lt_divCeil_iff {v d q : ℕ} (hd : 0 < d) : q < divCeil v d ↔ q * d < v := by
  have h := divCeil_le_iff (v := v) (q := q) hd
  omega

theorem divCeil_mul_right (k : ℕ) {d : ℕ} (hd : 0 < d) : divCeil (k * d) d = k := by
  refine Nat.le_antisymm ((divCeil_le_iff hd).mpr le_rfl) ?_
  exact Nat.le_of_mul_le_mul_right ((divCeil_le_iff hd).mp le_rfl) hd

theorem divCeil_mono {d : ℕ} (hd : 0 < d) : Monotone fun v => divCeil v d := by
  intro v w hvw
  exact (divCeil_le_iff hd).mpr (hvw.trans ((divCeil_le_iff hd).mp le_rfl))

/-- Two rounded parts are no less than the rounded whole. -/
theorem divCeil_add_le {d u v : ℕ} (hd : 0 < d) :
    divCeil v d ≤ divCeil u d + divCeil (v - u) d := by
  have hu := (divCeil_le_iff hd).mp (le_refl (divCeil u d))
  have hv := (divCeil_le_iff hd).mp (le_refl (divCeil (v - u) d))
  rw [divCeil_le_iff hd,Nat.add_mul]
  omega

theorem divCeil_one (v : ℕ) : divCeil v 1 = v := by
  unfold divCeil
  omega

/-- Rounding up in two steps. -/
theorem divCeil_divCeil (v : ℕ) {d e : ℕ} (hd : 0 < d) (he : 0 < e) :
    divCeil (divCeil v d) e = divCeil v (d * e) := by
  have h (q : ℕ) : divCeil (divCeil v d) e ≤ q ↔ divCeil v (d * e) ≤ q := by
    rw [divCeil_le_iff he, divCeil_le_iff hd, divCeil_le_iff (Nat.mul_pos hd he), Nat.mul_assoc,
      Nat.mul_comm e d]
  exact Nat.le_antisymm ((h _).mpr le_rfl) ((h _).mp le_rfl)

/-- For a `u32` the guarded shift is the mathematical quotient. -/
theorem ceilDiv_eq {v : ℕ} (k : ℕ) (hv : v ≤ 2 ^ 32) :
    ceilDivByPowerOfTwo v k = divCeil v (2 ^ k) := by
  unfold ceilDivByPowerOfTwo
  split_ifs with h0 h32 hv0
  · rw [h0, pow_zero, divCeil_one]
  · have hle : v ≤ 2 ^ k := hv.trans (Nat.pow_le_pow_right two_pos h32)
    have h1 : divCeil v (2 ^ k) ≤ 1 := (divCeil_le_iff (Nat.two_pow_pos k)).mpr (by omega)
    have h2 : 0 < divCeil v (2 ^ k) := (lt_divCeil_iff (Nat.two_pow_pos k)).mpr (by omega)
    omega
  · have h1 : divCeil v (2 ^ k) ≤ 0 := (divCeil_le_iff (Nat.two_pow_pos k)).mpr (by omega)
    omega
  · rw [Nat.one_shiftLeft]

theorem divCeil_pow_succ (v k : ℕ) :
    divCeil v (2 ^ (k + 1)) = divCeil (divCeil v (2 ^ k)) 2 := by
  rw [pow_succ, divCeil_divCeil v (Nat.two_pow_pos k) two_pos]

end J2kNative.TileGeometry
