import J2kNative.KeyedLists
import Mathlib.Algebra.Order.Ring.Nat
import Mathlib.Data.List.Pairwise

/-!
# Cells of a grid, row by row

A grid lists the cells of a range of columns and a range of rows. Cutting it along
multiples of a column and a row count gives grids again, and the parts into which a
list falls under a bounded index hold every element once.
-/
namespace J2kNative.CellGrids
open KeyedLists

variable {α β : Type*}

/-- The cells of `nx` columns from `x0` and `ny` rows from `y0`. -/
def cells (x0 nx y0 ny : ℕ) (f : ℕ → ℕ → β) : List β :=
  (List.range' y0 ny).flatMap fun y => (List.range' x0 nx).map fun x => f x y

/-- The cells by their distance from the first. -/
theorem cells_eq_range (x0 nx y0 ny : ℕ) (f : ℕ → ℕ → β) : cells x0 nx y0 ny f =
    (List.range ny).flatMap fun l => (List.range nx).map fun k => f (x0 + k) (y0 + l) := by
  unfold cells
  simp only [List.range'_eq_map_range, List.flatMap_map, List.map_map, Function.comp_def]

theorem map_cells {γ : Type*} (g : β → γ) (x0 nx y0 ny : ℕ) (f : ℕ → ℕ → β) :
    (cells x0 nx y0 ny f).map g = cells x0 nx y0 ny fun x y => g (f x y) := by
  simp [cells, List.map_flatMap, Function.comp_def]

theorem length_cells (x0 nx y0 ny : ℕ) (f : ℕ → ℕ → β) :
    (cells x0 nx y0 ny f).length = nx * ny := by
  simp [cells, List.length_flatMap, Nat.mul_comm]

/-- A grid at the origin by the index of its cells. -/
theorem cells_eq_map_range (nx ny : ℕ) (f : ℕ → ℕ → β) :
    cells 0 nx 0 ny f = (List.range (nx * ny)).map fun i => f (i % nx) (i / nx) := by
  induction ny with
  | zero => rfl
  | succ ny ih =>
      have hrow : cells 0 nx 0 (ny + 1) f =
          cells 0 nx 0 ny f ++ (List.range nx).map fun x => f x ny := by
        simp [cells, ← List.range_eq_range', List.range_succ]
      rw [hrow, ih, Nat.mul_succ, List.range_add, List.map_append, List.map_map]
      congr 1
      refine List.map_congr_left fun x hx => ?_
      have hx : x < nx := List.mem_range.mp hx
      rw [Function.comp_apply, Nat.mul_add_mod, Nat.mod_eq_of_lt hx, Nat.mul_add_div (by omega),
        Nat.div_eq_of_lt hx, Nat.add_zero]

/-- The numbers below `n` with quotient `i`. -/
theorem filter_range_div {q : ℕ} (hq : 0 < q) (i n : ℕ) :
    (List.range n).filter (fun x => x / q = i) =
      List.range' (i * q) (min (i * q + q) n - i * q) := by
  refine @Enumerated.eq_of_mem_iff _ (fun x => [x]) _ _ ?_ ?_ fun x => ?_
  · refine List.Pairwise.filter _ (List.pairwise_lt_range.imp ?_)
    intro a b hab
    exact List.cons_lt_cons_iff.mpr (.inl hab)
  · refine (List.pairwise_lt_range' 1).imp ?_
    intro a b hab
    exact List.cons_lt_cons_iff.mpr (.inl hab)
  · have hdiv : x / q = i ↔ i * q ≤ x ∧ x < i * q + q := by
      rw [Nat.div_eq_iff hq]
      omega
    simp only [List.mem_filter, List.mem_range, decide_eq_true_eq, List.mem_range'_1, hdiv]
    omega

/-- The cells of one part of a grid cut every `q` columns and every `t` rows. -/
theorem filter_cells {q t : ℕ} (hq : 0 < q) (ht : 0 < t) (i j nx ny : ℕ) :
    (cells 0 nx 0 ny Prod.mk).filter (fun c => c.1 / q = i ∧ c.2 / t = j) =
      cells (i * q) (min (i * q + q) nx - i * q) (j * t) (min (j * t + t) ny - j * t) Prod.mk := by
  have hrow (y : ℕ) : ((List.range nx).map fun x => (x, y)).filter
      (fun c => c.1 / q = i ∧ c.2 / t = j) =
      if y / t = j then ((List.range nx).filter fun x => x / q = i).map fun x => (x, y) else [] := by
    rw [List.filter_map]
    split_ifs with hy
    · simp [Function.comp_def, hy]
    · simp [Function.comp_def, hy]
  unfold cells
  rw [← List.range_eq_range', ← List.range_eq_range', List.filter_flatMap]
  simp only [hrow, filter_range_div hq]
  rw [← filter_range_div ht j ny]
  induction List.range ny with
  | nil => rfl
  | cons y l ih =>
      rw [List.flatMap_cons, ih, List.filter_cons]
      split_ifs with h h' h'
      · rw [List.flatMap_cons]
      · simp [h] at h'
      · simp [h] at h'
      · rfl

/-- The parts of a list under a bounded index hold every element once. -/
theorem fibers_perm {l : List α} (hl : l.Nodup) {index : α → ℕ} {n : ℕ}
    (h : ∀ a ∈ l, index a < n) :
    ((List.range n).flatMap fun p => l.filter fun a => index a = p).Perm l := by
  refine (List.perm_ext_iff_of_nodup ?_ hl).mpr fun a => ?_
  · refine List.nodup_flatMap.mpr ⟨fun p _ => hl.filter _, List.nodup_range.imp ?_⟩
    intro p p' hne a ha ha'
    rw [List.mem_filter, decide_eq_true_eq] at ha ha'
    exact hne (ha.2.symm.trans ha'.2)
  · simp only [List.mem_flatMap, List.mem_range, List.mem_filter, decide_eq_true_eq]
    constructor
    · rintro ⟨p, -, ha, -⟩
      exact ha
    · exact fun ha => ⟨index a, h a ha, ha, rfl⟩

end J2kNative.CellGrids
