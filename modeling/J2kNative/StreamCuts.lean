import Mathlib.Algebra.GroupWithZero.Nat
import Mathlib.Data.List.Basic
import Mathlib.Data.List.GetD
import Mathlib.Tactic.Tauto

/-!
# Cutting a stream of tokens into pieces

A stream is the concatenation of its tokens. Cut into pieces, it can be read piece
by piece exactly when every cut falls between two tokens; the tokens then fall
into groups, one to a piece.
-/
namespace J2kNative.StreamCuts

variable {α : Type*}

/-- A position between two tokens, or at an end. -/
def IsCut (tokens : List (List α)) (p : ℕ) : Prop := ∃ i, (tokens.take i).flatten.length = p

/-- Every cut of the pieces falls between two tokens. -/
def Aligned (tokens pieces : List (List α)) : Prop := ∀ p, IsCut pieces p → IsCut tokens p

theorem isCut_zero (tokens : List (List α)) : IsCut tokens 0 := ⟨0,rfl⟩

theorem isCut_length (tokens : List (List α)) : IsCut tokens tokens.flatten.length :=
  ⟨tokens.length,by rw [List.take_length]⟩

theorem IsCut.le {tokens : List (List α)} {p : ℕ} (h : IsCut tokens p) :
    p ≤ tokens.flatten.length := by
  obtain ⟨i,rfl⟩ := h
  nth_rewrite 2 [← List.take_append_drop i tokens]
  rw [List.flatten_append,List.length_append]
  exact Nat.le_add_right _ _

theorem isCut_nil {p : ℕ} : IsCut ([] : List (List α)) p ↔ p = 0 := by
  constructor
  · exact fun h => Nat.le_zero.mp h.le
  · rintro rfl
    exact isCut_zero _

theorem isCut_cons {t : List α} {tokens : List (List α)} {p : ℕ} :
    IsCut (t :: tokens) p ↔ p = 0 ∨ ∃ q, IsCut tokens q ∧ p = t.length + q := by
  constructor
  · rintro ⟨i,rfl⟩
    cases i with
    | zero => exact .inl rfl
    | succ i =>
        refine .inr ⟨_,⟨i,rfl⟩,?_⟩
        rw [List.take_succ_cons,List.flatten_cons,List.length_append]
  · rintro (rfl | ⟨q,⟨i,rfl⟩,rfl⟩)
    · exact isCut_zero _
    · refine ⟨i + 1,?_⟩
      rw [List.take_succ_cons,List.flatten_cons,List.length_append]

theorem isCut_append {l r : List (List α)} {q : ℕ} (h : IsCut r q) :
    IsCut (l ++ r) (l.flatten.length + q) := by
  obtain ⟨i,rfl⟩ := h
  refine ⟨l.length + i,?_⟩
  rw [List.take_length_add_append,List.flatten_append,List.length_append]

/-- Cuts of a concatenation, before and behind its seam. -/
theorem isCut_of_append_left {l r : List (List α)} {q : ℕ} (h : IsCut (l ++ r) q)
    (hq : q ≤ l.flatten.length) : IsCut l q := by
  obtain ⟨i,rfl⟩ := h
  rcases Nat.le_total i l.length with hi | hi
  · exact ⟨i,by rw [List.take_append_of_le_length hi]⟩
  · rw [List.take_append,List.take_of_length_le hi,List.flatten_append,List.length_append] at hq ⊢
    rw [show (List.take (i - l.length) r).flatten.length = 0 by omega,Nat.add_zero]
    exact isCut_length l

theorem isCut_of_append_right {l r : List (List α)} {q : ℕ}
    (h : IsCut (l ++ r) (l.flatten.length + q)) : IsCut r q := by
  obtain ⟨i,hi⟩ := h
  rcases Nat.le_total i l.length with hle | hle
  · have hcut : IsCut l (l.flatten.length + q) :=
      ⟨i,by rw [← hi,List.take_append_of_le_length hle]⟩
    have := hcut.le
    rw [show q = 0 by omega]
    exact isCut_zero r
  · rw [List.take_append,List.take_of_length_le hle,List.flatten_append,List.length_append] at hi
    exact ⟨i - l.length,by omega⟩

theorem IsCut.append_left {l : List (List α)} {q : ℕ} (h : IsCut l q) (r : List (List α)) :
    IsCut (l ++ r) q := by
  obtain ⟨i,rfl⟩ := h
  rcases Nat.le_total i l.length with hi | hi
  · exact ⟨i,by rw [List.take_append_of_le_length hi]⟩
  · exact ⟨l.length,by rw [List.take_append_of_le_length (Nat.le_refl _),List.take_length,
      List.take_of_length_le hi]⟩

/-- Grouped tokens are cut between tokens. -/
theorem aligned_of_groups (groups : List (List (List α))) :
    Aligned groups.flatten (groups.map List.flatten) := by
  rintro p ⟨i,rfl⟩
  rw [← List.map_take,← List.flatten_flatten]
  have hsplit : groups.flatten = (groups.take i).flatten ++ (groups.drop i).flatten := by
    rw [← List.flatten_append,List.take_append_drop]
  rw [hsplit]
  simpa using isCut_append (l := (groups.take i).flatten) (isCut_zero (groups.drop i).flatten)

/-! ## Reading token by token -/

section
variable {t c : List α} {tokens pieces : List (List α)}

theorem isCut_nil_cons {p : ℕ} : IsCut ([] :: tokens) p ↔ IsCut tokens p := by
  rw [isCut_cons]
  constructor
  · rintro (rfl | ⟨q,hq,rfl⟩)
    · exact isCut_zero _
    · simpa using hq
  · exact fun h => .inr ⟨p,h,(Nat.zero_add p).symm⟩

theorem aligned_nil_piece : Aligned tokens ([] :: pieces) ↔ Aligned tokens pieces := by
  unfold Aligned
  simp only [isCut_nil_cons]

/-- The first token read off the first piece. -/
theorem aligned_shift : Aligned (t :: tokens) ((t ++ c) :: pieces) ↔
    Aligned tokens (c :: pieces) := by
  constructor
  · intro h q hq
    rcases isCut_cons.mp hq with rfl | ⟨r,hr,rfl⟩
    · exact isCut_zero _
    · have hp := h (t.length + (c.length + r)) (isCut_cons.mpr (.inr ⟨r,hr,by simp; omega⟩))
      rcases isCut_cons.mp hp with h0 | ⟨q,hq',heq⟩
      · rw [show c.length + r = 0 by omega]
        exact isCut_zero _
      · rwa [show c.length + r = q by omega]
  · intro h p hp
    rcases isCut_cons.mp hp with rfl | ⟨r,hr,rfl⟩
    · exact isCut_zero _
    · refine isCut_cons.mpr (.inr ⟨c.length + r,h _ (isCut_cons.mpr (.inr ⟨r,hr,rfl⟩)),?_⟩)
      simp only [List.length_append]
      omega

/-- A piece that ends inside the first token. -/
theorem not_aligned_of_length_lt (hc : c ≠ []) (hlt : c.length < t.length) :
    ¬ Aligned (t :: tokens) (c :: pieces) := by
  intro h
  have hpos := List.length_pos_iff.mpr hc
  rcases isCut_cons.mp (h c.length ⟨1,by simp⟩) with h0 | ⟨q,-,heq⟩ <;> omega

/-- A stream that starts with a token and with a piece. -/
theorem split_of_length_le {r s : List α} (h : t ++ r = c ++ s) (hle : t.length ≤ c.length) :
    ∃ d, c = t ++ d := by
  obtain ⟨d,hd,-⟩ | ⟨d,hd,-⟩ := List.append_eq_append_iff.mp h
  · exact ⟨d,hd⟩
  · have : d.length = 0 := by
      rw [hd,List.length_append] at hle
      omega
    rw [List.length_eq_zero_iff.mp this,List.append_nil] at hd
    exact ⟨[],by simp [hd]⟩

end

/-! ## Pieces of equal length -/

/-- Pieces of `n` elements, the last one of what is left. -/
def chunks (n : ℕ) (l : List α) : List (List α) :=
  if _ : l = [] ∨ n = 0 then [] else l.take n :: chunks n (l.drop n)
termination_by l.length
decreasing_by
  have := List.length_pos_iff.mpr (not_or.mp ‹_›).1
  rw [List.length_drop]
  omega

@[simp] theorem chunks_nil (n : ℕ) : chunks n ([] : List α) = [] := by
  simp [chunks]

theorem chunks_of_ne_nil {n : ℕ} (hn : 0 < n) {l : List α} (hl : l ≠ []) :
    chunks n l = l.take n :: chunks n (l.drop n) := by
  rw [chunks,dif_neg (not_or.mpr ⟨hl,Nat.ne_of_gt hn⟩)]

/-- Induction along the pieces. -/
theorem chunks_induction {n : ℕ} (hn : 0 < n) {P : List α → Prop} (nil : P [])
    (step : ∀ l, l ≠ [] → P (l.drop n) → P l) (l : List α) : P l := by
  induction h : l.length using Nat.strongRecOn generalizing l with
  | ind k ih =>
      by_cases hl : l = []
      · rw [hl]
        exact nil
      · have := List.length_pos_iff.mpr hl
        exact step l hl (ih (l.drop n).length (by rw [List.length_drop]; omega) _ rfl)

theorem chunks_flatten {n : ℕ} (hn : 0 < n) (l : List α) : (chunks n l).flatten = l := by
  induction l using chunks_induction hn with
  | nil => rw [chunks_nil,List.flatten_nil]
  | step l hl ih => rw [chunks_of_ne_nil hn hl,List.flatten_cons,ih,List.take_append_drop]

theorem length_of_mem_chunks {n : ℕ} (hn : 0 < n) {l piece : List α} (h : piece ∈ chunks n l) :
    0 < piece.length ∧ piece.length ≤ n := by
  induction l using chunks_induction hn with
  | nil =>
      rw [chunks_nil] at h
      cases h
  | step l hl ih =>
      rw [chunks_of_ne_nil hn hl] at h
      rcases List.mem_cons.mp h with rfl | h
      · have := List.length_pos_iff.mpr hl
        rw [List.length_take]
        omega
      · exact ih h

/-- As many pieces as the length asks for. -/
theorem chunks_length {n : ℕ} (hn : 0 < n) (l : List α) :
    (chunks n l).length = (l.length + n - 1) / n := by
  induction l using chunks_induction hn with
  | nil =>
      rw [chunks_nil,List.length_nil,List.length_nil,Nat.zero_add]
      exact (Nat.div_eq_of_lt (by omega)).symm
  | step l hl ih =>
      have := List.length_pos_iff.mpr hl
      rw [chunks_of_ne_nil hn hl,List.length_cons,ih,List.length_drop]
      by_cases hle : n ≤ l.length
      · rw [show l.length + n - 1 = l.length - n + n - 1 + n by omega,Nat.add_div_right _ hn]
      · rw [show l.length - n + n - 1 = n - 1 by omega,Nat.div_eq_of_lt (by omega),
          show l.length + n - 1 = l.length - 1 + n by omega,Nat.add_div_right _ hn,
          Nat.div_eq_of_lt (by omega)]

/-- The cuts are the multiples of the piece length, and the end. -/
theorem isCut_chunks {n : ℕ} (hn : 0 < n) (l : List α) {p : ℕ} : IsCut (chunks n l) p ↔
    p = l.length ∨ ∃ k, p = k * n ∧ p < l.length := by
  induction l using chunks_induction hn generalizing p with
  | nil => simp [isCut_nil]
  | step l hl ih =>
      have hpos := List.length_pos_iff.mpr hl
      rw [chunks_of_ne_nil hn hl,isCut_cons]
      simp only [ih,List.length_drop,List.length_take]
      constructor
      · rintro (rfl | ⟨q,rfl | ⟨k,rfl,hlt⟩,rfl⟩)
        · exact .inr ⟨0,by simp,hpos⟩
        · exact .inl (by omega)
        · refine .inr ⟨k + 1,?_,?_⟩
          · rw [Nat.add_mul,Nat.one_mul]
            omega
          · omega
      · rintro (rfl | ⟨k,rfl,hlt⟩)
        · exact .inr ⟨l.length - n,.inl rfl,by omega⟩
        · cases k with
          | zero => exact .inl (Nat.zero_mul n)
          | succ k =>
              rw [Nat.add_mul,Nat.one_mul] at hlt ⊢
              exact .inr ⟨k * n,.inr ⟨k,rfl,by omega⟩,by omega⟩

/-- No token runs over the end of a piece of `n` elements. -/
theorem aligned_chunks_iff {n : ℕ} (hn : 0 < n) (tokens : List (List α)) :
    Aligned tokens (chunks n tokens.flatten) ↔
      ∀ k, k * n < tokens.flatten.length → IsCut tokens (k * n) := by
  constructor
  · exact fun h k hk => h _ ((isCut_chunks hn _).mpr (.inr ⟨k,rfl,hk⟩))
  · intro h p hp
    rcases (isCut_chunks hn _).mp hp with rfl | ⟨k,rfl,hk⟩
    · exact isCut_length _
    · exact h k hk

/-- Among items of the given sizes, every multiple of `n` before the end falls between two
items. -/
def CutsBetween (n : ℕ) (sizes : List ℕ) : Prop :=
  ∀ k, k * n < sizes.sum → ∃ i, (sizes.take i).sum = k * n

theorem aligned_chunks_iff_cutsBetween {n : ℕ} (hn : 0 < n) (tokens : List (List α)) :
    Aligned tokens (chunks n tokens.flatten) ↔ CutsBetween n (tokens.map List.length) := by
  rw [aligned_chunks_iff hn]
  unfold CutsBetween IsCut
  simp only [List.length_flatten,List.map_take]

end J2kNative.StreamCuts
