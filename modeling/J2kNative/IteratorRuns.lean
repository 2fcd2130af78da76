import Mathlib.Data.Nat.Notation

/-!
# Runs of fallible iterators

An iterator is a step that yields an item, an error or nothing, and the state it
leaves. A run finishes when the iterator yields nothing from some call on; an
error may only come last.
-/
namespace J2kNative.IteratorRuns

variable {σ ε α : Type} (next : σ → Option (Except ε α) × σ)

/-- The state after `n` calls. -/
def after : ℕ → σ → σ
  | 0,s => s
  | n+1,s => after n (next s).2

/-- What call `n` yields. -/
def item (n : ℕ) (s : σ) : Option (Except ε α) := (next (after next n s)).1

/-- The first `n` calls yield items, of which only the last may be an error, and no later call
yields one. -/
structure FinishesIn (n : ℕ) (s : σ) : Prop where
  yields : ∀ i < n, (item next i s).isSome
  ended : ∀ m, n ≤ m → item next m s = none
  error_last : ∀ i < n, ∀ e, item next i s = some (.error e) → i+1 = n

def Finishes (s : σ) : Prop := ∃ n, FinishesIn next n s

variable {next} {s s' : σ} {a : α} {e : ε}

theorem item_succ (n : ℕ) (s : σ) : item next (n+1) s = item next n (next s).2 := rfl

theorem finishesIn_succ {n : ℕ} {r : Except ε α} (h : next s = (some r,s')) :
    FinishesIn next (n+1) s ↔
      FinishesIn next n s' ∧ ∀ e, r = .error e → n = 0 := by
  have hfirst : item next 0 s = some r := congrArg Prod.fst h
  have hlater : ∀ i, item next (i+1) s = item next i s' := fun i => by rw [item_succ,h]
  constructor
  · rintro ⟨hyields,hended,herror⟩
    refine ⟨⟨fun i hi => ?_,fun m hm => ?_,fun i hi e he => ?_⟩,fun e he => ?_⟩
    · rw [← hlater]
      exact hyields (i+1) (Nat.succ_lt_succ hi)
    · rw [← hlater]
      exact hended (m+1) (Nat.succ_le_succ hm)
    · rw [← hlater] at he
      exact Nat.succ.inj (herror (i+1) (Nat.succ_lt_succ hi) e he)
    · exact (Nat.succ.inj (herror 0 (Nat.succ_pos n) e (he ▸ hfirst))).symm
  · rintro ⟨⟨hyields,hended,herror⟩,hr⟩
    refine ⟨fun i hi => ?_,fun m hm => ?_,fun i hi e he => ?_⟩
    · cases i with
      | zero => rw [hfirst]; rfl
      | succ i =>
          rw [hlater]
          exact hyields i (Nat.lt_of_succ_lt_succ hi)
    · cases m with
      | zero => exact absurd hm (Nat.not_succ_le_zero n)
      | succ m =>
          rw [hlater]
          exact hended m (Nat.le_of_succ_le_succ hm)
    · cases i with
      | zero =>
          rw [hfirst] at he
          rw [hr e (Option.some.inj he)]
      | succ i =>
          rw [hlater] at he
          exact congrArg Nat.succ (herror i (Nat.lt_of_succ_lt_succ hi) e he)

theorem not_finishesIn_zero {r : Except ε α} (h : next s = (some r,s')) :
    ¬FinishesIn next 0 s := by
  intro hzero
  have hnone := hzero.ended 0 (Nat.le_refl 0)
  rw [show item next 0 s = some r from congrArg Prod.fst h] at hnone
  cases hnone

/-- An item leaves the question to the state after it. -/
theorem finishes_of_ok (h : next s = (some (.ok a),s')) : Finishes next s ↔ Finishes next s' := by
  constructor
  · rintro ⟨n,hn⟩
    cases n with
    | zero => exact absurd hn (not_finishesIn_zero h)
    | succ n => exact ⟨n,((finishesIn_succ h).mp hn).1⟩
  · rintro ⟨n,hn⟩
    exact ⟨n+1,(finishesIn_succ h).mpr ⟨hn,nofun⟩⟩

/-- After an error nothing may come. -/
theorem finishes_of_error (h : next s = (some (.error e),s')) :
    Finishes next s ↔ FinishesIn next 0 s' := by
  constructor
  · rintro ⟨n,hn⟩
    cases n with
    | zero => exact absurd hn (not_finishesIn_zero h)
    | succ n =>
        obtain ⟨hn,hzero⟩ := (finishesIn_succ h).mp hn
        obtain rfl := hzero e rfl
        exact hn
  · exact fun hzero => ⟨1,(finishesIn_succ h).mpr ⟨hzero,fun _ _ => rfl⟩⟩

/-- An iterator that yields nothing has finished when its next state yields nothing and stays. -/
theorem finishesIn_zero (h : next s = (none,s')) (hlast : next s' = (none,s')) :
    FinishesIn next 0 s := by
  have hafter : ∀ n, after next n s' = s' := by
    intro n
    induction n with
    | zero => rfl
    | succ n ih =>
        rw [after,hlast]
        exact ih
  refine ⟨nofun,fun m _ => ?_,nofun⟩
  cases m with
  | zero => exact congrArg Prod.fst h
  | succ m => rw [item_succ,h,item,hafter,hlast]

theorem finishes_congr (h : next s = next s') : Finishes next s ↔ Finishes next s' := by
  have hitem : ∀ n, item next n s = item next n s' := by
    intro n
    cases n with
    | zero => exact congrArg Prod.fst h
    | succ n => rw [item_succ,item_succ,h]
  have hfinishes : ∀ n, FinishesIn next n s ↔ FinishesIn next n s' := by
    intro n
    constructor
    · rintro ⟨hyields,hended,herror⟩
      exact ⟨fun i hi => hitem i ▸ hyields i hi,fun m hm => hitem m ▸ hended m hm,
        fun i hi e he => herror i hi e ((hitem i).trans he)⟩
    · rintro ⟨hyields,hended,herror⟩
      exact ⟨fun i hi => (hitem i).symm ▸ hyields i hi,fun m hm => (hitem m).trans (hended m hm),
        fun i hi e he => herror i hi e ((hitem i).symm.trans he)⟩
  exact exists_congr hfinishes

end J2kNative.IteratorRuns
