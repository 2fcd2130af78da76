import Mathlib.Data.Nat.Notation

/-!
# Computations in lockstep

Two fallible computations over one state that fail together, or succeed and leave
the same state. Their results are of different types and a relation connects them.
-/
namespace J2kNative

universe u
variable {σ ε α β γ δ : Type u}

theorem run_bind_ok {m : StateT σ (Except ε) α} {f : α → StateT σ (Except ε) γ} {s s' : σ} {a : α}
    (h : m s = .ok (a,s')) : (m >>= f) s = f a s' := by
  show (m s >>= fun p => f p.1 p.2) = _
  rw [h]
  rfl

theorem run_bind_error {m : StateT σ (Except ε) α} {f : α → StateT σ (Except ε) γ} {s : σ} {e : ε}
    (h : m s = .error e) : (m >>= f) s = .error e := by
  show (m s >>= fun p => f p.1 p.2) = _
  rw [h]
  rfl

/-- A counted loop whose first turn fails. -/
theorem run_foldlM_range_error {f : α → ℕ → StateT σ (Except ε) α} {n : ℕ} (hn : 0 < n) {a : α}
    {s : σ} {e : ε} (h : f a 0 s = .error e) : (List.range n).foldlM f a s = .error e := by
  obtain ⟨m,rfl⟩ := Nat.exists_eq_succ_of_ne_zero (Nat.ne_of_gt hn)
  rw [List.range_succ_eq_map,List.foldlM_cons]
  exact run_bind_error h

/-- A counted loop whose second turn fails. -/
theorem run_foldlM_range_error_second {f : α → ℕ → StateT σ (Except ε) α} {n : ℕ} (hn : 2 ≤ n)
    {a b : α} {s s' : σ} {e : ε} (hfirst : f a 0 s = .ok (b,s')) (h : f b 1 s' = .error e) :
    (List.range n).foldlM f a s = .error e := by
  obtain ⟨m,rfl⟩ := Nat.exists_eq_add_of_le' hn
  rw [List.range_succ_eq_map,List.range_succ_eq_map,List.foldlM_cons,List.map_cons]
  refine (run_bind_ok hfirst).trans ?_
  rw [List.foldlM_cons]
  exact run_bind_error h

/-- On every state both fail alike, or both leave one state and related results. -/
def Lockstep (R : α → β → Prop) (m : StateT σ (Except ε) α) (m' : StateT σ (Except ε) β) : Prop :=
  ∀ s, (∃ a b s', m s = .ok (a,s') ∧ m' s = .ok (b,s') ∧ R a b) ∨
    ∃ e, m s = .error e ∧ m' s = .error e

namespace Lockstep

variable {R : α → β → Prop} {S : γ → δ → Prop}

theorem pure {a : α} {b : β} (h : R a b) :
    @Lockstep σ ε α β R (Pure.pure a) (Pure.pure b) :=
  fun s => .inl ⟨a,b,s,rfl,rfl,h⟩

theorem refl (m : StateT σ (Except ε) α) : Lockstep Eq m m := by
  intro s
  cases h : m s with
  | error e => exact .inr ⟨e,rfl,rfl⟩
  | ok p => exact .inl ⟨p.1,p.1,p.2,rfl,rfl,rfl⟩

theorem symm {m : StateT σ (Except ε) α} {m' : StateT σ (Except ε) β} (h : Lockstep R m m') :
    Lockstep (fun b a => R a b) m' m := by
  intro s
  rcases h s with ⟨a,b,s',hm,hm',hR⟩ | ⟨e,hm,hm'⟩
  · exact .inl ⟨b,a,s',hm',hm,hR⟩
  · exact .inr ⟨e,hm',hm⟩

theorem bind {m : StateT σ (Except ε) α} {m' : StateT σ (Except ε) β}
    {f : α → StateT σ (Except ε) γ} {g : β → StateT σ (Except ε) δ} (h : Lockstep R m m')
    (hnext : ∀ a b, R a b → Lockstep S (f a) (g b)) : Lockstep S (m >>= f) (m' >>= g) := by
  intro s
  rcases h s with ⟨a,b,s',hm,hm',hR⟩ | ⟨e,hm,hm'⟩
  · rw [run_bind_ok hm,run_bind_ok hm']
    exact hnext a b hR s'
  · exact .inr ⟨e,run_bind_error hm,run_bind_error hm'⟩

/-- Loops over one list whose turns run in lockstep; the relation knows the items done. -/
theorem foldlM {ι : Type*} {R : List ι → α → β → Prop} {f : α → ι → StateT σ (Except ε) α}
    {g : β → ι → StateT σ (Except ε) β} (l : List ι)
    (hstep : ∀ done, ∀ i ∈ l, ∀ a b, R done a b → Lockstep (R (done ++ [i])) (f a i) (g b i))
    {done : List ι} {a : α} {b : β} (h : R done a b) :
    Lockstep (R (done ++ l)) (l.foldlM f a) (l.foldlM g b) := by
  induction l generalizing done a b with
  | nil =>
      rw [List.append_nil]
      exact pure h
  | cons i l ih =>
      rw [List.foldlM_cons,List.foldlM_cons]
      apply bind (hstep done i List.mem_cons_self a b h)
      intro a b hR
      rw [List.append_cons]
      exact ih (fun done j hj => hstep done j (List.mem_cons_of_mem _ hj)) hR

/-- Counted loops whose turns run in lockstep; the relation may depend on the turn. -/
theorem foldlM_range {R : ℕ → α → β → Prop} {f : α → ℕ → StateT σ (Except ε) α}
    {g : β → ℕ → StateT σ (Except ε) β} (n : ℕ)
    (hstep : ∀ i, i < n → ∀ a b, R i a b → Lockstep (R (i+1)) (f a i) (g b i)) {a : α} {b : β}
    (h : R 0 a b) : Lockstep (R n) ((List.range n).foldlM f a) ((List.range n).foldlM g b) := by
  induction n with
  | zero => exact pure h
  | succ n ih =>
      rw [List.range_succ,List.foldlM_append,List.foldlM_append]
      apply bind (ih fun i hi => hstep i (Nat.lt_succ_of_lt hi))
      intro a b hR
      simp only [List.foldlM_cons,List.foldlM_nil,bind_pure]
      exact hstep n (Nat.lt_succ_self n) a b hR

end Lockstep
end J2kNative
