import J2kNative.Fallible
import Mathlib.Data.List.Forall2

/-!
# Passes over selected cells

An in-place pass changes some cells of a list with a fallible function, each of them
once, and keeps the others. A pass that may come to a cell several times marks the
cells that it has changed; a pass that comes to every cell once needs no marks.
-/
namespace J2kNative.SelectedCells
open Fallible

variable {ε α : Type} {f : α → Except ε α} {e : ε} {l l' : List α} {sel sel' : ℕ → Prop}

/-- `l'` is `l` with `f` applied once to the selected cells. -/
structure Rewritten (f : α → Except ε α) (sel : ℕ → Prop) (l l' : List α) : Prop where
  length_eq : l'.length = l.length
  selected : ∀ i c, sel i → l[i]? = some c → ∃ c', f c = .ok c' ∧ l'[i]? = some c'
  kept : ∀ i, ¬sel i → l'[i]? = l[i]?

theorem Rewritten.refl (f : α → Except ε α) (l : List α) : Rewritten f (fun _ => False) l l :=
  ⟨rfl,fun _ _ h => h.elim,fun _ _ => rfl⟩

theorem Rewritten.congr (h : Rewritten f sel l l') (hsel : ∀ i < l.length, sel i ↔ sel' i) :
    Rewritten f sel' l l' := by
  refine ⟨h.length_eq,fun i c hi hc => ?_,fun i hi => ?_⟩
  · exact h.selected i c ((hsel i (List.getElem?_eq_some_iff.mp hc).1).mpr hi) hc
  · rcases Nat.lt_or_ge i l.length with hlt | hge
    · exact h.kept i (mt (hsel i hlt).mp hi)
    · rw [List.getElem?_eq_none hge,List.getElem?_eq_none (h.length_eq ▸ hge)]

/-- Changing one more cell. -/
theorem Rewritten.set (h : Rewritten f sel l l') {i : ℕ} (hnew : ¬sel i) {c c' : α}
    (hc : l'[i]? = some c) (hf : f c = .ok c') :
    Rewritten f (fun j => sel j ∨ j = i) l (l'.set i c') := by
  have hi : i < l'.length := (List.getElem?_eq_some_iff.mp hc).1
  refine ⟨by rw [List.length_set,h.length_eq],fun j d hj hd => ?_,fun j hj => ?_⟩
  · rcases eq_or_ne i j with rfl | hne
    · rw [h.kept i hnew,hd] at hc
      cases hc
      exact ⟨c',hf,List.getElem?_set_self hi⟩
    · rw [List.getElem?_set_ne hne]
      exact h.selected j d (hj.resolve_right hne.symm) hd
  · have hne : i ≠ j := fun heq => hj (.inr heq.symm)
    rw [List.getElem?_set_ne hne]
    exact h.kept j fun hsel => hj (.inl hsel)

/-! ## Every cell once -/

/-- Changes one cell; `e` is the error of a cell that is not there. -/
def updateAt (f : α → Except ε α) (e : ε) (l : List α) (i : ℕ) : Except ε (List α) :=
  match l[i]? with
  | none => .error e
  | some c => do
    let c' ← f c
    pure (l.set i c')

theorem updateAt_eq_ok {i : ℕ} : updateAt f e l i = .ok l' ↔
    ∃ c c', l[i]? = some c ∧ f c = .ok c' ∧ l' = l.set i c' := by
  unfold updateAt
  cases l[i]? with
  | none => simp
  | some c =>
      constructor
      · intro h
        obtain ⟨c',hc',h⟩ := bind_eq_ok.mp h
        cases h
        exact ⟨c,c',rfl,hc',rfl⟩
      · rintro ⟨d,c',hd,hc',rfl⟩
        cases hd
        exact bind_eq_ok.mpr ⟨c',hc',rfl⟩

theorem rewritten_range (pick : ℕ → Bool) (n : ℕ)
    (h : (List.range n).foldlM (fun l i => if pick i then updateAt f e l i else .ok l) l = .ok l') :
    Rewritten f (fun i => i < n ∧ pick i) l l' := by
  induction n generalizing l' with
  | zero =>
      cases h
      exact (Rewritten.refl f l).congr fun i _ => by simp
  | succ n ih =>
      rw [List.range_succ,List.foldlM_append] at h
      obtain ⟨l₁,hl₁,h⟩ := bind_eq_ok.mp h
      rw [List.foldlM_cons] at h
      obtain ⟨l₂,hl₂,h⟩ := bind_eq_ok.mp h
      cases h
      have hbefore := ih hl₁
      cases hpick : pick n with
      | false =>
          rw [hpick] at hl₂
          cases hl₂
          refine hbefore.congr fun i _ => ?_
          rcases eq_or_ne i n with rfl | hne
          · simp [hpick]
          · exact and_congr_left' (by omega)
      | true =>
          rw [hpick] at hl₂
          obtain ⟨c,c',hc,hc',rfl⟩ := updateAt_eq_ok.mp hl₂
          refine (hbefore.set (fun hlt => Nat.lt_irrefl n hlt.1) hc hc').congr fun i _ => ?_
          rcases eq_or_ne i n with rfl | hne
          · simp [hpick]
          · rw [or_iff_left hne]
            exact and_congr_left' (by omega)

theorem rewritten_mapM (h : l.mapM f = .ok l') : Rewritten f (fun _ => True) l l' := by
  have hall := mapM_forall₂ h
  refine ⟨hall.length_eq.symm,fun i c _ hc => ?_,fun i hi => absurd trivial hi⟩
  obtain ⟨hi,rfl⟩ := List.getElem?_eq_some_iff.mp hc
  have hi' : i < l'.length := hall.length_eq ▸ hi
  exact ⟨l'[i],hall.get hi hi',List.getElem?_eq_getElem hi'⟩

/-! ## Cells that may come again -/

/-- Changes a cell that is not marked yet, and marks it. -/
def visit (f : α → Except ε α) (e : ε) (s : List α × List Bool) (i : ℕ) :
    Except ε (List α × List Bool) :=
  match s.2[i]? with
  | none => .error e
  | some true => .ok s
  | some false => do
    let l ← updateAt f e s.1 i
    pure (l,s.2.set i true)

/-- The marks are those of the changed cells. -/
structure Marked (f : α → Except ε α) (sel : ℕ → Prop) (l : List α) (s : List α × List Bool) :
    Prop where
  rewritten : Rewritten f sel l s.1
  length_eq : s.2.length = l.length
  mark : ∀ (i : ℕ) b, s.2[i]? = some b → (b = true ↔ sel i)

theorem Marked.start (f : α → Except ε α) (l : List α) :
    Marked f (fun _ => False) l (l,List.replicate l.length false) := by
  refine ⟨Rewritten.refl f l,List.length_replicate,fun i b hb => ?_⟩
  obtain ⟨_,rfl⟩ := List.getElem?_eq_some_iff.mp hb
  simp

theorem Marked.visit {s s' : List α × List Bool} {i : ℕ} (h : Marked f sel l s)
    (hs : visit f e s i = .ok s') : Marked f (fun j => sel j ∨ j = i) l s' := by
  unfold SelectedCells.visit at hs
  split at hs
  · cases hs
  next hmark =>
    cases hs
    have hi : sel i := (h.mark i true hmark).mp rfl
    have hsame (j : ℕ) : sel j ↔ sel j ∨ j = i := by
      refine ⟨.inl,fun hj => hj.elim id ?_⟩
      rintro rfl
      exact hi
    exact ⟨h.rewritten.congr fun j _ => hsame j,h.length_eq,
      fun j b hb => (h.mark j b hb).trans (hsame j)⟩
  next hmark =>
    have hi : ¬sel i := fun hsel => Bool.false_ne_true ((h.mark i false hmark).mpr hsel)
    obtain ⟨l₁,hl₁,hs⟩ := bind_eq_ok.mp hs
    cases hs
    obtain ⟨c,c',hc,hc',rfl⟩ := updateAt_eq_ok.mp hl₁
    refine ⟨h.rewritten.set hi hc hc',by rw [List.length_set,h.length_eq],fun j b hb => ?_⟩
    rcases eq_or_ne i j with rfl | hne
    · rw [List.getElem?_set_self (List.getElem?_eq_some_iff.mp hmark).1] at hb
      cases hb
      simp
    · rw [List.getElem?_set_ne hne] at hb
      rw [h.mark j b hb,or_iff_left hne.symm]

theorem Marked.foldlM {s s' : List α × List Bool} {cells : List ℕ} (h : Marked f sel l s)
    (hs : cells.foldlM (SelectedCells.visit f e) s = .ok s') :
    Marked f (fun j => sel j ∨ j ∈ cells) l s' := by
  induction cells generalizing s sel with
  | nil =>
      cases hs
      simpa using h
  | cons i cells ih =>
      rw [List.foldlM_cons] at hs
      obtain ⟨s₁,hs₁,hs⟩ := bind_eq_ok.mp hs
      have hrest := ih (h.visit hs₁) hs
      simpa only [or_assoc,List.mem_cons] using hrest

/-- A pass whose function does not fail comes to its end. -/
theorem Marked.exists_foldlM (hf : ∀ c, ∃ c', f c = .ok c') {s : List α × List Bool}
    {cells : List ℕ} (hcells : ∀ i ∈ cells, i < l.length) (h : Marked f sel l s) :
    ∃ s', cells.foldlM (SelectedCells.visit f e) s = .ok s' := by
  induction cells generalizing s sel with
  | nil => exact ⟨s,rfl⟩
  | cons i cells ih =>
      have hi : i < l.length := hcells i List.mem_cons_self
      have hvisit : ∃ s₁, SelectedCells.visit f e s i = .ok s₁ := by
        unfold SelectedCells.visit
        have hflag : i < s.2.length := h.length_eq ▸ hi
        rw [List.getElem?_eq_getElem hflag]
        cases s.2[i] with
        | true => exact ⟨s,rfl⟩
        | false =>
            have hlen : i < s.1.length := h.rewritten.length_eq ▸ hi
            obtain ⟨c',hc'⟩ := hf s.1[i]
            exact ⟨_,bind_eq_ok.mpr
              ⟨_,updateAt_eq_ok.mpr ⟨_,c',List.getElem?_eq_getElem hlen,hc',rfl⟩,rfl⟩⟩
      obtain ⟨s₁,hs₁⟩ := hvisit
      obtain ⟨s',hs'⟩ := ih (fun i hi => hcells i (List.mem_cons_of_mem _ hi)) (h.visit hs₁)
      exact ⟨s',by rw [List.foldlM_cons,hs₁,ok_bind,hs']⟩

end J2kNative.SelectedCells
