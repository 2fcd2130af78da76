import Mathlib.Data.List.Sort
import Mathlib.Data.List.Lex
import Mathlib.Order.Monotone.Basic

/-!
# Lists enumerated in the order of a key

A key is a list of numbers, compared lexicographically, as tuples of fields are.
Sorting by a key of distinct elements gives the one strictly increasing list of
them. Two such enumerations of the same elements under different keys agree
exactly when the keys order every pair alike. Nested loops enumerate their values
by the counters.
-/
namespace J2kNative.KeyedLists

variable {α σ : Type*}

/-- `sort_by_key`: stable, and by insertion so that it evaluates. -/
def sortByKey (key : α → List ℕ) (l : List α) : List α :=
  l.insertionSort fun a b => key a ≤ key b

/-- Listed in strictly increasing order of the key. -/
def Enumerated (key : α → List ℕ) (l : List α) : Prop := l.Pairwise fun a b => key a < key b

theorem mem_sortByKey {key : α → List ℕ} {l : List α} {a : α} : a ∈ sortByKey key l ↔ a ∈ l :=
  List.mem_insertionSort _

theorem sortByKey_enumerated {key : α → List ℕ} {l : List α} (hnodup : (l.map key).Nodup) :
    Enumerated key (sortByKey key l) := by
  have : Std.Total fun a b => key a ≤ key b := ⟨fun a b => le_total (key a) (key b)⟩
  have : IsTrans α fun a b => key a ≤ key b := ⟨fun _ _ _ => le_trans⟩
  have hle := List.pairwise_insertionSort (fun a b => key a ≤ key b) l
  have hne : (sortByKey key l).Pairwise fun a b => key a ≠ key b := by
    refine List.pairwise_map.mp ?_
    exact ((List.perm_insertionSort _ l).map key).nodup_iff.mpr hnodup
  exact hle.imp₂ (fun _ _ h hne => lt_of_le_of_ne h hne) hne

theorem Enumerated.eq_of_mem_iff {key : α → List ℕ} {l l' : List α} (h : Enumerated key l)
    (h' : Enumerated key l') (hmem : ∀ a, a ∈ l ↔ a ∈ l') : l = l' := by
  have : Std.Irrefl fun a b => key a < key b := ⟨fun _ => lt_irrefl _⟩
  have : Std.Antisymm fun a b => key a < key b :=
    ⟨fun _ _ hab hba => absurd hba (lt_asymm hab)⟩
  exact List.Pairwise.eq_of_mem_iff h h' hmem

/-- Two enumerations of the same elements. -/
theorem Enumerated.eq_iff {key key' : α → List ℕ} {l l' : List α} (h : Enumerated key l)
    (h' : Enumerated key' l') (hmem : ∀ a, a ∈ l ↔ a ∈ l') :
    l = l' ↔ ∀ a ∈ l, ∀ b ∈ l, key a < key b → key' a < key' b := by
  constructor
  · rintro rfl
    have hforward : l.Pairwise fun a b => key a < key b → key' a < key' b := by
      refine List.Pairwise.imp ?_ h'
      intro a b hk' _
      exact hk'
    have hbackward : l.Pairwise fun a b => key b < key a → key' b < key' a := by
      refine List.Pairwise.imp ?_ h
      intro a b hk hba
      exact absurd hba (lt_asymm hk)
    intro a ha b hb
    exact List.Pairwise.forall_of_forall_of_flip (fun x _ hx => absurd hx (lt_irrefl _))
      hforward hbackward ha hb
  · intro hpairs
    have hl : Enumerated key' l := h.imp_of_mem fun ha hb hab => hpairs _ ha _ hb hab
    exact hl.eq_of_mem_iff h' hmem

/-! ## Keys made of blocks of fields -/

theorem append_lt_append_iff {s t u v : List ℕ} (h : s.length = t.length) :
    s ++ u < t ++ v ↔ s < t ∨ s = t ∧ u < v := by
  induction s generalizing t with
  | nil =>
      obtain rfl : t = [] := List.eq_nil_of_length_eq_zero h.symm
      simp
  | cons a s ih =>
      cases t with
      | nil => cases h
      | cons b t =>
          have hlen : s.length = t.length := Nat.succ.inj h
          rw [List.cons_append, List.cons_append, List.cons_lt_cons_iff, List.cons_lt_cons_iff,
            ih hlen, List.cons.injEq]
          tauto

/-! ## Nested loops -/

/-- The values of an inner loop, keyed by their counter. -/
theorem enumerated_map {key : α → List ℕ} {f : ℕ → α} {counters : List ℕ}
    (hcounters : counters.Pairwise (· < ·)) (hkey : ∀ i, key (f i) = [i]) :
    Enumerated key (counters.map f) := by
  refine List.pairwise_map.mpr (hcounters.imp ?_)
  intro a b hab
  rw [hkey, hkey]
  exact List.cons_lt_cons_iff.mpr (.inl hab)

/-- An outer loop puts its counter in front of the key. -/
theorem enumerated_flatMap {key k : α → List ℕ} {f : ℕ → List α} {counters : List ℕ}
    (hcounters : counters.Pairwise (· < ·)) (hkey : ∀ i, ∀ a ∈ f i, key a = i :: k a)
    (hf : ∀ i, Enumerated k (f i)) : Enumerated key (counters.flatMap f) := by
  refine List.pairwise_flatMap.mpr ⟨fun i _ => (hf i).imp_of_mem ?_, hcounters.imp ?_⟩
  · intro a b ha hb hab
    rw [hkey i a ha, hkey i b hb]
    exact List.cons_lt_cons_iff.mpr (.inr ⟨rfl, hab⟩)
  · intro i j hij a ha b hb
    rw [hkey i a ha, hkey j b hb]
    exact List.cons_lt_cons_iff.mpr (.inl hij)

theorem enumerated_map_range {key : α → List ℕ} {f : ℕ → α} (hkey : ∀ i, key (f i) = [i]) (n : ℕ) :
    Enumerated key ((List.range n).map f) :=
  enumerated_map List.pairwise_lt_range hkey

theorem enumerated_flatMap_range {key k : α → List ℕ} {f : ℕ → List α}
    (hkey : ∀ i, ∀ a ∈ f i, key a = i :: k a) (hf : ∀ i, Enumerated k (f i)) (n : ℕ) :
    Enumerated key ((List.range n).flatMap f) :=
  enumerated_flatMap List.pairwise_lt_range hkey hf

theorem Enumerated.nodup {key : α → List ℕ} {l : List α} (h : Enumerated key l) : l.Nodup := by
  refine h.imp ?_
  rintro a b hab rfl
  exact absurd hab (lt_irrefl _)

end J2kNative.KeyedLists
