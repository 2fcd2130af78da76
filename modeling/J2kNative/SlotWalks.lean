import Mathlib.Data.List.Basic
import Mathlib.Data.Nat.Notation

/-!
# Iterators that walk through slots

An iterator with nested counters stands in one slot after another and yields the
items of each. Moving to the next slot looks up how many items it holds, which may
panic; slots without items are passed over. Run to its end it yields the items of
all slots in turn, or it panics on the way.
-/
namespace J2kNative.SlotWalks

variable {α σ ι : Type*}

/-- What a call, or a turn of the loop in it, comes to. -/
inductive Outcome (α : Type*) where
  | panicked
  | exhausted
  | yielded (value : α)
  deriving DecidableEq, Repr

/-- The items of an iterator; `none` when a call panics or the fuel is spent first. -/
def collect (next : σ → Outcome (α × σ)) : ℕ → σ → Option (List α)
  | 0, _ => none
  | fuel + 1, s =>
      match next s with
      | .panicked => none
      | .exhausted => some []
      | .yielded (a, s') => (collect next fuel s').map (a :: ·)

/-- A slot, the position in it and the number of its items. -/
structure Cursor (ι : Type*) where
  slot : ι
  position : ℕ
  count : ℕ
  deriving DecidableEq, Repr

/-- Arrival in a slot, whose items are counted by `enter`. -/
def arrive (enter : ι → Option ℕ) (slot : ι) : Outcome (Cursor ι) :=
  match enter slot with
  | none => .panicked
  | some count => .yielded ⟨slot, 0, count⟩

/-- The inner loop, which turns until it finds a slot with items. -/
def advance (turn : Cursor ι → Outcome (Cursor ι)) : ℕ → Cursor ι → Outcome (Cursor ι)
  | 0, _ => .panicked
  | fuel + 1, s =>
      match turn s with
      | .panicked => .panicked
      | .exhausted => .exhausted
      | .yielded s' => if s'.count ≠ 0 then .yielded s' else advance turn fuel s'

/-- A call: the next item of the slot, or the first of a later one; `ends` is the test
made before. -/
def nextItem (ends : ι → Bool) (item : ι → ℕ → α) (turn : Cursor ι → Outcome (Cursor ι))
    (turns : ℕ) (s : Cursor ι) : Outcome (α × Cursor ι) :=
  if ends s.slot then .exhausted
  else
    match (if s.position = s.count then advance turn turns s else .yielded s) with
    | .panicked => .panicked
    | .exhausted => .exhausted
    | .yielded s => .yielded (item s.slot s.position, { s with position := s.position + 1 })

/-- The turns from `slot` on lead through `rest` and then end, unless a slot panics. -/
def Follows (ends : ι → Bool) (turn : Cursor ι → Outcome (Cursor ι)) (enter : ι → Option ℕ) :
    ι → List ι → Prop
  | slot, [] => ends slot = false ∧ ∀ p n, turn ⟨slot, p, n⟩ = .exhausted
  | slot, next :: rest => ends slot = false ∧ (∀ p n, turn ⟨slot, p, n⟩ = arrive enter next) ∧
      (enter next ≠ none → Follows ends turn enter next rest)

/-- The items of a slot from a position on. -/
def itemsFrom (item : ι → ℕ → α) (slot : ι) (position count : ℕ) : List α :=
  (List.range' position (count - position)).map (item slot)

/-- The items of the slots in turn; `none` when a slot is not to be entered. -/
def slotItems (item : ι → ℕ → α) (enter : ι → Option ℕ) : List ι → Option (List α)
  | [] => some []
  | slot :: rest => (enter slot).bind fun count =>
      (slotItems item enter rest).map (itemsFrom item slot 0 count ++ ·)

section
variable {ends : ι → Bool} {item : ι → ℕ → α} {turn : Cursor ι → Outcome (Cursor ι)}
variable {enter : ι → Option ℕ}

theorem itemsFrom_cons {p n : ℕ} (slot : ι) (h : p < n) :
    itemsFrom item slot p n = item slot p :: itemsFrom item slot (p + 1) n := by
  unfold itemsFrom
  rw [show n - p = n - (p + 1) + 1 by omega, List.range'_succ, List.map_cons]

@[simp] theorem itemsFrom_self (slot : ι) (n : ℕ) : itemsFrom item slot n n = [] := by
  simp [itemsFrom]

/-- All slots are entered, or there are no items. -/
theorem slotItems_eq_some_iff {slots : List ι} {l : List α} :
    slotItems item enter slots = some l ↔ (∀ slot ∈ slots, enter slot ≠ none) ∧
      l = slots.flatMap fun slot => itemsFrom item slot 0 ((enter slot).getD 0) := by
  induction slots generalizing l with
  | nil => simp [slotItems, eq_comm]
  | cons slot slots ih =>
      rw [slotItems, List.forall_mem_cons, List.flatMap_cons]
      cases hslot : enter slot with
      | none => simp
      | some count =>
          simp only [Option.bind_some, Option.map_eq_some_iff, ih]
          constructor
          · rintro ⟨_, ⟨hall, rfl⟩, rfl⟩
            exact ⟨⟨by simp, hall⟩, rfl⟩
          · rintro ⟨⟨-, hall⟩, rfl⟩
            exact ⟨_, ⟨hall, rfl⟩, rfl⟩

theorem Follows.ends_eq {s : ι} {rest : List ι} (h : Follows ends turn enter s rest) :
    ends s = false := by
  cases rest with
  | nil => exact h.1
  | cons t rest => exact h.1

/-- What passing over the empty slots leads to. -/
theorem advance_spec {rest : List ι} {turns : ℕ} (hturns : rest.length < turns) {s : ι} {p n : ℕ}
    (h : Follows ends turn enter s rest) :
    (advance turn turns ⟨s, p, n⟩ = .panicked ∧ slotItems item enter rest = none) ∨
      (advance turn turns ⟨s, p, n⟩ = .exhausted ∧ slotItems item enter rest = some []) ∨
      ∃ t m rest', advance turn turns ⟨s, p, n⟩ = .yielded ⟨t, 0, m + 1⟩ ∧
        Follows ends turn enter t rest' ∧ rest'.length < rest.length ∧
        slotItems item enter rest =
          (slotItems item enter rest').map (itemsFrom item t 0 (m + 1) ++ ·) := by
  induction rest generalizing turns s p n with
  | nil =>
      obtain ⟨turns, rfl⟩ := Nat.exists_eq_add_of_lt hturns
      refine .inr (.inl ⟨?_, rfl⟩)
      rw [advance, h.2 p n]
  | cons t rest ih =>
      obtain ⟨turns, rfl⟩ : ∃ k, turns = k + 1 := ⟨turns - 1, by omega⟩
      obtain ⟨-, hturn, hrest⟩ := h
      rw [advance, hturn p n, slotItems, arrive]
      cases ht : enter t with
      | none => exact .inl ⟨rfl, rfl⟩
      | some m =>
          have hrest := hrest (by rw [ht]; simp)
          cases m with
          | zero =>
              rw [List.length_cons] at hturns
              have hitems : ((some 0).bind fun count => (slotItems item enter rest).map
                  (itemsFrom item t 0 count ++ ·)) = slotItems item enter rest := by
                cases slotItems item enter rest <;> simp
              rw [hitems]
              rcases ih (Nat.lt_of_succ_lt_succ hturns) hrest (p := 0) (n := 0) with
                h | h | ⟨u, m, rest', h, hu, hlen, hs⟩
              · exact .inl h
              · exact .inr (.inl h)
              · exact .inr (.inr ⟨u, m, rest', h, hu, by rw [List.length_cons]; omega, hs⟩)
          | succ m => exact .inr (.inr ⟨t, m, rest, rfl, hrest, by simp, rfl⟩)

/-- Run to its end the iterator yields the items of all slots, and it ends when none of
them panics. -/
theorem collect_nextItem_iff {turns fuel : ℕ} {rest : List ι} (hturns : rest.length < turns)
    {s : ι} {p n : ℕ} (hp : p ≤ n) (h : Follows ends turn enter s rest) {l : List α} :
    collect (nextItem ends item turn turns) fuel ⟨s, p, n⟩ = some l ↔
      (slotItems item enter rest).map (itemsFrom item s p n ++ ·) = some l ∧ l.length < fuel := by
  induction fuel generalizing s p n rest l with
  | zero => simp [collect]
  | succ fuel ih =>
      have hyield {t : ι} {q m : ℕ} {rest' : List ι} (hq : q < m) (hlen : rest'.length < turns)
          (ht : Follows ends turn enter t rest')
          (hcall : nextItem ends item turn turns ⟨s, p, n⟩ = .yielded (item t q, ⟨t, q + 1, m⟩))
          (hitems : (slotItems item enter rest).map (itemsFrom item s p n ++ ·) =
            (slotItems item enter rest').map (itemsFrom item t q m ++ ·)) :
          collect (nextItem ends item turn turns) (fuel + 1) ⟨s, p, n⟩ = some l ↔
            (slotItems item enter rest).map (itemsFrom item s p n ++ ·) = some l ∧
              l.length < fuel + 1 := by
        rw [collect, hcall, hitems, itemsFrom_cons t hq]
        cases l with
        | nil =>
            refine iff_of_false (fun h => ?_) fun h => ?_
            · obtain ⟨_, -, h⟩ := Option.map_eq_some_iff.mp h
              cases h
            · obtain ⟨_, -, h⟩ := Option.map_eq_some_iff.mp h.1
              cases h
        | cons a l =>
            have hstep := ih hlen hq ht (l := l)
            simp only [Option.map_eq_some_iff, List.cons_append, List.cons.injEq, List.length_cons,
              Nat.add_lt_add_iff_right] at hstep ⊢
            constructor
            · rintro ⟨l', hl', rfl, rfl⟩
              obtain ⟨⟨items, hi, heq⟩, hlt⟩ := hstep.mp hl'
              exact ⟨⟨items, hi, rfl, heq⟩, hlt⟩
            · rintro ⟨⟨items, hi, rfl, heq⟩, hlt⟩
              exact ⟨l, hstep.mpr ⟨⟨items, hi, heq⟩, hlt⟩, rfl, rfl⟩
      have hends : ¬ ends s = true := by
        rw [h.ends_eq]
        decide
      by_cases hpn : p < n
      · refine hyield hpn hturns h ?_ rfl
        unfold nextItem
        rw [if_neg hends, if_neg (Nat.ne_of_lt hpn)]
      · obtain rfl : p = n := by omega
        rcases advance_spec hturns h (p := p) (n := p) with
          ⟨hadv, hitems⟩ | ⟨hadv, hitems⟩ | ⟨t, m, rest', hadv, ht, hlen, hitems⟩
        · rw [collect, nextItem, if_neg hends, if_pos rfl, hadv, hitems]
          simp
        · rw [collect, nextItem, if_neg hends, if_pos rfl, hadv, hitems]
          constructor
          · rintro ⟨⟩
            simp
          · rintro ⟨hl, -⟩
            simpa using hl
        · refine hyield (Nat.succ_pos m) (by omega) ht ?_ ?_
          · rw [nextItem, if_neg hends, if_pos rfl, hadv]
          · rw [hitems, itemsFrom_self]
            cases slotItems item enter rest' <;> simp

end

/-! ## Three nested counters -/

section
variable (A B C : ℕ × ℕ)

/-- The values of a counter with bounds `A`, the upper one exclusive. -/
def counter : List ℕ := List.range' A.1 (A.2 - A.1)

/-- The values of three nested counters, the last one innermost. -/
def counters : List (ℕ × ℕ × ℕ) :=
  (counter A).flatMap fun o => (counter B).flatMap fun m => (counter C).map fun c => (o, m, c)

/-- What the counters hold after one turn. -/
def successor (s : ℕ × ℕ × ℕ) : Option (ℕ × ℕ × ℕ) :=
  if s.2.2 + 1 = C.2 then
    if s.2.1 + 1 = B.2 then
      if s.1 + 1 = A.2 then none else some (s.1 + 1, B.1, C.1)
    else some (s.1, s.2.1 + 1, C.1)
  else some (s.1, s.2.1, s.2.2 + 1)

/-- The values that the counters take after `s`. -/
def countersAfter (s : ℕ × ℕ × ℕ) : List (ℕ × ℕ × ℕ) :=
  (counter (s.2.2 + 1, C.2)).map (fun c => (s.1, s.2.1, c)) ++
    ((counter (s.2.1 + 1, B.2)).flatMap (fun m => (counter C).map fun c => (s.1, m, c)) ++
      (counter (s.1 + 1, A.2)).flatMap fun o =>
        (counter B).flatMap fun m => (counter C).map fun c => (o, m, c))

end

section
variable {A B C : ℕ × ℕ}

theorem mem_counter {i : ℕ} : i ∈ counter A ↔ A.1 ≤ i ∧ i < A.2 := by
  unfold counter
  rw [List.mem_range'_1]
  omega

theorem counter_pairwise (A : ℕ × ℕ) : (counter A).Pairwise (· < ·) := List.pairwise_lt_range'

theorem counter_cons (h : A.1 < A.2) : counter A = A.1 :: counter (A.1 + 1, A.2) := by
  unfold counter
  rw [show A.2 - A.1 = A.2 - (A.1 + 1) + 1 by omega, List.range'_succ]

theorem map_counter (h : A.1 < A.2) (f : ℕ → α) :
    (counter A).map f = f A.1 :: (counter (A.1 + 1, A.2)).map f := by
  rw [counter_cons h, List.map_cons]

theorem flatMap_counter (h : A.1 < A.2) (f : ℕ → List α) :
    (counter A).flatMap f = f A.1 ++ (counter (A.1 + 1, A.2)).flatMap f := by
  rw [counter_cons h, List.flatMap_cons]

theorem counter_nil (h : A.2 ≤ A.1) : counter A = [] := by
  unfold counter
  rw [Nat.sub_eq_zero_of_le h, List.range'_zero]

theorem mem_counters {o m c : ℕ} : (o, m, c) ∈ counters A B C ↔
    (A.1 ≤ o ∧ o < A.2) ∧ (B.1 ≤ m ∧ m < B.2) ∧ C.1 ≤ c ∧ c < C.2 := by
  simp only [counters, List.mem_flatMap, List.mem_map, mem_counter, Prod.mk.injEq]
  constructor
  · rintro ⟨_, ho, _, hm, _, hc, rfl, rfl, rfl⟩
    exact ⟨ho, hm, hc⟩
  · rintro ⟨ho, hm, hc⟩
    exact ⟨o, ho, m, hm, c, hc, rfl, rfl, rfl⟩

theorem counters_cons (hA : A.1 < A.2) (hB : B.1 < B.2) (hC : C.1 < C.2) :
    counters A B C = (A.1, B.1, C.1) :: countersAfter A B C (A.1, B.1, C.1) := by
  unfold counters countersAfter
  rw [flatMap_counter hA, flatMap_counter hB, map_counter hC, List.cons_append, List.cons_append,
    List.append_assoc]

theorem countersAfter_of_some {s t : ℕ × ℕ × ℕ} (hB : B.1 < B.2) (hC : C.1 < C.2)
    (hs : s.1 < A.2 ∧ s.2.1 < B.2 ∧ s.2.2 < C.2) (h : successor A B C s = some t) :
    countersAfter A B C s = t :: countersAfter A B C t ∧
      t.1 < A.2 ∧ t.2.1 < B.2 ∧ t.2.2 < C.2 := by
  obtain ⟨o, m, c⟩ := s
  obtain ⟨ho, hm, hc⟩ := hs
  dsimp only at ho hm hc
  unfold successor at h
  unfold countersAfter
  dsimp only at h ⊢
  split_ifs at h with h1 h2 h3
  · cases h
    refine ⟨?_, by dsimp only; omega, hB, hC⟩
    rw [counter_nil (A := (c + 1, C.2)) (by dsimp only; omega),
      counter_nil (A := (m + 1, B.2)) (by dsimp only; omega),
      flatMap_counter (A := (o + 1, A.2)) (by dsimp only; omega), flatMap_counter hB,
      map_counter hC]
    simp
  · cases h
    refine ⟨?_, ho, by dsimp only; omega, hC⟩
    rw [counter_nil (A := (c + 1, C.2)) (by dsimp only; omega),
      flatMap_counter (A := (m + 1, B.2)) (by dsimp only; omega), map_counter hC]
    simp
  · cases h
    refine ⟨?_, ho, hm, by dsimp only; omega⟩
    rw [map_counter (A := (c + 1, C.2)) (by dsimp only; omega), List.cons_append]

theorem countersAfter_of_none {s : ℕ × ℕ × ℕ} (h : successor A B C s = none) :
    countersAfter A B C s = [] := by
  unfold successor at h
  unfold countersAfter
  split_ifs at h with h1 h2 h3
  rw [counter_nil (A := (s.2.2 + 1, C.2)) (Nat.le_of_eq h1.symm),
    counter_nil (A := (s.2.1 + 1, B.2)) (Nat.le_of_eq h2.symm),
    counter_nil (A := (s.1 + 1, A.2)) (Nat.le_of_eq h3.symm)]
  rfl

/-- Turns that count lead through the counters' values. -/
theorem follows_counters {ends : ι → Bool} {turn : Cursor ι → Outcome (Cursor ι)}
    {enter : ι → Option ℕ} {slot : ℕ × ℕ × ℕ → ι} (hB : B.1 < B.2) (hC : C.1 < C.2)
    (hends : ∀ s : ℕ × ℕ × ℕ, s.1 < A.2 ∧ s.2.1 < B.2 ∧ s.2.2 < C.2 → ends (slot s) = false)
    (hturn : ∀ s p n, turn ⟨slot s, p, n⟩ = match successor A B C s with
      | none => .exhausted
      | some t => arrive enter (slot t))
    {s : ℕ × ℕ × ℕ} (hs : s.1 < A.2 ∧ s.2.1 < B.2 ∧ s.2.2 < C.2) :
    Follows ends turn enter (slot s) ((countersAfter A B C s).map slot) := by
  induction h : (countersAfter A B C s).length generalizing s with
  | zero =>
      rw [List.length_eq_zero_iff.mp h]
      refine ⟨hends s hs, fun p n => ?_⟩
      rw [hturn s p n]
      cases hnext : successor A B C s with
      | none => rfl
      | some t =>
          rw [(countersAfter_of_some hB hC hs hnext).1] at h
          cases h
  | succ k ih =>
      cases hnext : successor A B C s with
      | none =>
          rw [countersAfter_of_none hnext] at h
          cases h
      | some t =>
          obtain ⟨heq, ht⟩ := countersAfter_of_some hB hC hs hnext
          rw [heq, List.length_cons] at h
          rw [heq]
          refine ⟨hends s hs, fun p n => ?_, fun _ => ih ht (Nat.succ.inj h)⟩
          rw [hturn s p n, hnext]

end

end J2kNative.SlotWalks
