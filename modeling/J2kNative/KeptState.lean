import Mathlib.Data.Nat.Notation

/-!
# Computations that fail and keep their state

A run ends with a result or with an error, and in a state either way. What it does is said by
a condition on the state before it, one on the result and the state behind it, and one on the
error and the state in which it fails.
-/
namespace J2kNative.KeptState

def Run (σ ε α : Type) := σ → Except ε α × σ

variable {σ ε α β : Type}

/-- The rest of a run, which an error ends. -/
def andThen (f : α → Run σ ε β) : Except ε α × σ → Except ε β × σ
  | (.ok a,s) => f a s
  | (.error e,s) => (.error e,s)

instance : Monad (Run σ ε) where
  pure a := fun s => (.ok a,s)
  bind x f := fun s => andThen f (x s)

namespace Run

def fail (e : ε) : Run σ ε α := fun s => (.error e,s)

def state : Run σ ε σ := fun s => (.ok s,s)

def update (f : σ → σ) : Run σ ε Unit := fun s => (.ok (),f s)

/-- A computation without state. -/
def except (x : Except ε α) : Run σ ε α := fun s => (x,s)

end Run

/-- What holds where a run ends. -/
def Ends (Q : α → σ → Prop) (E : ε → σ → Prop) : Except ε α × σ → Prop
  | (.ok a,s) => Q a s
  | (.error e,s) => E e s

def Triple (P : σ → Prop) (x : Run σ ε α) (Q : α → σ → Prop) (E : ε → σ → Prop) : Prop :=
  ∀ s, P s → Ends Q E (x s)

section
variable {P P' : σ → Prop} {Q Q' : α → σ → Prop} {R : β → σ → Prop} {E : ε → σ → Prop}
  {x : Run σ ε α}

theorem Ends.mono {o : Except ε α × σ} (h : Ends Q' E o) (hQ : ∀ a s, Q' a s → Q a s) :
    Ends Q E o := by
  rcases o with ⟨e | a,s⟩
  · exact h
  · exact hQ a s h

theorem Triple.conseq (h : Triple P' x Q' E) (hP : ∀ s, P s → P' s)
    (hQ : ∀ a s, Q' a s → Q a s) : Triple P x Q E :=
  fun s hs => (h s (hP s hs)).mono hQ

theorem Triple.pre (h : Triple P' x Q E) (hP : ∀ s, P s → P' s) : Triple P x Q E :=
  h.conseq hP fun _ _ => id

theorem Triple.post (h : Triple P x Q' E) (hQ : ∀ a s, Q' a s → Q a s) : Triple P x Q E :=
  h.conseq (fun _ => id) hQ

theorem Triple.bind {f : α → Run σ ε β} (hx : Triple P x Q E) (hf : ∀ a, Triple (Q a) (f a) R E) :
    Triple P (x >>= f) R E := by
  intro s hs
  have h := hx s hs
  change Ends R E (andThen f (x s))
  generalize x s = o at h ⊢
  rcases o with ⟨e | a,s'⟩
  · exact h
  · exact hf a s' h

theorem Triple.pure {a : α} (h : ∀ s, P s → Q a s) : Triple P (pure a : Run σ ε α) Q E := h

theorem Triple.fail {e : ε} (h : ∀ s, P s → E e s) : Triple P (Run.fail e) Q E := h

theorem Triple.update {f : σ → σ} {Q : Unit → σ → Prop} (h : ∀ s, P s → Q () (f s)) :
    Triple P (Run.update f : Run σ ε Unit) Q E := h

/-- A run may look at its state. -/
theorem Triple.state {f : σ → Run σ ε α} (h : ∀ t, P t → Triple (· = t) (f t) Q E) :
    Triple P (Run.state >>= f) Q E :=
  fun s hs => h s hs s rfl

theorem Triple.except {y : Except ε α} (hok : ∀ a, y = .ok a → ∀ s, P s → Q a s)
    (herror : ∀ e s, P s → E e s) : Triple P (Run.except y) Q E := by
  intro s hs
  unfold Run.except
  rcases y with e | a
  · exact herror e s hs
  · exact hok a rfl s hs

/-- What is known of the state before may be known of no state. -/
theorem Triple.known {φ : Prop} (h : φ → Triple P x Q E) : Triple (fun s => P s ∧ φ) x Q E :=
  fun s hs => h hs.2 s hs.1

theorem Triple.ite {c : Prop} [Decidable c] {y : Run σ ε α} (hx : c → Triple P x Q E)
    (hy : ¬c → Triple P y Q E) : Triple P (if c then x else y) Q E := by
  by_cases h : c
  · rw [if_pos h]
    exact hx h
  · rw [if_neg h]
    exact hy h

end

end J2kNative.KeptState
