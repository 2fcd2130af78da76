import Mathlib.Data.List.Basic
import Mathlib.Data.Nat.Notation

/-!
# Computations that keep their state when they fail

A computation over mutable state either ends with a value or is interrupted by
an error. Either way the changes it made to the state remain, as they do for
code that writes through references and returns early. `Ends` says what holds
of the state at both ways out; its rules follow the structure of a program.
-/
namespace J2kNative

def Interruptible (ε σ α : Type) : Type := σ → Except ε α × σ

namespace Interruptible
variable {ε σ α β : Type}

instance : Monad (Interruptible ε σ) where
  pure a := fun s => (.ok a,s)
  bind m f := fun s => match m s with
    | (.ok a,t) => f a t
    | (.error e,t) => (.error e,t)

instance : LawfulMonad (Interruptible ε σ) := LawfulMonad.mk' _
  (fun m => by
    funext s
    show (match m s with
      | (.ok a,t) => (.ok a,t)
      | (.error e,t) => (.error e,t) : Except ε _ × σ) = m s
    rcases m s with ⟨_ | _,_⟩ <;> rfl)
  (fun _ _ => rfl)
  (fun m f g => by
    funext s
    show (match (match m s with
      | (.ok a,t) => f a t
      | (.error e,t) => (.error e,t) : Except ε _ × σ) with
      | (.ok b,t) => g b t
      | (.error e,t) => (.error e,t) : Except ε _ × σ) =
      match m s with
      | (.ok a,t) => (f a >>= g) t
      | (.error e,t) => (.error e,t)
    rcases m s with ⟨_ | _,_⟩ <;> rfl)

def fail (e : ε) : Interruptible ε σ α := fun s => (.error e,s)

def read : Interruptible ε σ σ := fun s => (.ok s,s)

def change (f : σ → σ) : Interruptible ε σ Unit := fun s => (.ok (),f s)

/-- A computation that cannot change the state. -/
def lift (x : Except ε α) : Interruptible ε σ α := fun s => (x,s)

/-- A computation on a part `enter s` of the state `s`; `leave` puts the part back, also
when the computation is interrupted. -/
def within {τ : Type} (enter : σ → τ) (leave : σ → τ → σ) (m : Interruptible ε τ α) :
    Interruptible ε σ α := fun s => ((m (enter s)).1,leave s (m (enter s)).2)

theorem run_bind {m : Interruptible ε σ α} {f : α → Interruptible ε σ β} {s : σ} :
    (m >>= f) s = (match (m s).1 with
      | .ok a => f a (m s).2
      | .error e => (.error e,(m s).2) : Except ε β × σ) := by
  show (match m s with
    | (.ok a,t) => f a t
    | (.error e,t) => (.error e,t) : Except ε β × σ) = _
  rcases m s with ⟨_ | _,_⟩ <;> rfl

/-- From every state in `P`, the run ends with a value and a state in `Q`, or is
interrupted in a state in `R`. -/
def Ends (P : σ → Prop) (m : Interruptible ε σ α) (Q : α → σ → Prop) (R : σ → Prop) : Prop :=
  ∀ s, P s → match m s with
    | (.ok a,t) => Q a t
    | (.error _,t) => R t

variable {P P' : σ → Prop} {Q Q' : α → σ → Prop} {R : σ → Prop} {T : β → σ → Prop}
  {m : Interruptible ε σ α} {f : α → Interruptible ε σ β}

theorem Ends.imp (h : Ends P m Q R) (hP : ∀ s, P' s → P s) (hQ : ∀ a s, Q a s → Q' a s) :
    Ends P' m Q' R := by
  intro s hs
  have h := h s (hP s hs)
  split at h
  · exact hQ _ _ h
  · exact h

theorem Ends.interrupted {R' : σ → Prop} (h : Ends P m Q R) (hR : ∀ s, R s → R' s) :
    Ends P m Q R' := by
  intro s hs
  have h := h s hs
  split at h
  · exact h
  · exact hR _ h

theorem ends_pure {a : α} (h : ∀ s, P s → Q a s) : Ends P (pure a : Interruptible ε σ α) Q R :=
  fun s hs => h s hs

theorem ends_fail {e : ε} (h : ∀ s, P s → R s) : Ends P (fail e : Interruptible ε σ α) Q R :=
  fun s hs => h s hs

theorem ends_change {g : σ → σ} {Q : Unit → σ → Prop} (h : ∀ s, P s → Q () (g s)) :
    Ends P (change g : Interruptible ε σ Unit) Q R :=
  fun s hs => h s hs

theorem ends_read {Q : σ → σ → Prop} (h : ∀ s, P s → Q s s) :
    Ends P (read : Interruptible ε σ σ) Q R :=
  fun s hs => h s hs

theorem ends_lift {x : Except ε α} (hR : ∀ s, P s → R s)
    (hQ : ∀ a s, x = .ok a → P s → Q a s) : Ends P (lift x : Interruptible ε σ α) Q R := by
  intro s hs
  cases x with
  | ok a => exact hQ a s rfl hs
  | error e => exact hR s hs

theorem Ends.bind (hm : Ends P m Q R) (hf : ∀ a, Ends (Q a) (f a) T R) :
    Ends P (m >>= f) T R := by
  intro s hs
  have h := hm s hs
  show match (match m s with
    | (.ok a,t) => f a t
    | (.error e,t) => (.error e,t) : Except ε β × σ) with
    | (.ok b,t) => T b t
    | (.error _,t) => R t
  cases hms : m s with
  | mk o t =>
      rw [hms] at h
      cases o with
      | ok a => exact hf a t h
      | error e => exact h

theorem ends_within {τ : Type} {enter : σ → τ} {leave : σ → τ → σ} {m : Interruptible ε τ α}
    (h : ∀ s, P s → Ends (· = enter s) m (fun a t => Q a (leave s t)) (fun t => R (leave s t))) :
    Ends P (within enter leave m) Q R := by
  intro s hs
  have h := h s hs (enter s) rfl
  unfold within
  cases hm : m (enter s) with
  | mk o t =>
      rw [hm] at h
      cases o with
      | ok a => exact h
      | error e => exact h

/-- A loop over a list keeps a property of the state and of the elements still to come. -/
theorem ends_forM {P : List α → σ → Prop} {g : α → Interruptible ε σ PUnit} {l : List α}
    (h : ∀ a l, Ends (P (a::l)) (g a) (fun _ s => P l s) R) :
    Ends (P l) (l.forM g) (fun _ s => P [] s) R := by
  induction l with
  | nil => exact ends_pure fun s hs => hs
  | cons a l ih => exact (h a l).bind fun _ => ih

/-! ## Runs that keep an invariant and always succeed -/

/-- From every state in `P` the run ends in `P`, with the value `a`. -/
def Yields (P : σ → Prop) (m : Interruptible ε σ α) (a : α) : Prop :=
  ∀ s, P s → ∃ t, m s = (.ok a,t) ∧ P t

variable {a : α} {b : β}

theorem yields_pure : Yields P (pure a : Interruptible ε σ α) a := fun s hs => ⟨s,rfl,hs⟩

theorem Yields.bind (hm : Yields P m a) (hf : Yields P (f a) b) : Yields P (m >>= f) b := by
  intro s hs
  obtain ⟨t,ht,hPt⟩ := hm s hs
  obtain ⟨u,hu,hPu⟩ := hf t hPt
  refine ⟨u,?_,hPu⟩
  show (match m s with
    | (.ok a,t) => f a t
    | (.error e,t) => (.error e,t) : Except ε β × σ) = _
  rw [ht]
  exact hu

theorem Yields.mapM {g : α → Interruptible ε σ β} {h : α → β} {l : List α}
    (hg : ∀ a ∈ l, Yields P (g a) (h a)) : Yields P (l.mapM g) (l.map h) := by
  induction l with
  | nil => exact yields_pure
  | cons a l ih =>
      rw [List.mapM_cons,List.map_cons]
      exact (hg a List.mem_cons_self).bind
        ((ih fun b hb => hg b (List.mem_cons_of_mem _ hb)).bind yields_pure)

end Interruptible
end J2kNative
