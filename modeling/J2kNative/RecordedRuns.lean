import Mathlib.Data.Set.Lattice

/-!
# Runs that record their states

A computation on a state with a source that it reads from. It may give up, and it records every
state that it passes through. A triple says what holds of all of these states, and not only
where the computation ends, so that it speaks of runs that give up as well.
-/
namespace J2kNative.RecordedRuns

universe u
variable {σ δ δ' : Type} {α β γ : Type}

structure Run (σ δ : Type) where
  state : σ
  source : δ
  trace : List σ

abbrev Rec (σ δ : Type) := OptionT (StateM (Run σ δ))

def current : Rec σ δ σ := fun r => (some r.state,r)

/-- Goes on to a state, and records it. -/
def update (f : σ → σ) : Rec σ δ Unit :=
  fun r => (some (),{ r with state := f r.state, trace := r.trace ++ [f r.state] })

def consume (f : δ → Option α × δ) : Rec σ δ α :=
  fun r => ((f r.source).1,{ r with source := (f r.source).2 })

def giveUp : Rec σ δ α := fun r => (none,r)

/-- A computation on a source of its own. -/
def withSource (d : δ) (m : Rec σ δ α) : Rec σ δ' α := fun r =>
  ((m ⟨r.state,d,r.trace⟩).1,
    ⟨(m ⟨r.state,d,r.trace⟩).2.state,r.source,(m ⟨r.state,d,r.trace⟩).2.trace⟩)

/-- Where `P` holds at the start and `J` of all states recorded so far, `J` holds of all that are
recorded behind the computation, and `Q` holds at its end if it gets there. -/
def Triple (J P : σ → Prop) (m : Rec σ δ α) (Q : α → σ → Prop) : Prop :=
  ∀ r : Run σ δ, P r.state → (∀ s ∈ r.trace, J s) →
    (∀ s ∈ (m r).2.trace, J s) ∧ ∀ a, (m r).1 = some a → Q a (m r).2.state

section
variable {J P P' : σ → Prop} {m : Rec σ δ α} {Q Q' : α → σ → Prop}

theorem bind_run (m : Rec σ δ α) (f : α → Rec σ δ β) (r : Run σ δ) :
    (m >>= f) r = match m r with
      | (some a,r') => f a r'
      | (none,r') => (none,r') := by
  show (OptionT.bind m f).run r = _
  unfold OptionT.bind OptionT.mk OptionT.run
  show (StateT.bind m _) r = _
  unfold StateT.bind
  rcases m r with ⟨_ | a,r'⟩ <;> rfl

theorem Triple.pure {a : α} (h : ∀ s, P s → Q a s) : Triple J P (pure a : Rec σ δ α) Q := by
  intro r hP hJ
  refine ⟨hJ,fun b hb => ?_⟩
  obtain rfl : a = b := Option.some.inj hb
  exact h _ hP

theorem Triple.bind {R : β → σ → Prop} {f : α → Rec σ δ β} (hm : Triple J P m Q)
    (hf : ∀ a, Triple J (Q a) (f a) R) : Triple J P (m >>= f) R := by
  intro r hP hJ
  obtain ⟨hJ',hQ⟩ := hm r hP hJ
  rw [bind_run]
  cases hrun : m r with
  | mk o r' =>
      rw [hrun] at hJ' hQ
      cases o with
      | none => exact ⟨hJ',nofun⟩
      | some a => exact hf a r' (hQ a rfl) hJ'

theorem Triple.mono (h : Triple J P m Q) (hP : ∀ s, P' s → P s) (hQ : ∀ a s, Q a s → Q' a s) :
    Triple J P' m Q' := fun r hr hJ =>
  ⟨(h r (hP _ hr) hJ).1,fun a ha => hQ a _ ((h r (hP _ hr) hJ).2 a ha)⟩

/-- What is done on the state that is read starts in it. -/
theorem Triple.read {f : σ → Rec σ δ α} (h : ∀ s, P s → Triple J (· = s) (f s) Q) :
    Triple J P (current >>= f) Q :=
  fun r hP hJ => h r.state hP r rfl hJ

theorem Triple.update {f : σ → σ} {R : σ → Prop} (h : ∀ s, P s → J (f s) ∧ R (f s)) :
    Triple J P (update f : Rec σ δ Unit) fun _ => R := by
  intro r hP hJ
  refine ⟨fun s hs => ?_,fun _ _ => (h _ hP).2⟩
  rcases List.mem_append.mp hs with hs | hs
  · exact hJ s hs
  · rw [List.mem_singleton.mp hs]
    exact (h _ hP).1

theorem Triple.consume {f : δ → Option α × δ} : Triple J P (consume f : Rec σ δ α) fun _ => P :=
  fun _ hP hJ => ⟨hJ,fun _ _ => hP⟩

theorem Triple.giveUp : Triple J P (giveUp : Rec σ δ α) Q := fun _ _ hJ => ⟨hJ,nofun⟩

theorem Triple.withSource {d : δ} (h : Triple J P m Q) :
    Triple J P (withSource d m : Rec σ δ' α) Q :=
  fun r hP hJ => h ⟨r.state,d,r.trace⟩ hP hJ

theorem forM_cons (b : β) (l : List β) (f : β → Rec σ δ Unit) :
    (b :: l).forM f = f b >>= fun _ => l.forM f := rfl

/-- A loop whose turns keep a condition. -/
theorem Triple.forM {l : List β} {f : β → Rec σ δ Unit}
    (h : ∀ b ∈ l, Triple J P (f b) fun _ => P) : Triple J P (l.forM f) fun _ => P := by
  induction l with
  | nil => exact .pure fun _ hP => hP
  | cons b l ih =>
      rw [forM_cons]
      exact (h b List.mem_cons_self).bind fun _ => ih fun c hc => h c (List.mem_cons_of_mem _ hc)

/-- A loop in which every turn adds its part to what is done. -/
theorem Triple.forM_collect {I : Set γ → σ → Prop} {S : β → Set γ} {l : List β}
    {f : β → Rec σ δ Unit} {D : Set γ}
    (h : ∀ b ∈ l, ∀ D, Triple J (I D) (f b) fun _ => I (D ∪ S b)) :
    Triple J (I D) (l.forM f) fun _ => I (D ∪ ⋃ b ∈ l, S b) := by
  induction l generalizing D with
  | nil =>
      refine .pure fun s hs => ?_
      simpa using hs
  | cons b l ih =>
      rw [forM_cons]
      refine (h b List.mem_cons_self D).bind fun _ => ?_
      refine (ih fun c hc => h c (List.mem_cons_of_mem _ hc)).mono (fun _ h => h) fun _ s hs => ?_
      have hset : D ∪ S b ∪ ⋃ c ∈ l, S c = D ∪ ⋃ c ∈ b :: l, S c := by
        ext z
        simp [or_assoc]
      rwa [hset] at hs

theorem Triple.ite {c : Prop} [Decidable c] {m' : Rec σ δ α} (h : c → Triple J P m Q)
    (h' : ¬c → Triple J P m' Q) : Triple J P (if c then m else m') Q := by
  split_ifs with hc
  · exact h hc
  · exact h' hc

/-- A loop over successive numbers, with a condition for each. -/
theorem Triple.forM_range' {I : ℕ → σ → Prop} {f : ℕ → Rec σ δ Unit} (start n : ℕ)
    (h : ∀ k, Triple J (I k) (f k) fun _ => I (k + 1)) :
    Triple J (I start) ((List.range' start n).forM f) fun _ => I (start + n) := by
  induction n generalizing start with
  | zero => exact .pure fun _ hP => hP
  | succ n ih =>
      rw [List.range'_succ,forM_cons]
      refine (h start).bind fun _ => ?_
      have := ih (start + 1)
      rwa [Nat.add_right_comm] at this

end

end J2kNative.RecordedRuns
