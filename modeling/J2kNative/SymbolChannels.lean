import J2kNative.RecordedRuns
import Mathlib.Algebra.GroupWithZero.Nat

/-!
# Senders and receivers of symbols

A sender is a computation on a state of its own that hands symbols to a channel. A receiver is
a recorded run that reads from a source. They agree under a channel when the receiver, offered
what the sender sends with anything behind it, gets through and leaves what was behind. What a
source holds may depend on a part of the receiver's state, the view.
-/
namespace J2kNative.SymbolChannels
open RecordedRuns

/-- What a sender yields: its value, the state behind it and the symbols it sends. -/
structure Sent (σ η α : Type) where
  value : α
  state : σ
  symbols : List η

/-- A computation on a state that sends symbols. -/
def Send (σ η α : Type) : Type := σ → Sent σ η α

section
variable {σ η α β : Type}

instance : Monad (Send σ η) where
  pure a := fun s => ⟨a,s,[]⟩
  bind m f := fun s =>
    let first := m s
    let second := f first.value first.state
    ⟨second.value,second.state,first.symbols ++ second.symbols⟩

def look : Send σ η σ := fun s => ⟨s,s,[]⟩

def change (f : σ → σ) : Send σ η Unit := fun s => ⟨(),f s,[]⟩

def send (symbol : η) : Send σ η Unit := fun s => ⟨(),s,[symbol]⟩

@[simp] theorem pure_run (a : α) (s : σ) : (pure a : Send σ η α) s = ⟨a,s,[]⟩ := rfl

@[simp] theorem bind_run (m : Send σ η α) (f : α → Send σ η β) (s : σ) :
    (m >>= f) s = ⟨(f (m s).value (m s).state).value,(f (m s).value (m s).state).state,
      (m s).symbols ++ (f (m s).value (m s).state).symbols⟩ := rfl

@[simp] theorem look_run (s : σ) : (look : Send σ η σ) s = ⟨s,s,[]⟩ := rfl

@[simp] theorem change_run (f : σ → σ) (s : σ) : (change f : Send σ η Unit) s = ⟨(),f s,[]⟩ := rfl

@[simp] theorem send_run (symbol : η) (s : σ) : (send symbol : Send σ η Unit) s = ⟨(),s,[symbol]⟩ :=
  rfl

instance : LawfulMonad (Send σ η) :=
  LawfulMonad.mk' (Send σ η) (fun m => funext fun s => by
      show (⟨(m s).value,(m s).state,(m s).symbols ++ []⟩ : Sent σ η _) = m s
      rw [List.append_nil])
    (fun _ _ => rfl) fun m f g => funext fun s => by
      simp only [bind_run,List.append_assoc]

theorem forM_nil (f : β → Send σ η Unit) : ([] : List β).forM f = pure () := rfl

theorem forM_cons (b : β) (l : List β) (f : β → Send σ η Unit) :
    (b :: l).forM f = f b >>= fun _ => l.forM f := rfl

theorem forM_append (l l' : List β) (f : β → Send σ η Unit) :
    (l ++ l').forM f = l.forM f >>= fun _ => l'.forM f := List.forM_append

theorem forM_concat (l : List β) (b : β) (f : β → Send σ η Unit) :
    (l ++ [b]).forM f = l.forM f >>= fun _ => f b := by
  rw [forM_append,forM_cons,forM_nil,bind_pure_unit]

end

/-! ## Costs -/

/-- From any state at most this is spent on symbols. -/
def Costs {σ η α : Type} (cost : η → ℕ) (n : ℕ) (m : Send σ η α) : Prop :=
  ∀ s, ((m s).symbols.map cost).sum ≤ n

section
variable {σ η α β : Type} {cost : η → ℕ} {n k : ℕ} {m : Send σ η α}

theorem Costs.mono (h : Costs cost n m) (hle : n ≤ k) : Costs cost k m := fun s => (h s).trans hle

theorem Costs.pure (a : α) : Costs cost 0 (pure a : Send σ η α) := fun _ => le_rfl

theorem Costs.change (f : σ → σ) : Costs cost 0 (change f : Send σ η Unit) := fun _ => le_rfl

theorem Costs.send {symbol : η} : Costs cost (cost symbol) (send symbol : Send σ η Unit) :=
  fun _ => by simp

theorem Costs.bind {f : α → Send σ η β} (hm : Costs cost n m) (hf : ∀ a, Costs cost k (f a)) :
    Costs cost (n + k) (m >>= f) := by
  intro s
  rw [bind_run,List.map_append,List.sum_append]
  exact Nat.add_le_add (hm s) (hf _ _)

theorem Costs.look {f : σ → Send σ η β} (hf : ∀ s, Costs cost k (f s)) :
    Costs cost k (look >>= f) := fun s => hf s s

theorem Costs.ite {c : Prop} [Decidable c] {m' : Send σ η α} (h : c → Costs cost n m)
    (h' : ¬c → Costs cost n m') : Costs cost n (if c then m else m') := by
  split_ifs with hc
  · exact h hc
  · exact h' hc

theorem Costs.forM {l : List β} {f : β → Send σ η Unit} {k : β → ℕ}
    (h : ∀ b ∈ l, Costs cost (k b) (f b)) : Costs cost (l.map k).sum (l.forM f) := by
  induction l with
  | nil => exact .pure ()
  | cons b l ih =>
      rw [forM_cons,List.map_cons,List.sum_cons]
      exact (h b List.mem_cons_self).bind fun _ => ih fun c hc => h c (List.mem_cons_of_mem b hc)

/-- A loop whose turns all cost the same. -/
theorem Costs.forM_const {l : List β} {f : β → Send σ η Unit} (h : ∀ b ∈ l, Costs cost k (f b)) :
    Costs cost (l.length * k) (l.forM f) := by
  have hloop := Costs.forM (k := fun _ => k) h
  rwa [List.map_const',List.sum_replicate_nat] at hloop

end

/-! ## Agreement -/

/-- A source under a view holds these symbols. -/
structure Channel (η τ δ ρ : Type) where
  view : τ → ρ
  Holds : List η → ρ → δ → Prop

section
variable {σ η τ δ ρ α β γ α' β' : Type}

/-- From states related by `I` the receiver gets through what the sender sends, and they end in
values and states related by `O`. -/
def Agree (ch : Channel η τ δ ρ) (I : σ → τ → Prop) (m : Send σ η α) (n : Rec τ δ β)
    (O : α → β → σ → τ → Prop) : Prop :=
  ∀ s (r : Run τ δ), I s r.state → ∀ rest, ch.Holds ((m s).symbols ++ rest) (ch.view r.state) r.source →
    ∃ b r', n r = (some b,r') ∧ ch.Holds rest (ch.view r'.state) r'.source ∧
      O (m s).value b (m s).state r'.state

variable {ch : Channel η τ δ ρ} {I : σ → τ → Prop} {m : Send σ η α} {n : Rec τ δ β}
  {O : α → β → σ → τ → Prop}

theorem Agree.pure {a : α} {b : β} (h : ∀ s t, I s t → O a b s t) :
    Agree ch I (pure a) (pure b : Rec τ δ β) O :=
  fun s r hI _ hrest => ⟨b,r,rfl,hrest,h s r.state hI⟩

theorem Agree.bind {f : α → Send σ η α'} {g : β → Rec τ δ β'} {O' : α' → β' → σ → τ → Prop}
    (hm : Agree ch I m n O) (hf : ∀ a b, Agree ch (O a b) (f a) (g b) O') :
    Agree ch I (m >>= f) (n >>= g) O' := by
  intro s r hI rest hrest
  simp only [SymbolChannels.bind_run,List.append_assoc] at hrest
  obtain ⟨b,r',hrun,hheld,hO⟩ := hm s r hI _ hrest
  rw [RecordedRuns.bind_run,hrun]
  exact hf _ b _ r' hO rest hheld

/-- The receiver goes on where the sender is done. -/
theorem Agree.bind_right {g : β → Rec τ δ β'} {O' : α → β' → σ → τ → Prop}
    (hm : Agree ch I m n O) (hg : ∀ a b, Agree ch (O a b) (Pure.pure a) (g b) O') :
    Agree ch I m (n >>= g) O' := by
  intro s r hI rest hrest
  obtain ⟨b,r',hrun,hheld,hO⟩ := hm s r hI rest hrest
  rw [RecordedRuns.bind_run,hrun]
  exact hg _ b _ r' hO rest hheld

theorem Agree.mono {K : σ → τ → Prop} {O' : α → β → σ → τ → Prop} (h : Agree ch I m n O)
    (hI : ∀ s t, K s t → I s t) (hO : ∀ a b s t, O a b s t → O' a b s t) : Agree ch K m n O' := by
  intro s r hs rest hrest
  obtain ⟨b,r',hrun,hheld,h'⟩ := h s r (hI _ _ hs) rest hrest
  exact ⟨b,r',hrun,hheld,hO _ _ _ _ h'⟩

theorem Agree.post {O' : α → β → σ → τ → Prop} (h : Agree ch I m n O)
    (hO : ∀ a b s t, O a b s t → O' a b s t) : Agree ch I m n O' := h.mono (fun _ _ hI => hI) hO

/-- What is known of the start apart from the states. -/
theorem Agree.given {P : Prop} (h : P → Agree ch I m n O) :
    Agree ch (fun s t => P ∧ I s t) m n O := fun s r hI rest hrest => h hI.1 s r hI.2 rest hrest

/-- Every start on its own. -/
theorem Agree.each (h : ∀ s t, I s t → Agree ch (fun s' t' => s' = s ∧ t' = t) m n O) :
    Agree ch I m n O := fun s r hI rest hrest => h s r.state hI s r ⟨rfl,rfl⟩ rest hrest

/-- Both look at their states first. -/
theorem Agree.look {f : σ → Send σ η α} {g : τ → Rec τ δ β}
    (h : ∀ s t, I s t → Agree ch (fun s' t' => s' = s ∧ t' = t) (f s) (g t) O) :
    Agree ch I (look >>= f) (current >>= g) O := by
  intro s r hI rest hrest
  exact h s r.state hI s r ⟨rfl,rfl⟩ rest hrest

/-- The receiver looks at its state, the sender does not. -/
theorem Agree.current {g : τ → Rec τ δ β}
    (h : ∀ s t, I s t → Agree ch (fun s' t' => s' = s ∧ t' = t) m (g t) O) :
    Agree ch I m (current >>= g) O := by
  intro s r hI rest hrest
  exact h s r.state hI s r ⟨rfl,rfl⟩ rest hrest

/-- The sender looks at its state, the receiver does not. -/
theorem Agree.looks {f : σ → Send σ η α} {g : Rec τ δ β}
    (h : ∀ s t, I s t → Agree ch (fun s' t' => s' = s ∧ t' = t) (f s) g O) :
    Agree ch I (SymbolChannels.look >>= f) g O := by
  intro s r hI rest hrest
  exact h s r.state hI s r ⟨rfl,rfl⟩ rest hrest

/-- The sender alone changes its state. -/
theorem Agree.change {f : σ → σ} {k : Send σ η α} {K : σ → τ → Prop}
    (hf : ∀ s t, I s t → K (f s) t) (h : Agree ch K k n O) :
    Agree ch I (SymbolChannels.change f >>= fun _ => k) n O :=
  fun s r hI rest hrest => h (f s) r (hf s r.state hI) rest hrest

/-- The receiver alone changes its state, but for the view. -/
theorem Agree.update {f : τ → τ} {k : Rec τ δ β} {K : σ → τ → Prop}
    (hf : ∀ s t, I s t → K s (f t)) (hview : ∀ t, ch.view (f t) = ch.view t)
    (h : Agree ch K m k O) : Agree ch I m (update f >>= fun _ => k) O := by
  intro s r hI rest hrest
  rw [RecordedRuns.bind_run]
  exact h s ⟨f r.state,r.source,r.trace ++ [f r.state]⟩ (hf s r.state hI) rest
    ((hview r.state).symm ▸ hrest)

theorem Agree.ite {c c' : Prop} [Decidable c] [Decidable c'] {m' : Send σ η α} {n' : Rec τ δ β}
    (hc : ∀ s t, I s t → (c ↔ c')) (h : c → c' → Agree ch I m n O)
    (h' : ¬c → ¬c' → Agree ch I m' n' O) :
    Agree ch I (if c then m else m') (if c' then n else n') O := by
  intro s r hI
  have hiff := hc s r.state hI
  by_cases hcond : c
  · rw [if_pos hcond,if_pos (hiff.mp hcond)]
    exact h hcond (hiff.mp hcond) s r hI
  · have hcond' := fun hc' => hcond (hiff.mpr hc')
    rw [if_neg hcond,if_neg hcond']
    exact h' hcond hcond' s r hI

/-- The turns of two loops over one list, with a condition for each number of turns. -/
theorem Agree.forM {J : ℕ → σ → τ → Prop} {l : List γ} {f : γ → Send σ η Unit}
    {g : γ → Rec τ δ Unit}
    (h : ∀ i c, l[i]? = some c → Agree ch (J i) (f c) (g c) fun _ _ => J (i + 1)) :
    Agree ch (J 0) (l.forM f) (l.forM g) fun _ _ => J l.length := by
  induction l generalizing J with
  | nil => exact .pure fun _ _ hJ => hJ
  | cons c l ih =>
      rw [forM_cons,RecordedRuns.forM_cons]
      refine (h 0 c rfl).bind fun _ _ => ?_
      exact ih (J := fun i => J (i + 1)) fun i c hc => h (i + 1) c hc

/-- The receiver goes only to some of the turns, the sender finds nothing to do in the others. -/
theorem Agree.forM_filter {J : ℕ → σ → τ → Prop} {l : List γ} {keep : γ → Bool}
    {f : γ → Send σ η Unit} {g : γ → Rec τ δ Unit}
    (h : ∀ i c, l[i]? = some c → keep c = true → Agree ch (J i) (f c) (g c) fun _ _ => J (i + 1))
    (hskip : ∀ i c, l[i]? = some c → keep c = false →
      Agree ch (J i) (f c) (Pure.pure () : Rec τ δ Unit) fun _ _ => J (i + 1)) :
    Agree ch (J 0) (l.forM f) ((l.filter keep).forM g) fun _ _ => J l.length := by
  induction l generalizing J with
  | nil => exact .pure fun _ _ hJ => hJ
  | cons c l ih =>
      have hrest := ih (J := fun i => J (i + 1)) (fun i c hc => h (i + 1) c hc)
        fun i c hc => hskip (i + 1) c hc
      rw [forM_cons]
      cases hkeep : keep c with
      | true =>
          rw [List.filter_cons_of_pos hkeep,RecordedRuns.forM_cons]
          exact (h 0 c rfl hkeep).bind fun _ _ => hrest
      | false =>
          rw [List.filter_cons_of_neg (by rw [hkeep]; exact Bool.false_ne_true)]
          intro s r hJ rest hheld
          simp only [SymbolChannels.bind_run,List.append_assoc] at hheld ⊢
          obtain ⟨_,r',hrun,hheld',hJ'⟩ := hskip 0 c rfl hkeep s r hJ _ hheld
          obtain rfl : r = r' := (Prod.mk.inj hrun).2
          exact hrest _ r hJ' rest hheld'

theorem getElem?_range_eq_some {n i c : ℕ} (h : (List.range n)[i]? = some c) : c = i ∧ i < n := by
  obtain ⟨hi,hget⟩ := List.getElem?_eq_some_iff.mp h
  rw [List.getElem_range] at hget
  exact ⟨hget.symm,by simpa using hi⟩

/-- Counted loops. -/
theorem Agree.forRange {J : ℕ → σ → τ → Prop} {n : ℕ} {f : ℕ → Send σ η Unit}
    {g : ℕ → Rec τ δ Unit} (h : ∀ i < n, Agree ch (J i) (f i) (g i) fun _ _ => J (i + 1)) :
    Agree ch (J 0) ((List.range n).forM f) ((List.range n).forM g) fun _ _ => J n := by
  have hloop := Agree.forM (J := J) (l := List.range n) (f := f) (g := g) fun i c hc => by
    obtain ⟨rfl,hi⟩ := getElem?_range_eq_some hc
    exact h c hi
  rwa [List.length_range] at hloop

theorem Agree.forRange_filter {J : ℕ → σ → τ → Prop} {n : ℕ} {keep : ℕ → Bool}
    {f : ℕ → Send σ η Unit} {g : ℕ → Rec τ δ Unit}
    (h : ∀ i < n, keep i = true → Agree ch (J i) (f i) (g i) fun _ _ => J (i + 1))
    (hskip : ∀ i < n, keep i = false →
      Agree ch (J i) (f i) (Pure.pure () : Rec τ δ Unit) fun _ _ => J (i + 1)) :
    Agree ch (J 0) ((List.range n).forM f) (((List.range n).filter keep).forM g) fun _ _ => J n := by
  have hloop := Agree.forM_filter (J := J) (l := List.range n) (f := f) (g := g)
    (fun i c hc hkeep => by
      obtain ⟨rfl,hi⟩ := getElem?_range_eq_some hc
      exact h c hi hkeep)
    fun i c hc hkeep => by
      obtain ⟨rfl,hi⟩ := getElem?_range_eq_some hc
      exact hskip c hi hkeep
  rwa [List.length_range] at hloop

theorem Agree.forRange' {J : ℕ → σ → τ → Prop} {start n : ℕ} {f : ℕ → Send σ η Unit}
    {g : ℕ → Rec τ δ Unit}
    (h : ∀ i, start ≤ i → i < start + n → Agree ch (J i) (f i) (g i) fun _ _ => J (i + 1)) :
    Agree ch (J start) ((List.range' start n).forM f) ((List.range' start n).forM g)
      fun _ _ => J (start + n) := by
  induction n generalizing start with
  | zero => exact .pure fun _ _ hJ => hJ
  | succ n ih =>
      rw [List.range'_succ,forM_cons,RecordedRuns.forM_cons,Nat.add_comm n,← Nat.add_assoc]
      exact (h start le_rfl (by omega)).bind fun _ _ =>
        ih fun i hi hi' => h i (by omega) (by omega)

end

end J2kNative.SymbolChannels
