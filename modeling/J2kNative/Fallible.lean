import Mathlib.Algebra.GroupWithZero.Nat
import Mathlib.Data.List.Basic
import Mathlib.Data.Nat.Notation

/-!
# Fallible computations

What the success of a composed computation says about its parts.
-/
namespace J2kNative.Fallible

universe u v w
variable {ε : Type u} {α β σ : Type v}

theorem bind_eq_ok {x : Except ε α} {f : α → Except ε β} {b : β} :
    x >>= f = .ok b ↔ ∃ a, x = .ok a ∧ f a = .ok b := by
  cases x with
  | error e =>
      refine ⟨fun h => ?_,?_⟩
      · cases h
      · rintro ⟨_,h,-⟩
        cases h
  | ok a =>
      refine ⟨fun h => ⟨a,rfl,h⟩,?_⟩
      rintro ⟨_,h,hf⟩
      cases h
      exact hf

@[simp] theorem ok_bind (a : α) (f : α → Except ε β) : (Except.ok a >>= f) = f a := rfl

theorem mapError_eq_ok {ε' : Type w} {f : ε → ε'} {x : Except ε α} {a : α} :
    x.mapError f = .ok a ↔ x = .ok a := by
  cases x <;> simp [Except.mapError]

/-- Gives up with an error where something is wrong. -/
def refuse (wrong : Prop) [Decidable wrong] (e : ε) : Except ε Unit :=
  if wrong then .error e else .ok ()

theorem refuse_eq_ok {wrong : Prop} [Decidable wrong] {e : ε} {u : Unit} :
    refuse wrong e = .ok u ↔ ¬wrong := by
  unfold refuse
  split_ifs with hwrong <;> simp [hwrong]

/-- Successful steps over a list give the list of what each step yields. -/
theorem mapM_eq_ok {f : α → Except ε β} {g : α → β} {l : List α} {l' : List β}
    (hf : ∀ a ∈ l, ∀ b, f a = .ok b → b = g a) (h : l.mapM f = .ok l') : l' = l.map g := by
  induction l generalizing l' with
  | nil =>
      cases h
      rfl
  | cons a l ih =>
      rw [List.mapM_cons] at h
      obtain ⟨b,hb,h⟩ := bind_eq_ok.mp h
      obtain ⟨bs,hbs,h⟩ := bind_eq_ok.mp h
      cases h
      rw [List.map_cons,hf a (by simp) b hb,ih (fun a ha => hf a (by simp [ha])) hbs]

theorem mapM_ok {f : α → Except ε β} {g : α → β} {l : List α} (h : ∀ a ∈ l, f a = .ok (g a)) :
    l.mapM f = .ok (l.map g) := by
  induction l with
  | nil => rfl
  | cons a l ih =>
      rw [List.mapM_cons,h a (by simp),ih fun a ha => h a (List.mem_cons_of_mem _ ha)]
      rfl

theorem exists_of_mapM_ok {f : α → Except ε β} {l : List α} {l' : List β}
    (h : l.mapM f = .ok l') {a : α} (ha : a ∈ l) : ∃ b, f a = .ok b := by
  induction l generalizing l' with
  | nil => cases ha
  | cons c l ih =>
      rw [List.mapM_cons] at h
      obtain ⟨b,hb,h⟩ := bind_eq_ok.mp h
      obtain ⟨bs,hbs,-⟩ := bind_eq_ok.mp h
      rcases List.mem_cons.mp ha with rfl | ha
      · exact ⟨b,hb⟩
      · exact ih hbs ha

theorem mapM_forall₂ {f : α → Except ε β} {l : List α} {l' : List β} (h : l.mapM f = .ok l') :
    List.Forall₂ (fun a b => f a = .ok b) l l' := by
  induction l generalizing l' with
  | nil =>
      cases h
      exact .nil
  | cons a l ih =>
      rw [List.mapM_cons] at h
      obtain ⟨b,hb,h⟩ := bind_eq_ok.mp h
      obtain ⟨bs,hbs,h⟩ := bind_eq_ok.mp h
      cases h
      exact .cons hb (ih hbs)

theorem exists_related {α : Type u} {β : Type v} {R : α → β → Prop} {l : List α} {l' : List β}
    (h : List.Forall₂ R l l') {b : β} (hb : b ∈ l') : ∃ a ∈ l, R a b := by
  induction h with
  | nil => cases hb
  | cons hab _ ih =>
      rcases List.mem_cons.mp hb with rfl | hb
      · exact ⟨_, List.mem_cons_self, hab⟩
      · obtain ⟨a, ha, hab⟩ := ih hb
        exact ⟨a, List.mem_cons_of_mem _ ha, hab⟩

theorem mapM_range_ok [Inhabited β] {f : ℕ → Except ε β} {n : ℕ} {l : List β}
    (h : (List.range n).mapM f = .ok l) :
    ∃ g : ℕ → β, l = (List.range n).map g ∧ ∀ i < n, f i = .ok (g i) := by
  induction n generalizing l with
  | zero =>
      cases h
      exact ⟨default,rfl,nofun⟩
  | succ n ih =>
      rw [List.range_succ,List.mapM_append] at h
      obtain ⟨l',hl',h⟩ := bind_eq_ok.mp h
      obtain ⟨last,hlast,h⟩ := bind_eq_ok.mp h
      cases h
      obtain ⟨g,rfl,hg⟩ := ih hl'
      rw [List.mapM_cons] at hlast
      obtain ⟨b,hb,hlast⟩ := bind_eq_ok.mp hlast
      cases hlast
      refine ⟨fun i => if i = n then b else g i,?_,fun i hi => ?_⟩
      · rw [List.range_succ,List.map_append]
        refine congrArg₂ _ (List.map_congr_left fun i hi => ?_) (by simp)
        rw [if_neg (Nat.ne_of_lt (List.mem_range.mp hi))]
      · dsimp only
        by_cases h : i = n
        · rw [if_pos h,h,hb]
        · rw [if_neg h,hg i (by omega)]

theorem mapM_congr {m : Type v → Type u} [Monad m] [LawfulMonad m] {f g : α → m β} {l : List α}
    (h : ∀ a ∈ l, f a = g a) :
    l.mapM f = l.mapM g := by
  induction l with
  | nil => rfl
  | cons a l ih =>
      rw [List.mapM_cons,List.mapM_cons,h a (by simp),ih fun a ha => h a (List.mem_cons_of_mem _ ha)]

theorem foldlM_take_drop {f : σ → α → Except ε σ} (s : σ) (l : List α) (k : ℕ) :
    l.foldlM f s = (l.take k).foldlM f s >>= fun s => (l.drop k).foldlM f s := by
  rw [← List.foldlM_append,List.take_append_drop]

/-- A loop over the lists that the items stand for, item by item, is one loop. -/
theorem foldlM_flatMap {γ : Type v} {f : σ → α → Except ε σ} (g : γ → List α) (s : σ)
    (l : List γ) : l.foldlM (fun s c => (g c).foldlM f s) s = (l.flatMap g).foldlM f s := by
  induction l generalizing s with
  | nil => rfl
  | cons c l ih =>
      rw [List.foldlM_cons,List.flatMap_cons,List.foldlM_append]
      simp only [ih]

/-- A loop that adds to a total what every item costs. -/
theorem foldlM_total {f : ℕ → α → Except ε ℕ} (cost : α → ℕ)
    (hf : ∀ total a, ∀ total', f total a = .ok total' → total' = total + cost a) {l : List α}
    {total total' : ℕ} (h : l.foldlM f total = .ok total') :
    total' = total + (l.map cost).sum := by
  induction l generalizing total with
  | nil =>
      cases h
      rfl
  | cons a l ih =>
      rw [List.foldlM_cons] at h
      obtain ⟨next,hnext,h⟩ := bind_eq_ok.mp h
      rw [ih h,hf total a next hnext,List.map_cons,List.sum_cons,Nat.add_assoc]

theorem foldlM_invariant {f : σ → α → Except ε σ} {P : σ → Prop} {l : List α}
    (hf : ∀ a ∈ l, ∀ s s', P s → f s a = .ok s' → P s') {s s' : σ} (hs : P s)
    (h : l.foldlM f s = .ok s') : P s' := by
  induction l generalizing s with
  | nil =>
      cases h
      exact hs
  | cons a l ih =>
      rw [List.foldlM_cons] at h
      obtain ⟨next,hnext,h⟩ := bind_eq_ok.mp h
      exact ih (fun a ha => hf a (List.mem_cons_of_mem _ ha))
        (hf a List.mem_cons_self s next hs hnext) h

/-- A loop on another form of the state, whose turns do the same. -/
theorem foldlM_image {τ : Type v} {e : σ → τ} {f : σ → α → Except ε σ} {g : τ → α → Except ε τ}
    (h : ∀ s a, g (e s) a = f s a >>= fun t => .ok (e t)) (l : List α) (s : σ) :
    l.foldlM g (e s) = l.foldlM f s >>= fun t => .ok (e t) := by
  induction l generalizing s with
  | nil => rfl
  | cons a l ih =>
      rw [List.foldlM_cons,List.foldlM_cons,h,bind_assoc,bind_assoc]
      exact congrArg _ (funext fun t => ih t)

theorem exists_of_foldlM_ok {f : σ → α → Except ε σ} {l : List α} {s s' : σ}
    (h : l.foldlM f s = .ok s') {a : α} (ha : a ∈ l) : ∃ t t', f t a = .ok t' := by
  induction l generalizing s with
  | nil => cases ha
  | cons b l ih =>
      rw [List.foldlM_cons] at h
      obtain ⟨next,hnext,h⟩ := bind_eq_ok.mp h
      rcases List.mem_cons.mp ha with rfl | ha
      · exact ⟨s,next,hnext⟩
      · exact ih h ha

theorem of_forM_ok {f : α → Except ε PUnit} {l : List α} {u : PUnit} (h : l.forM f = .ok u)
    {a : α} (ha : a ∈ l) : ∃ v, f a = .ok v := by
  induction l with
  | nil => cases ha
  | cons b l ih =>
      obtain ⟨v,hv,h⟩ := bind_eq_ok.mp (show (f b >>= fun _ => l.forM f) = .ok u from h)
      rcases List.mem_cons.mp ha with rfl | ha
      · exact ⟨v,hv⟩
      · exact ih h ha

theorem map_eq_of_forall₂ {α : Type u} {β : Type v} {γ : Type w} {f : α → γ} {g : β → γ}
    {l : List α} {l' : List β} (h : List.Forall₂ (fun a b => g b = f a) l l') : l'.map g = l.map f := by
  induction h with
  | nil => rfl
  | cons hab _ ih => rw [List.map_cons, List.map_cons, hab, ih]

theorem exists_forall₂ {α : Type u} {β : Type v} {R : α → β → Prop} (l : List α)
    (h : ∀ a ∈ l, ∃ b, R a b) : ∃ l', List.Forall₂ R l l' := by
  induction l with
  | nil => exact ⟨[],.nil⟩
  | cons a l ih =>
      obtain ⟨b,hb⟩ := h a List.mem_cons_self
      obtain ⟨l',hl'⟩ := ih fun a ha => h a (List.mem_cons_of_mem _ ha)
      exact ⟨b :: l',.cons hb hl'⟩

theorem mapM_of_forall₂ {f : α → Except ε β} {l : List α} {l' : List β}
    (h : List.Forall₂ (fun a b => f a = .ok b) l l') : l.mapM f = .ok l' := by
  induction h with
  | nil => rfl
  | cons hhead _ ih => rw [List.mapM_cons,hhead,ok_bind,ih]; rfl

/-! ## Errors that cannot occur -/

theorem bind_ne_error {x : Except ε α} {f : α → Except ε β} {e : ε} (hx : x ≠ .error e)
    (hf : ∀ a, f a ≠ .error e) : (x >>= f) ≠ .error e := by
  cases x with
  | error e' => exact fun h => hx (congrArg Except.error (Except.error.inj h))
  | ok a => exact hf a

theorem mapM_ne_error {f : α → Except ε β} {e : ε} (hf : ∀ a, f a ≠ .error e) (l : List α) :
    l.mapM f ≠ .error e := by
  induction l with
  | nil => exact nofun
  | cons a l ih =>
      rw [List.mapM_cons]
      exact bind_ne_error (hf a) fun b => bind_ne_error ih fun _ => nofun

theorem foldlM_ne_error {f : σ → α → Except ε σ} {e : ε} (hf : ∀ s a, f s a ≠ .error e)
    (l : List α) (s : σ) : l.foldlM f s ≠ .error e := by
  induction l generalizing s with
  | nil => exact nofun
  | cons a l ih =>
      rw [List.foldlM_cons]
      exact bind_ne_error (hf s a) fun s => ih s

end J2kNative.Fallible
