import J2kNative.JpegBitStream
import J2kNative.JpegHuffman

/-!
# Reading up to a marker

Two readers that agree on what is fetched and on the bytes up to the next marker
take every reading step alike: neither sees what is before its position or after
the marker.
-/
namespace J2kNative

/-- Whether the bytes hold no marker; `fill` tells whether a byte `0xFF` came before. -/
def entropyCoded : Bool → List ℕ → Bool
  | _,[] => true
  | true,b::l => if b = 0xFF then entropyCoded true l else b = 0 && entropyCoded false l
  | false,b::l => if b = 0xFF then entropyCoded true l else entropyCoded false l

/-- Bytes without a marker are split off before one. -/
theorem splitAhead_append {m : ℕ} (hm : m ≠ 0 ∧ m ≠ 0xFF) (rest : List ℕ) (l : List ℕ)
    (fill : Bool) (h : entropyCoded fill l) :
    splitAhead fill (l ++ 0xFF::m::rest) = ((splitAhead fill l).1,some (m,rest)) := by
  induction l generalizing fill with
  | nil => cases fill <;> simp [splitAhead,hm]
  | cons b l ih =>
      by_cases hb : b = 0xFF
      · cases fill <;> simp only [entropyCoded,hb,if_true] at h <;>
          simp only [List.cons_append,splitAhead,hb,if_true,ih true h]
      · cases fill with
        | false =>
            simp only [entropyCoded,if_neg hb] at h
            simp only [List.cons_append,splitAhead,if_neg hb,ih false h]
        | true =>
            simp only [entropyCoded,if_neg hb,Bool.and_eq_true,decide_eq_true_eq] at h
            simp only [List.cons_append,splitAhead,h.1,if_true,ih false h.2]
            simp

namespace BitReader

/-- The readers are alike up to the next marker. -/
structure Alike (r s : BitReader) : Prop where
  acc : r.acc = s.acc
  bits : r.bits = s.bits
  syntheticBits : r.syntheticBits = s.syntheticBits
  ahead : r.ahead = s.ahead
  seen : r.marker.isSome = s.marker.isSome
  next : r.next.map Prod.fst = s.next.map Prod.fst
  noPadding : r.allowEofPadding = false ∧ s.allowEofPadding = false

theorem isSome_next (r : BitReader) (h : r.marker.isSome) : r.next.isSome := by
  obtain ⟨m,hm⟩ := Option.isSome_iff_exists.mp h
  simp [next,hm]

theorem Alike.isSome_eq {r s : BitReader} (h : Alike r s) : r.next.isSome = s.next.isSome := by
  have := congrArg Option.isSome h.next
  simpa using this

theorem Alike.refillOneByte {r s : BitReader} (h : Alike r s) :
    r.refillOneByte.1 = s.refillOneByte.1 ∧ Alike r.refillOneByte.2 s.refillOneByte.2 ∧
      Kept r r.refillOneByte.2 ∧ Kept s s.refillOneByte.2 := by
  rcases r.refillOneByte_spec with ⟨hnil,pos,marker,markerEnd,heq,hnext,hd⟩ |
    ⟨b,ds,pos,hcons,heq,hahead,hnext,hnone⟩ <;>
  rcases s.refillOneByte_spec with ⟨hnil',pos',marker',markerEnd',heq',hnext',hd'⟩ |
    ⟨b',ds',pos',hcons',heq',hahead',hnext',hnone'⟩
  · refine ⟨by rw [heq,heq'],⟨?_,?_,?_,hd.1.trans hd'.1.symm,?_,?_,?_⟩,⟨hnext,?_⟩,⟨hnext',?_⟩⟩
    · rw [heq,heq']
      exact h.acc
    · rw [heq,heq']
      exact h.bits
    · rw [heq,heq']
      exact h.syntheticBits
    · rw [Bool.eq_iff_iff]
      have hr : r.refillOneByte.2.marker.isSome ↔ r.next.isSome :=
        ⟨fun hm => hnext ▸ isSome_next _ hm,fun hn => hd.2 (hnext.symm ▸ hn)⟩
      have hs : s.refillOneByte.2.marker.isSome ↔ s.next.isSome :=
        ⟨fun hm => hnext' ▸ isSome_next _ hm,fun hn => hd'.2 (hnext'.symm ▸ hn)⟩
      rw [hr,hs,h.isSome_eq]
    · rw [hnext,hnext']
      exact h.next
    · rw [heq,heq']
      exact h.noPadding
    · rw [heq]
    · rw [heq']
  · rw [h.ahead,hcons'] at hnil
    cases hnil
  · rw [← h.ahead,hcons] at hnil'
    cases hnil'
  · obtain ⟨rfl,rfl⟩ : b = b' ∧ ds = ds' := by
      rw [h.ahead,hcons'] at hcons
      exact ⟨(List.cons.inj hcons).1.symm,(List.cons.inj hcons).2.symm⟩
    refine ⟨by rw [heq,heq'],⟨?_,?_,?_,hahead.trans hahead'.symm,?_,?_,?_⟩,⟨hnext,?_⟩,⟨hnext',?_⟩⟩
    · rw [heq,heq']
      simp only [pushByte,h.acc,h.bits]
    · rw [heq,heq']
      simp only [pushByte,h.bits]
    · rw [heq,heq']
      exact h.syntheticBits
    · rw [heq,heq']
      exact h.seen
    · rw [hnext,hnext']
      exact h.next
    · rw [heq,heq']
      exact h.noPadding
    · rw [heq]
      rfl
    · rw [heq']
      rfl

theorem Alike.refillLoop (limit turns : ℕ) {r s : BitReader} (h : Alike r s) :
    Alike (refillLoop limit turns r) (refillLoop limit turns s) ∧
      Kept r (refillLoop limit turns r) ∧ Kept s (refillLoop limit turns s) := by
  induction turns generalizing r s with
  | zero => exact ⟨h,⟨rfl,rfl⟩,⟨rfl,rfl⟩⟩
  | succ turns ih =>
      obtain ⟨hsame,halike,hr,hs⟩ := h.refillOneByte
      rw [BitReader.refillLoop,BitReader.refillLoop,← h.bits,← hsame]
      split_ifs
      · obtain ⟨ha,hkr,hks⟩ := ih halike
        exact ⟨ha,hr.trans hkr,hs.trans hks⟩
      · exact ⟨halike,hr,hs⟩
      · exact ⟨h,⟨rfl,rfl⟩,⟨rfl,rfl⟩⟩

theorem Alike.pad {r s : BitReader} (h : Alike r s) (count : ℕ) :
    Alike (pad count r) (pad count s) ∧ Kept r (pad count r) ∧ Kept s (pad count s) := by
  induction count generalizing r s with
  | zero => exact ⟨h,⟨rfl,rfl⟩,⟨rfl,rfl⟩⟩
  | succ count ih =>
      rw [BitReader.pad,BitReader.pad]
      have hstep : Alike
          { r with
            acc := r.acc ||| 1 <<< (accBits-1-r.bits)
            bits := r.bits+1
            syntheticBits := r.syntheticBits+1 }
          { s with
            acc := s.acc ||| 1 <<< (accBits-1-s.bits)
            bits := s.bits+1
            syntheticBits := s.syntheticBits+1 } :=
        ⟨by simp only [h.acc,h.bits],by simp only [h.bits],by simp only [h.syntheticBits],
          h.ahead,h.seen,h.next,h.noPadding⟩
      obtain ⟨ha,hr,hs⟩ := ih hstep
      exact ⟨ha,⟨hr.next.trans rfl,hr.allowEofPadding.trans rfl⟩,
        ⟨hs.next.trans rfl,hs.allowEofPadding.trans rfl⟩⟩

/-- The outcomes agree: the same error, or related values and readers alike still. -/
def RelatedOutcome {α β : Type} (R : α → β → Prop) (r s : BitReader) :
    Except JpegError (α × BitReader) → Except JpegError (β × BitReader) → Prop
  | .ok (a,r'),.ok (b,s') => R a b ∧ Alike r' s' ∧ Kept r r' ∧ Kept s s'
  | .error e,.error e' => e = e'
  | _,_ => False

/-- The steps have related outcomes at readers that are alike up to the next marker. -/
def Matches {α β : Type} (R : α → β → Prop) (m : Read α) (m' : Read β) : Prop :=
  ∀ r s, Alike r s → RelatedOutcome R r s (m r) (m' s)

/-- The step does the same at readers that are alike up to the next marker. -/
abbrev Local {α : Type} (m : Read α) : Prop := Matches Eq m m

section
variable {α α' β β' : Type} {R : α → α' → Prop} {S : β → β' → Prop}

theorem matches_pure {a : α} {a' : α'} (h : R a a') : Matches R (pure a) (pure a') :=
  fun _ _ halike => ⟨h,halike,⟨rfl,rfl⟩,⟨rfl,rfl⟩⟩

theorem matches_throw (e : JpegError) : Matches R (throw e : Read α) (throw e : Read α') :=
  fun _ _ _ => rfl

theorem RelatedOutcome.trans {r s r' s' : BitReader} (hr : Kept r r') (hs : Kept s s')
    {o : Except JpegError (α × BitReader)} {o' : Except JpegError (α' × BitReader)}
    (h : RelatedOutcome R r' s' o o') : RelatedOutcome R r s o o' := by
  match o,o',h with
  | .ok _,.ok _,h => exact ⟨h.1,h.2.1,hr.trans h.2.2.1,hs.trans h.2.2.2⟩
  | .error _,.error _,h => exact h

/-- Steps in sequence, the second of which depends on the value of the first. -/
theorem Matches.bind {m : Read α} {m' : Read α'} {f : α → Read β} {f' : α' → Read β'}
    (hm : Matches R m m') (hf : ∀ a a', R a a' → Matches S (f a) (f' a')) :
    Matches S (m >>= f) (m' >>= f') := by
  intro r s h
  have hfirst := hm r s h
  show RelatedOutcome S r s (m r >>= fun p => f p.1 p.2) (m' s >>= fun p => f' p.1 p.2)
  match m r,m' s,hfirst with
  | .error _,.error _,hfirst => exact hfirst
  | .ok (a,r'),.ok (a',s'),⟨hvalue,halike,hr,hs⟩ =>
      exact RelatedOutcome.trans hr hs (hf a a' hvalue r' s' halike)

theorem Matches.ite {p : Prop} [Decidable p] {m n : Read α} {m' n' : Read α'}
    (hm : Matches R m m') (hn : Matches R n n') :
    Matches R (if p then m else n) (if p then m' else n') := by
  split_ifs
  · exact hm
  · exact hn

theorem local_pure (a : α) : Local (pure a : Read α) := matches_pure rfl

theorem Local.bind {m : Read α} {f : α → Read β} (hm : Local m) (hf : ∀ a, Local (f a)) :
    Local (m >>= f) := Matches.bind hm fun a _ h => h ▸ hf a

/-- A loop whose turns keep a relation. -/
theorem Matches.foldlM {γ : Type} {f : α → γ → Read α} {f' : α' → γ → Read α'} {l : List γ}
    (hf : ∀ c ∈ l, ∀ a a', R a a' → Matches R (f a c) (f' a' c)) {a : α} {a' : α'} (h : R a a') :
    Matches R (l.foldlM f a) (l.foldlM f' a') := by
  induction l generalizing a a' with
  | nil => exact matches_pure h
  | cons c l ih =>
      rw [List.foldlM_cons,List.foldlM_cons]
      exact (hf c (by simp) a a' h).bind fun b b' hb =>
        ih (fun c hc => hf c (List.mem_cons_of_mem _ hc)) hb

end

theorem local_ensureBits (n : ℕ) : Local (ensureBits n) := by
  intro r s h
  obtain ⟨ha,hr,hs⟩ := h.refillLoop n n
  have hbits : (refillTo n r).bits = (refillTo n s).bits := ha.bits
  unfold ensureBits
  by_cases hlt : (refillTo n s).bits < n
  · rw [if_pos hlt,if_pos (hbits ▸ hlt)]
    rfl
  · rw [if_neg hlt,if_neg (hbits ▸ hlt)]
    exact ⟨rfl,ha,hr,hs⟩

theorem local_ensureBitsPadded (n : ℕ) : Local (ensureBitsPadded n) := by
  intro r s h
  obtain ⟨ha,hr,hs⟩ := h.refillLoop n n
  have hmarker : (refillTo n r).marker = none ↔ (refillTo n s).marker = none := by
    rw [← Option.not_isSome_iff_eq_none,← Option.not_isSome_iff_eq_none]
    exact not_congr (Bool.eq_iff_iff.mp ha.seen)
  simp only [ensureBitsPadded]
  have hbits : (refillTo n r).bits = (refillTo n s).bits := ha.bits
  have hpad : (refillTo n r).allowEofPadding = false ∧ (refillTo n s).allowEofPadding = false :=
    ha.noPadding
  simp only [hbits,h.bits,hpad.1,hpad.2,hmarker]
  by_cases hlt : (refillTo n s).bits < n
  · simp only [if_pos hlt]
    by_cases hnone : (refillTo n s).marker = none
    · simp only [hnone]
      rfl
    · obtain ⟨hp,hpr,hps⟩ := Alike.pad (show Alike (refillTo n r) (refillTo n s) from ha)
        (n-(refillTo n s).bits)
      simp only [hnone,false_and,if_false]
      exact ⟨rfl,hp,Kept.trans hr hpr,Kept.trans hs hps⟩
  · simp only [if_neg hlt]
    by_cases hfirst : s.bits < n
    · obtain ⟨ht,htr,hts⟩ := Alike.refillLoop refillThreshold refillThreshold
        (show Alike (refillTo n r) (refillTo n s) from ha)
      simp only [if_pos hfirst]
      exact ⟨rfl,ht,Kept.trans hr htr,Kept.trans hs hts⟩
    · simp only [if_neg hfirst]
      exact ⟨rfl,ha,hr,hs⟩

theorem local_peek (n : ℕ) : Local (peek n) := by
  intro r s h
  refine ⟨?_,h,⟨rfl,rfl⟩,⟨rfl,rfl⟩⟩
  simp only [peekBits,h.acc]

theorem local_consumeBits (n : ℕ) : Local (consumeBits n) := by
  intro r s h
  refine ⟨rfl,⟨?_,?_,?_,h.ahead,h.seen,h.next,h.noPadding⟩,⟨rfl,rfl⟩,⟨rfl,rfl⟩⟩
  · simp only [consumed,h.acc]
  · simp only [consumed,h.bits]
  · simp only [consumed,h.bits,h.syntheticBits]

theorem local_receiveExtend (ssss : ℕ) : Local (receiveExtend ssss) :=
  Matches.ite (local_pure 0) ((local_ensureBits ssss).bind fun _ => (local_peek ssss).bind fun v =>
    (local_consumeBits ssss).bind fun _ => local_pure (extend v ssss))

end BitReader

open BitReader

namespace HuffmanTable

variable (table : HuffmanTable)

theorem local_decodeSlow : Local table.decodeSlow := by
  refine (local_ensureBitsPadded 16).bind fun _ => (local_peek 16).bind fun code16 => ?_
  cases table.slowLen code16 with
  | none => exact matches_throw _
  | some len =>
      refine (local_consumeBits len).bind fun _ => ?_
      split
      · exact matches_throw _
      · exact local_pure _

theorem local_decode : Local table.decode :=
  (local_ensureBitsPadded fastBits).bind fun _ => (local_peek fastBits).bind fun _ =>
    Matches.ite ((local_consumeBits _).bind fun _ => local_pure _) table.local_decodeSlow

theorem local_decodeFastDc : Local table.decodeFastDc :=
  (local_ensureBitsPadded fastBits).bind fun _ => (local_peek fastBits).bind fun _ =>
    Matches.ite ((local_consumeBits _).bind fun _ => local_pure _)
      (table.local_decode.bind fun ssss => Matches.ite (matches_throw _) (local_receiveExtend ssss))

end HuffmanTable

end J2kNative
