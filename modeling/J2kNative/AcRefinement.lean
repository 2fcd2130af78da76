import J2kNative.ProgressiveApproximation
import Mathlib.Data.Nat.Bitwise
import Mathlib.Tactic.Linarith
import Mathlib.Tactic.Positivity

/-!
# What a refinement scan does to the coefficients of a band

The correction pass returns the position of the zero that ended its run, or the
end of the band when it found none. The caller cannot tell the two apart: a run
too long for the zeros left is accepted, and a value announced with it lands on
the last coefficient of the band. Where every run fits, coefficients only gain
the bit the scan refines and values are stored at zeros.
-/
namespace J2kNative.AcRefinement

open Interruptible BlockDecoder

variable {ρ τ : Type}

/-- What one refinement at `al` may do to a coefficient. -/
def Refined (al : ℕ) (old new : BitVec 32) : Prop :=
  if old = 0 then new.toInt = 0 ∨ new.toInt = 2^al ∨ new.toInt = -2^al
  else new.toInt.sign = old.toInt.sign ∧
    (new.toInt.natAbs = old.toInt.natAbs ∨ new.toInt.natAbs = old.toInt.natAbs+2^al)

/-- The parameters of a refinement scan of AC coefficients that a scan header may have. -/
structure IsAcRefinement (scan : PreparedProgressiveScan τ) : Prop where
  start : 1 ≤ scan.ss
  ordered : scan.ss ≤ scan.se
  stop : scan.se < 64
  refines : scan.ah ≠ 0
  shift : scan.al ≤ 13

/-! ## The passes of the decoder -/

/-- The value and the zero run that the next symbol announces. -/
def announce (E : EntropyReader ρ τ) (scan : PreparedProgressiveScan τ) (table : τ) :
    BlockDecoder ρ (BitVec 32 × ℕ) := do
  let symbol ← ask (E.decode table)
  refineSymbol E scan.al symbol

/-- `refineNonZeroes` without the bound its type carries. -/
def pass (E : EntropyReader ρ τ) (stop al zeros k : ℕ) (s : BlockState ρ) :
    Except JpegError ℕ × BlockState ρ :=
  ((refineNonZeroes E stop al zeros k s).1.map Subtype.val,(refineNonZeroes E stop al zeros k s).2)

/-- The state before the turn of the loop at `l`, in the run that starts at `k` in `s`. -/
inductive Reached (E : EntropyReader ρ τ) (scan : PreparedProgressiveScan τ) (table : τ) :
    ℕ → BlockState ρ → ℕ → BlockState ρ → Prop
  | here {k : ℕ} {s : BlockState ρ} : k ≤ scan.se → Reached E scan table k s k s
  | later {k l p zeros : ℕ} {value : BitVec 32} {s w x y u : BlockState ρ} : k ≤ scan.se →
      announce E scan table s = (.ok (value,zeros),w) →
      pass E scan.se scan.al zeros k w = (.ok p,x) →
      storeAnnounced scan value p x = (.ok (),y) →
      Reached E scan table (p+1) y l u → Reached E scan table k s l u

/-- The values of the band from `k` on. -/
def band (block : DctBlock) (stop k : ℕ) : List (BitVec 32) :=
  (List.range' k (stop+1-k)).map fun j => (block (natural j)).value

/-- The end-of-band symbols announce 64 zeros and no value; the others announce a run. -/
def IsRun (value : BitVec 32) (zeros : ℕ) : Prop := value ≠ 0 ∨ zeros < 64

/-- At one turn: a value is stored only over a zero, and a run past the last zero of the
band, whose corrections can be read, is an error. -/
def TurnKeeps (E : EntropyReader ρ τ) (scan : PreparedProgressiveScan τ) (table : τ) (k : ℕ)
    (s : BlockState ρ) : Prop :=
  ∀ value zeros w p x, announce E scan table s = (.ok (value,zeros),w) →
    pass E scan.se scan.al zeros k w = (.ok p,x) →
    (IsRun value zeros → (band w.block scan.se k).count 0 ≤ zeros →
      ∃ e, (storeAnnounced scan value p x).1 = .error e) ∧
    (value ≠ 0 → (storeAnnounced scan value p x).1 = .ok () → (w.block (natural p)).value = 0)

/-- No coefficient of the band is overwritten and every overlong run is reported, in the
decoding of one block from `s`. -/
def Keeps (E : EntropyReader ρ τ) (scan : PreparedProgressiveScan τ)
    (scanComponent : PreparedProgressiveScanComponent τ) (s : BlockState ρ) : Prop :=
  (∀ k, scan.ss ≤ k → k ≤ scan.se → Refined scan.al (s.block (natural k)).value
    ((decodeProgressiveBlockRefine E scan scanComponent s).2.block (natural k)).value) ∧
  ∀ table, scanComponent.acTable = some table → s.eobRun = 0 →
    ∀ k u, Reached E scan table scan.ss s k u → TurnKeeps E scan table k u

/-! ## The condition on the entropy data -/

/-- The next `n` correction bits can be read. -/
def Readable (E : EntropyReader ρ τ) : ℕ → ρ → Prop
  | 0,_ => True
  | n+1,r => ∃ b r', E.readBits 1 r = .ok (b,r') ∧ Readable E n r'

/-- A set correction bit meets a coefficient too close to the least integer to move away
from zero, within the corrections of a run of `zeros`. -/
def MeetsLimit (E : EntropyReader ρ τ) (al : ℕ) : ℕ → List (BitVec 32) → ρ → Prop
  | _,[],_ => False
  | zeros,c::cs,r =>
      if c = 0 then 0 < zeros ∧ MeetsLimit E al (zeros-1) cs r
      else ∃ b r', E.readBits 1 r = .ok (b,r') ∧
        (b ≠ 0 ∧ c.toInt < -2^31+2^al ∨ MeetsLimit E al zeros cs r')

/-- The run announced at this turn ends at a zero of the band, unless its corrections
cannot be read. -/
def TurnFits (E : EntropyReader ρ τ) (scan : PreparedProgressiveScan τ) (table : τ) (k : ℕ)
    (s : BlockState ρ) : Prop :=
  ∀ value zeros w, announce E scan table s = (.ok (value,zeros),w) →
    ¬MeetsLimit E scan.al zeros (band w.block scan.se k) w.reader ∧
    (IsRun value zeros → Readable E ((band w.block scan.se k).countP (· ≠ 0)) w.reader →
      zeros < (band w.block scan.se k).count 0)

def Fits (E : EntropyReader ρ τ) (scan : PreparedProgressiveScan τ)
    (scanComponent : PreparedProgressiveScanComponent τ) (s : BlockState ρ) : Prop :=
  ∀ table, scanComponent.acTable = some table →
    if 0 < s.eobRun then ¬MeetsLimit E scan.al 64 (band s.block scan.se scan.ss) s.reader
    else ∀ k u, Reached E scan table scan.ss s k u → TurnFits E scan table k u

/-! ## The band -/

section Band
variable {block : DctBlock} {stop k : ℕ}

theorem band_cons (h : k ≤ stop) :
    band block stop k = (block (natural k)).value::band block stop (k+1) := by
  rw [band,show stop+1-k = stop+1-(k+1)+1 by omega,List.range'_succ,List.map_cons]
  rfl

theorem band_nil (h : stop < k) : band block stop k = [] := by
  rw [band,show stop+1-k = 0 by omega]
  rfl

theorem band_congr {block' : DctBlock} (h : ∀ j, k ≤ j → j ≤ stop →
    block' (natural j) = block (natural j)) : band block' stop k = band block stop k := by
  apply List.map_congr_left
  intro j hj
  obtain ⟨i,hi,rfl⟩ := List.mem_range'.mp hj
  rw [h _ (by omega) (by omega)]

theorem band_update (hstop : stop < 64) (hk : k ≤ stop) {c : Coefficient} :
    band (Function.update block (natural k) c) stop (k+1) = band block stop (k+1) := by
  apply band_congr
  intro j hj hjstop
  rw [Function.update_of_ne]
  intro heq
  have := natural_inj (by omega) (by omega) heq
  omega

end Band

/-! ## One coefficient -/

section Values
variable {al : ℕ} {old new : BitVec 32}

/-- What a correction bit makes of a nonzero coefficient. -/
def corrected (al b : ℕ) (coeff : BitVec 32) : BitVec 32 :=
  if b ≠ 0 ∧ coeff &&& 1#32 <<< al = 0 then
    if 0 < coeff.toInt then coeff+1#32 <<< al else coeff-1#32 <<< al
  else coeff

theorem refined_self : Refined al old old := by
  unfold Refined
  split_ifs with h
  · rw [h]
    exact Or.inl rfl
  · exact ⟨rfl,Or.inl rfl⟩

theorem toInt_bit (h : al ≤ 13) : (1#32 <<< al).toInt = 2^al := by
  have hle : 2^al ≤ 2^13 := Nat.pow_le_pow_right (by decide) h
  rw [BitVec.toInt_eq_toNat_of_lt (by rw [toNat_bit (by omega)]; omega),toNat_bit (by omega)]
  norm_cast

theorem toInt_neg_bit (h : al ≤ 13) : (-(1#32 <<< al)).toInt = -2^al := by
  have hle : (2 : ℤ)^al ≤ 2^13 := pow_le_pow_right₀ (by decide) h
  have hpos : (0 : ℤ) < 2^al := by positivity
  rw [BitVec.toInt_neg,toInt_bit h,Int.bmod_eq_of_le (by omega) (by omega)]

/-- A value announced at a zero. -/
theorem refined_announced (h : al ≤ 13) (hnew : new = 1#32 <<< al ∨ new = -(1#32 <<< al)) :
    Refined al 0 new := by
  rw [Refined,if_pos rfl]
  rcases hnew with rfl | rfl
  · exact Or.inr (Or.inl (toInt_bit h))
  · exact Or.inr (Or.inr (toInt_neg_bit h))

theorem refined_away {al : ℕ} (hne : old ≠ 0) (h : new.toInt = old.toInt+old.toInt.sign*2^al) :
    Refined al old new := by
  have hpos : (0 : ℤ) < 2^al := by positivity
  have hcast : ((2^al : ℕ) : ℤ) = 2^al := by norm_cast
  have hint : old.toInt ≠ 0 := fun h0 => hne (BitVec.eq_of_toInt_eq (h0.trans BitVec.toInt_zero.symm))
  rw [Refined,if_neg hne]
  rcases lt_or_gt_of_ne hint with hneg | hpos'
  · rw [Int.sign_eq_neg_one_of_neg hneg] at h ⊢
    exact ⟨Int.sign_eq_neg_one_of_neg (by omega),Or.inr (by omega)⟩
  · rw [Int.sign_eq_one_of_pos hpos'] at h ⊢
    exact ⟨Int.sign_eq_one_of_pos (by omega),Or.inr (by omega)⟩

theorem and_bit_eq_zero_iff {v : BitVec 32} (h : al ≤ 13) :
    v &&& 1#32 <<< al = 0 ↔ v.toNat.testBit al = false := by
  have hand : (v &&& 1#32 <<< al).toNat = v.toNat &&& 2^al := by
    rw [BitVec.toNat_and,toNat_bit (by omega)]
  rw [← BitVec.toNat_inj,hand,Nat.and_two_pow]
  cases v.toNat.testBit al
  · simp
  · simp

theorem toInt_add_bit (h : al ≤ 13) (hpos : 0 < old.toInt) (hclear : old &&& 1#32 <<< al = 0) :
    (old+1#32 <<< al).toInt = old.toInt+2^al := by
  have hbit : (2 : ℕ)^al < 2^31 := Nat.pow_lt_pow_right (by decide) (by omega)
  have hold : old.toNat < 2^31 := by
    rw [BitVec.toInt_eq_toNat_cond] at hpos
    have := old.isLt
    split_ifs at hpos <;> omega
  have hadd : (old+1#32 <<< al).toNat = old.toNat ||| 2^al := by
    rw [BitVec.add_eq_or_of_and_eq_zero _ _ hclear,BitVec.toNat_or,toNat_bit (by omega)]
  have hsum : (old+1#32 <<< al).toNat = old.toNat+2^al := by
    rw [BitVec.toNat_add,toNat_bit (by omega)]
    exact Nat.mod_eq_of_lt (by omega)
  have hlt : (old+1#32 <<< al).toNat < 2^31 := by
    rw [hadd]
    exact Nat.or_lt_two_pow hold hbit
  rw [BitVec.toInt_eq_toNat_of_lt (by omega),BitVec.toInt_eq_toNat_of_lt (by omega),hsum]
  norm_cast

theorem toInt_sub_bit (h : al ≤ 13) :
    (old-1#32 <<< al).toInt = (old.toInt-2^al).bmod (2^32) := by
  rw [BitVec.toInt_sub,toInt_bit h]

/-- A correction away from the least integer refines. -/
theorem refined_corrected {b : ℕ} (h : al ≤ 13) (hne : old ≠ 0)
    (hroom : ¬(b ≠ 0 ∧ old.toInt < -2^31+2^al)) : Refined al old (corrected al b old) := by
  unfold corrected
  split_ifs with hbit hpos
  · apply refined_away hne
    rw [toInt_add_bit h hpos hbit.2,Int.sign_eq_one_of_pos hpos,one_mul]
  · have hneg : old.toInt < 0 := by
      have hint : old.toInt ≠ 0 := fun h0 =>
        hne (BitVec.eq_of_toInt_eq (h0.trans BitVec.toInt_zero.symm))
      omega
    have hle : -2^31+2^al ≤ old.toInt := not_lt.mp fun hlt => hroom ⟨hbit.1,hlt⟩
    have hpow : (0 : ℤ) < 2^al := by positivity
    apply refined_away hne
    rw [toInt_sub_bit h,Int.sign_eq_neg_one_of_neg hneg,Int.bmod_eq_of_le (by omega) (by omega)]
    omega
  · exact refined_self

/-- At the least integers a correction wraps to the other sign. -/
theorem not_refined_corrected {b : ℕ} (h : al ≤ 13) (hb : b ≠ 0)
    (hlow : old.toInt < -2^31+2^al) : old ≠ 0 ∧ ¬Refined al old (corrected al b old) := by
  have hpow : (0 : ℤ) < 2^al := by positivity
  have hle : (2 : ℤ)^al ≤ 2^13 := pow_le_pow_right₀ (by decide) h
  have hmin : -2^31 ≤ old.toInt := BitVec.le_toInt old
  have hne : old ≠ 0 := by
    rintro rfl
    rw [show (0 : BitVec 32).toInt = 0 from rfl] at hlow
    omega
  have hclear : old &&& 1#32 <<< al = 0 := by
    rw [and_bit_eq_zero_iff h]
    obtain ⟨r,hr,hlt⟩ : ∃ r, old.toNat = 2^31+r ∧ r < 2^al := by
      refine ⟨old.toNat-2^31,?_⟩
      rw [BitVec.toInt_eq_toNat_cond] at hlow hmin
      zify
      have := old.isLt
      split_ifs at hlow hmin <;> omega
    rw [hr,show (2 : ℕ)^31 = 2^al*2^(31-al) by rw [← pow_add]; congr 1; omega,
      Nat.testBit_two_pow_mul_add _ hlt,if_neg (lt_irrefl _),Nat.sub_self]
    rw [show 31-al = 30-al+1 by omega]
    simp [pow_succ]
  refine ⟨hne,fun href => ?_⟩
  rw [corrected,if_pos ⟨hb,hclear⟩,if_neg (by omega),Refined,if_neg hne] at href
  have hwrap : (old-1#32 <<< al).toInt = old.toInt-2^al+2^32 := by
    rw [toInt_sub_bit h,← Int.add_bmod_right,Int.bmod_eq_of_le (by omega) (by omega)]
    rfl
  have hneg : old.toInt < 0 := by omega
  have hpos : 0 < old.toInt-2^al+2^32 := by omega
  have hsign := href.1
  rw [hwrap,Int.sign_eq_neg_one_of_neg hneg,Int.sign_eq_one_of_pos hpos] at hsign
  exact absurd hsign (by decide)

end Values

/-! ## The correction pass -/

section Pass
variable {E : EntropyReader ρ τ} {stop al zeros k : ℕ} {s : BlockState ρ}

/-- The state after a correction bit `b` for the coefficient at `k`. -/
def afterCorrection (al k b : ℕ) (reader : ρ) (s : BlockState ρ) : BlockState ρ :=
  { s with
    reader := reader
    block := Function.update s.block (natural k)
      ⟨corrected al b (s.block (natural k)).value,(s.block (natural k)).coded⟩
    refined := s.refined ++ [((s.block (natural k)).value,al)] }

/-- The runs of the correction pass. -/
inductive Passes (E : EntropyReader ρ τ) (stop al : ℕ) :
    ℕ → ℕ → BlockState ρ → Except JpegError ℕ × BlockState ρ → Prop
  | ended {zeros k : ℕ} {s : BlockState ρ} : stop < k → Passes E stop al zeros k s (.ok stop,s)
  | found {k : ℕ} {s : BlockState ρ} : k ≤ stop → (s.block (natural k)).value = 0 →
      Passes E stop al 0 k s (.ok k,s)
  | skipped {zeros k : ℕ} {s : BlockState ρ} {o : Except JpegError ℕ × BlockState ρ} : k ≤ stop →
      (s.block (natural k)).value = 0 → Passes E stop al zeros (k+1) s o →
      Passes E stop al (zeros+1) k s o
  | unread {zeros k : ℕ} {s : BlockState ρ} {e : JpegError} : k ≤ stop →
      (s.block (natural k)).value ≠ 0 → E.readBits 1 s.reader = .error e →
      Passes E stop al zeros k s
        (.error e,{ s with refined := s.refined ++ [((s.block (natural k)).value,al)] })
  | corrected {zeros k b : ℕ} {r : ρ} {s : BlockState ρ}
      {o : Except JpegError ℕ × BlockState ρ} : k ≤ stop → (s.block (natural k)).value ≠ 0 →
      E.readBits 1 s.reader = .ok (b,r) →
      Passes E stop al zeros (k+1) (afterCorrection al k b r s) o → Passes E stop al zeros k s o

theorem correct_run {b : ℕ} {coeff : BitVec 32} (h : (s.block (natural k)).value = coeff) :
    correct al k b coeff s = (.ok (),{ s with
      block := Function.update s.block (natural k)
        ⟨corrected al b coeff,(s.block (natural k)).coded⟩ }) := by
  unfold correct corrected
  split_ifs
  · rfl
  · rfl
  · rw [← h]
    show (_,s) = _
    rw [Function.update_eq_self]

theorem pass_skipped (hk : k ≤ stop) (hzero : (s.block (natural k)).value = 0) :
    pass E stop al (zeros+1) k s = pass E stop al zeros (k+1) s := by
  unfold pass
  rw [refineNonZeroes,dif_pos hk,run_bind]
  simp only [Interruptible.read,hzero,if_true,Nat.add_one_ne_zero,if_false,run_bind,Nat.add_sub_cancel]
  rcases refineNonZeroes E stop al zeros (k+1) s with ⟨_ | _,_⟩ <;> rfl

theorem pass_corrected {b : ℕ} {r : ρ} (hk : k ≤ stop) (hne : (s.block (natural k)).value ≠ 0)
    (hread : E.readBits 1 s.reader = .ok (b,r)) :
    pass E stop al zeros k s = pass E stop al zeros (k+1) (afterCorrection al k b r s) := by
  unfold pass
  rw [refineNonZeroes,dif_pos hk,run_bind]
  simp only [Interruptible.read,hne,if_false,run_bind,meet,change,ask,hread]
  have hcorrect : correct al k b (s.block (natural k)).value { s with
      reader := r
      refined := s.refined ++ [((s.block (natural k)).value,al)] } =
      (.ok (),afterCorrection al k b r s) := correct_run rfl
  rw [hcorrect]
  dsimp only
  rcases refineNonZeroes E stop al zeros (k+1) (afterCorrection al k b r s) with ⟨_ | _,_⟩ <;> rfl

theorem passes_pass : Passes E stop al zeros k s (pass E stop al zeros k s) := by
  induction hn : stop+1-k using Nat.strong_induction_on generalizing k zeros s with
  | _ n ih =>
      by_cases hk : k ≤ stop
      · by_cases hzero : (s.block (natural k)).value = 0
        · cases zeros with
          | zero =>
              have hfound : pass E stop al 0 k s = (.ok k,s) := by
                unfold pass
                rw [refineNonZeroes,dif_pos hk,run_bind]
                simp only [Interruptible.read,hzero,if_true]
                rfl
              rw [hfound]
              exact Passes.found hk hzero
          | succ zeros =>
              rw [pass_skipped hk hzero]
              exact Passes.skipped hk hzero (ih _ (by omega) rfl)
        · cases hread : E.readBits 1 s.reader with
          | error e =>
              have hunread : pass E stop al zeros k s = (.error e,{ s with
                  refined := s.refined ++ [((s.block (natural k)).value,al)] }) := by
                unfold pass
                rw [refineNonZeroes,dif_pos hk,run_bind]
                simp only [Interruptible.read,hzero,if_false,run_bind,meet,change,ask,hread]
                rfl
              rw [hunread]
              exact Passes.unread hk hzero hread
          | ok answer =>
              rw [pass_corrected hk hzero hread]
              exact Passes.corrected hk hzero hread (ih _ (by omega) rfl)
      · have hended : pass E stop al zeros k s = (.ok stop,s) := by
          unfold pass
          rw [refineNonZeroes,dif_neg hk]
          rfl
        rw [hended]
        exact Passes.ended (by omega)

theorem pass_run (E : EntropyReader ρ τ) (stop al zeros k : ℕ) (w : BlockState ρ) :
    Passes E stop al zeros k w (pass E stop al zeros k w) := passes_pass

section Rules
variable {o : Except JpegError ℕ × BlockState ρ}

theorem afterCorrection_other {b j : ℕ} {r : ρ} (hk : k < 64) (hj : j < 64) (hne : j ≠ k) :
    (afterCorrection al k b r s).block (natural j) = s.block (natural j) :=
  Function.update_of_ne (fun h => hne (natural_inj hj hk h)) _ _

theorem afterCorrection_self {b : ℕ} {r : ρ} :
    ((afterCorrection al k b r s).block (natural k)).value =
      corrected al b (s.block (natural k)).value := by
  show (Function.update s.block (natural k) _ (natural k)).value = _
  rw [Function.update_self]

theorem band_afterCorrection {b : ℕ} {r : ρ} (hstop : stop < 64) (hk : k ≤ stop) :
    band (afterCorrection al k b r s).block stop (k+1) = band s.block stop (k+1) :=
  band_update hstop hk

theorem Passes.before (h : Passes E stop al zeros k s o) (hstop : stop < 64) {j : ℕ} (hj : j < k)
    (hj64 : j < 64) : o.2.block (natural j) = s.block (natural j) := by
  induction h with
  | ended _ => rfl
  | found _ _ => rfl
  | skipped _ _ _ ih => exact ih (by omega)
  | unread _ _ _ => rfl
  | corrected hk _ _ _ ih =>
      rw [ih (by omega),afterCorrection_other (by omega) hj64 (by omega)]

theorem Passes.stopped (h : Passes E stop al zeros k s o) {p : ℕ} (hp : o.1 = .ok p) :
    min k stop ≤ p ∧ p ≤ stop := by
  induction h with
  | ended _ =>
      obtain rfl := Except.ok.inj hp
      omega
  | found _ _ =>
      obtain rfl := Except.ok.inj hp
      omega
  | skipped _ _ _ ih =>
      have := ih hp
      omega
  | unread _ _ _ => exact nomatch hp
  | corrected _ _ _ _ ih =>
      have := ih hp
      omega

theorem Passes.after (h : Passes E stop al zeros k s o) (hstop : stop < 64) {p j : ℕ}
    (hp : o.1 = .ok p) (hpj : p < j) (hj : j ≤ stop) :
    o.2.block (natural j) = s.block (natural j) := by
  induction h with
  | ended _ => rfl
  | found _ _ => rfl
  | skipped _ _ _ ih => exact ih hp
  | unread _ _ _ => rfl
  | corrected hk _ _ hpass ih =>
      have := (hpass.stopped hp).1
      rw [ih hp,afterCorrection_other (by omega) (by omega) (by omega)]

/-- Short of the least integers, the pass refines every coefficient and keeps the zeros. -/
theorem Passes.refined (h : Passes E stop al zeros k s o) (hstop : stop < 64) (hal : al ≤ 13)
    (hroom : ¬MeetsLimit E al zeros (band s.block stop k) s.reader) {j : ℕ} (hkj : k ≤ j)
    (hj : j ≤ stop) : Refined al (s.block (natural j)).value (o.2.block (natural j)).value ∧
      ((s.block (natural j)).value = 0 → (o.2.block (natural j)).value = 0) := by
  induction h with
  | ended _ => exact ⟨refined_self,id⟩
  | found _ _ => exact ⟨refined_self,id⟩
  | skipped hk hzero hpass ih =>
      rw [band_cons hk,MeetsLimit,if_pos hzero] at hroom
      rcases Nat.eq_or_lt_of_le hkj with rfl | hlt
      · rw [hpass.before hstop (Nat.lt_succ_self _) (by omega)]
        exact ⟨refined_self,id⟩
      · exact ih (fun h => hroom ⟨Nat.succ_pos _,h⟩) hlt
  | unread _ _ _ => exact ⟨refined_self,id⟩
  | @corrected zeros k b r s o hk hne hread hpass ih =>
      rw [band_cons hk,MeetsLimit,if_neg hne] at hroom
      rcases Nat.eq_or_lt_of_le hkj with rfl | hlt
      · rw [hpass.before hstop (Nat.lt_succ_self _) (by omega),afterCorrection_self]
        refine ⟨refined_corrected hal hne fun h => ?_,fun h => absurd h hne⟩
        exact hroom ⟨b,r,hread,Or.inl h⟩
      · have hother : (afterCorrection al k b r s).block (natural j) = s.block (natural j) :=
          afterCorrection_other (by omega) (by omega) (by omega)
        rw [← hother]
        refine ih ?_ hlt
        rw [band_afterCorrection hstop hk]
        exact fun h => hroom ⟨b,r,hread,Or.inr h⟩

theorem Passes.limit (h : Passes E stop al zeros k s o) (hstop : stop < 64) (hal : al ≤ 13)
    (hlimit : MeetsLimit E al zeros (band s.block stop k) s.reader) :
    ∃ j, k ≤ j ∧ j ≤ stop ∧ (s.block (natural j)).value ≠ 0 ∧
      ¬Refined al (s.block (natural j)).value (o.2.block (natural j)).value := by
  induction h with
  | ended hk =>
      rw [band_nil hk] at hlimit
      exact hlimit.elim
  | found hk hzero =>
      rw [band_cons hk,MeetsLimit,if_pos hzero] at hlimit
      exact absurd hlimit.1 (lt_irrefl 0)
  | skipped hk hzero _ ih =>
      rw [band_cons hk,MeetsLimit,if_pos hzero] at hlimit
      obtain ⟨j,hkj,hj⟩ := ih hlimit.2
      exact ⟨j,by omega,hj⟩
  | unread hk hne hread =>
      rw [band_cons hk,MeetsLimit,if_neg hne] at hlimit
      obtain ⟨b,r,hok,-⟩ := hlimit
      rw [hread] at hok
      exact nomatch hok
  | @corrected zeros k b r s o hk hne hread hpass ih =>
      rw [band_cons hk,MeetsLimit,if_neg hne] at hlimit
      obtain ⟨b',r',hok,hlimit⟩ := hlimit
      rw [hread] at hok
      obtain ⟨rfl,rfl⟩ := Prod.mk.inj (Except.ok.inj hok)
      rcases hlimit with hlow | hlater
      · refine ⟨k,Nat.le_refl k,hk,hne,?_⟩
        rw [hpass.before hstop (Nat.lt_succ_self _) (by omega),afterCorrection_self]
        exact (not_refined_corrected hal hlow.1 hlow.2).2
      · rw [← band_afterCorrection hstop hk] at hlater
        obtain ⟨j,hkj,hj,hjne,hnot⟩ := ih hlater
        rw [afterCorrection_other (by omega) (by omega) (by omega)] at hjne hnot
        exact ⟨j,by omega,hj,hjne,hnot⟩

/-- A run shorter than the zeros left ends at a zero. -/
theorem Passes.found_zero (h : Passes E stop al zeros k s o) (hstop : stop < 64) {p : ℕ}
    (hp : o.1 = .ok p) (hfits : zeros < (band s.block stop k).count 0) :
    (s.block (natural p)).value = 0 := by
  induction h with
  | ended hk =>
      rw [band_nil hk] at hfits
      exact absurd hfits (Nat.not_lt_zero _)
  | found _ hzero =>
      obtain rfl := Except.ok.inj hp
      exact hzero
  | skipped hk hzero _ ih =>
      rw [band_cons hk,hzero,List.count_cons_self] at hfits
      exact ih hp (by omega)
  | unread _ _ _ => exact nomatch hp
  | @corrected zeros k b r s o hk hne _ hpass ih =>
      rw [band_cons hk,List.count_cons_of_ne hne] at hfits
      have hstopped := hpass.stopped hp
      have hlt : k < stop := by
        by_contra hge
        rw [band_nil (by omega)] at hfits
        exact absurd hfits (Nat.not_lt_zero _)
      have hzero := ih hp (by rwa [band_afterCorrection hstop hk])
      rwa [afterCorrection_other (by omega) (by omega) (by omega)] at hzero

/-- A run past the last zero ends at the end of the band if its corrections can be read. -/
theorem Passes.overrun (h : Passes E stop al zeros k s o) (hstop : stop < 64)
    (hover : (band s.block stop k).count 0 ≤ zeros) :
    (∃ p, o.1 = .ok p) ↔ Readable E ((band s.block stop k).countP (· ≠ 0)) s.reader := by
  induction h with
  | ended hk =>
      rw [band_nil hk]
      exact ⟨fun _ => trivial,fun _ => ⟨stop,rfl⟩⟩
  | found hk hzero =>
      rw [band_cons hk,hzero,List.count_cons_self] at hover
      exact absurd hover (Nat.not_succ_le_zero _)
  | skipped hk hzero _ ih =>
      rw [band_cons hk,hzero,List.count_cons_self] at hover
      rw [band_cons hk,List.countP_cons_of_neg (by simp [hzero])]
      exact ih (by omega)
  | unread hk hne hread =>
      rw [band_cons hk,List.countP_cons_of_pos (by simpa using hne)]
      refine ⟨fun h => ?_,fun h => ?_⟩
      · obtain ⟨p,hp⟩ := h
        exact nomatch hp
      · obtain ⟨b,r,hok,-⟩ := h
        rw [hread] at hok
        exact nomatch hok
  | @corrected zeros k b r s o hk hne hread _ ih =>
      rw [band_cons hk,List.count_cons_of_ne hne] at hover
      rw [band_cons hk,List.countP_cons_of_pos (by simpa using hne)]
      have ih := ih (by rwa [band_afterCorrection hstop hk])
      rw [band_afterCorrection hstop hk] at ih
      rw [ih]
      refine ⟨fun h => ⟨b,r,hread,h⟩,fun h => ?_⟩
      obtain ⟨b',r',hok,h⟩ := h
      rw [hread] at hok
      obtain ⟨rfl,rfl⟩ := Prod.mk.inj (Except.ok.inj hok)
      exact h

end Rules
end Pass

/-! ## The loop over the band -/

section Loop
variable {E : EntropyReader ρ τ} {scan : PreparedProgressiveScan τ} {table : τ} {k l p zeros : ℕ}
  {value : BitVec 32} {s t u w x y : BlockState ρ}

theorem ends_announce {block : DctBlock} :
    Ends (fun s => s.block = block) (announce E scan table : BlockDecoder ρ _)
      (fun a s => s.block = block ∧ (a.1 = 0 ∨ a.1 = 1#32 <<< scan.al ∨ a.1 = -(1#32 <<< scan.al)))
      (fun s => s.block = block) := by
  unfold announce
  refine (ends_ask (fun _ _ h => h) fun _ h => h).bind fun symbol => ?_
  unfold refineSymbol
  split_ifs
  · exact ends_pure fun s h => ⟨h,Or.inl rfl⟩
  · refine (ends_decodeEobRun (fun _ _ h => h) fun _ h => h).bind fun run => ?_
    have hset : Ends (fun s : BlockState ρ => s.block = block) (setEobRun run)
        (fun _ s => s.block = block) (fun s => s.block = block) := ends_change fun s h => h
    exact hset.bind fun _ => ends_pure fun s h => ⟨h,Or.inl rfl⟩
  · refine (ends_ask (fun _ _ h => h) fun _ h => h).bind fun sign => ends_pure fun s h => ⟨h,?_⟩
    dsimp only
    split_ifs
    · exact Or.inr (Or.inl rfl)
    · exact Or.inr (Or.inr rfl)
  · exact ends_fail fun _ h => h

theorem block_of_announce {r : Except JpegError (BitVec 32 × ℕ)}
    (h : announce E scan table s = (r,w)) : w.block = s.block := by
  have hends := @ends_announce ρ τ E scan table s.block s rfl
  rw [h] at hends
  cases r with
  | ok a => exact hends.1
  | error e => exact hends

theorem value_of_announce (h : announce E scan table s = (.ok (value,zeros),w)) :
    value = 0 ∨ value = 1#32 <<< scan.al ∨ value = -(1#32 <<< scan.al) := by
  have hends := @ends_announce ρ τ E scan table s.block s rfl
  rw [h] at hends
  exact hends.2

theorem storeAnnounced_run (hp : p ≤ scan.se) : (storeAnnounced scan value p x : _ × BlockState ρ) =
    (.ok (),if value ≠ 0 then { x with
      block := Function.update x.block (natural p) ⟨value,(x.block (natural p)).coded⟩ }
    else x) := by
  unfold storeAnnounced
  split_ifs with hv hover
  · omega
  · rfl
  · rfl

/-- The runs of the loop over the band, by the state they leave. -/
inductive Loops (E : EntropyReader ρ τ) (scan : PreparedProgressiveScan τ) (table : τ) :
    ℕ → BlockState ρ → BlockState ρ → Prop
  | ended {k : ℕ} {s : BlockState ρ} : scan.se < k → Loops E scan table k s s
  | unannounced {k : ℕ} {e : JpegError} {s t : BlockState ρ} : k ≤ scan.se →
      announce E scan table s = (.error e,t) → Loops E scan table k s t
  | interrupted {k zeros : ℕ} {value : BitVec 32} {e : JpegError} {s w t : BlockState ρ} :
      k ≤ scan.se → announce E scan table s = (.ok (value,zeros),w) →
      pass E scan.se scan.al zeros k w = (.error e,t) → Loops E scan table k s t
  | turned {k p zeros : ℕ} {value : BitVec 32} {s w x y t : BlockState ρ} : k ≤ scan.se →
      announce E scan table s = (.ok (value,zeros),w) →
      pass E scan.se scan.al zeros k w = (.ok p,x) →
      storeAnnounced scan value p x = (.ok (),y) →
      Loops E scan table (p+1) y t → Loops E scan table k s t

theorem pass_stopped (hk : k ≤ scan.se) (h : pass E scan.se scan.al zeros k w = (.ok p,x)) :
    k ≤ p ∧ p ≤ scan.se := by
  have hpass := pass_run E scan.se scan.al zeros k w
  rw [h] at hpass
  have := hpass.stopped rfl
  omega

theorem loops_refineAcLoop : Loops E scan table k s (refineAcLoop E scan table k s).2 := by
  induction hn : scan.se+1-k using Nat.strong_induction_on generalizing k s with
  | _ n ih =>
      by_cases hk : k ≤ scan.se
      · have hloop : refineAcLoop E scan table k = announce E scan table >>= fun announced =>
            refineNonZeroes E scan.se scan.al announced.2 k >>= fun stopped =>
            storeAnnounced scan announced.1 stopped.1 >>= fun _ =>
            refineAcLoop E scan table (stopped.1+1) := by
          rw [refineAcLoop,dif_pos hk,announce,bind_assoc]
        rw [hloop,run_bind]
        rcases hannounce : announce E scan table s with ⟨e | ⟨value,zeros⟩,w⟩
        · exact Loops.unannounced hk hannounce
        · dsimp only
          rw [run_bind]
          have hpass : pass E scan.se scan.al zeros k w =
            (Except.map Subtype.val (refineNonZeroes E scan.se scan.al zeros k w).1,
              (refineNonZeroes E scan.se scan.al zeros k w).2) := rfl
          rcases hrefine : refineNonZeroes E scan.se scan.al zeros k w with ⟨e | ⟨p,hp⟩,x⟩
          · rw [hrefine] at hpass
            exact Loops.interrupted hk hannounce hpass
          · rw [hrefine] at hpass
            have hstopped := pass_stopped hk hpass
            have hstore := @storeAnnounced_run ρ τ scan p value x hstopped.2
            dsimp only
            rw [run_bind,hstore]
            exact Loops.turned hk hannounce hpass hstore (ih _ (by omega) rfl)
      · rw [refineAcLoop,dif_neg hk]
        exact Loops.ended (by omega)

theorem Loops.before (h : Loops E scan table k s t) (hstop : scan.se < 64) {j : ℕ} (hj : j < k)
    (hj64 : j < 64) : t.block (natural j) = s.block (natural j) := by
  induction h with
  | ended _ => rfl
  | unannounced _ hannounce => rw [block_of_announce hannounce]
  | @interrupted k zeros value e s w t _ hannounce hpass =>
      have hbefore := (pass_run E scan.se scan.al zeros k w).before hstop hj hj64
      rw [hpass] at hbefore
      rw [hbefore,block_of_announce hannounce]
  | @turned k p zeros value s w x y t hk hannounce hpass hstore _ ih =>
      have hstopped := pass_stopped hk hpass
      have hbefore := (pass_run E scan.se scan.al zeros k w).before hstop hj hj64
      rw [hpass,block_of_announce hannounce] at hbefore
      rw [storeAnnounced_run hstopped.2] at hstore
      obtain ⟨-,rfl⟩ := Prod.mk.inj hstore
      rw [ih (by omega),← hbefore]
      split_ifs
      · exact Function.update_of_ne (fun heq => by
          have := natural_inj hj64 (by omega) heq
          omega) _ _
      · rfl

theorem reached_turned (hk : k ≤ scan.se)
    (hannounce : announce E scan table s = (.ok (value,zeros),w))
    (hpass : pass E scan.se scan.al zeros k w = (.ok p,x))
    (hstore : storeAnnounced scan value p x = (.ok (),y)) :
    Reached E scan table k s l u ↔ l = k ∧ u = s ∨ Reached E scan table (p+1) y l u := by
  constructor
  · intro h
    cases h with
    | here _ => exact Or.inl ⟨rfl,rfl⟩
    | later _ hannounce' hpass' hstore' hlater =>
        rw [hannounce] at hannounce'
        obtain ⟨h,rfl⟩ := Prod.mk.inj hannounce'
        obtain ⟨rfl,rfl⟩ := Prod.mk.inj (Except.ok.inj h)
        rw [hpass] at hpass'
        obtain ⟨h,rfl⟩ := Prod.mk.inj hpass'
        obtain rfl := Except.ok.inj h
        rw [hstore] at hstore'
        obtain ⟨-,rfl⟩ := Prod.mk.inj hstore'
        exact Or.inr hlater
  · rintro (⟨rfl,rfl⟩ | hlater)
    · exact Reached.here hk
    · exact Reached.later hk hannounce hpass hstore hlater

/-- A run whose first turn does not complete reaches no other turn. -/
theorem reached_stuck (hk : k ≤ scan.se) (hstuck : ∀ value zeros w p x,
    announce E scan table s = (.ok (value,zeros),w) →
    pass E scan.se scan.al zeros k w ≠ (.ok p,x)) :
    Reached E scan table k s l u ↔ l = k ∧ u = s := by
  constructor
  · intro h
    cases h with
    | here _ => exact ⟨rfl,rfl⟩
    | later _ hannounce hpass _ _ => exact absurd hpass (hstuck _ _ _ _ _ hannounce)
  · rintro ⟨rfl,rfl⟩
    exact Reached.here hk

/-- A turn whose run fits stores over zeros only and has nothing to report. -/
theorem turnKeeps_of_fits (hstop : scan.se < 64) (h : TurnFits E scan table k s) :
    TurnKeeps E scan table k s := by
  intro value zeros w p x hannounce hpass
  have hrun := pass_run E scan.se scan.al zeros k w
  rw [hpass] at hrun
  have hfits : IsRun value zeros → zeros < (band w.block scan.se k).count 0 := by
    intro hisrun
    by_contra hover
    have hreadable := (hrun.overrun hstop (Nat.not_lt.mp hover)).mp ⟨p,rfl⟩
    exact hover ((h value zeros w hannounce).2 hisrun hreadable)
  refine ⟨fun hisrun hover => ?_,fun hvalue _ => ?_⟩
  · exact absurd (hfits hisrun) (Nat.not_lt.mpr hover)
  · exact hrun.found_zero hstop rfl (hfits (Or.inl hvalue))

/-- A run that does not fit is stored or dropped without an error. -/
theorem run_fits_of_keeps (hk : k ≤ scan.se) (hstop : scan.se < 64)
    (h : TurnKeeps E scan table k s) (hannounce : announce E scan table s = (.ok (value,zeros),w))
    (hisrun : IsRun value zeros)
    (hreadable : Readable E ((band w.block scan.se k).countP (· ≠ 0)) w.reader) :
    zeros < (band w.block scan.se k).count 0 := by
  by_contra hover
  have hrun := pass_run E scan.se scan.al zeros k w
  obtain ⟨p,hp⟩ := (hrun.overrun hstop (Nat.not_lt.mp hover)).mpr hreadable
  have hpass : pass E scan.se scan.al zeros k w = (.ok p,(pass E scan.se scan.al zeros k w).2) :=
    Prod.ext hp rfl
  obtain ⟨e,he⟩ := (h value zeros w p _ hannounce hpass).1 hisrun (Nat.not_lt.mp hover)
  rw [storeAnnounced_run (pass_stopped hk hpass).2] at he
  exact nomatch he

theorem not_meetsLimit_of_refined (hscan : IsAcRefinement scan)
    (hannounce : announce E scan table s = (.ok (value,zeros),w))
    (h : ∀ j, k ≤ j → j ≤ scan.se → (s.block (natural j)).value ≠ 0 →
      Refined scan.al (s.block (natural j)).value
        ((pass E scan.se scan.al zeros k w).2.block (natural j)).value) :
    ¬MeetsLimit E scan.al zeros (band w.block scan.se k) w.reader := by
  intro hlimit
  obtain ⟨j,hkj,hj,hne,hnot⟩ :=
    (pass_run E scan.se scan.al zeros k w).limit hscan.stop hscan.shift hlimit
  rw [block_of_announce hannounce] at hne hnot
  exact hnot (h j hkj hj hne)

/-- The loop refines every coefficient and keeps its turns exactly when every turn fits. -/
theorem Loops.refines_iff (h : Loops E scan table k s t) (hscan : IsAcRefinement scan) :
    ((∀ j, k ≤ j → j ≤ scan.se →
        Refined scan.al (s.block (natural j)).value (t.block (natural j)).value) ∧
      ∀ l u, Reached E scan table k s l u → TurnKeeps E scan table l u) ↔
    ∀ l u, Reached E scan table k s l u → TurnFits E scan table l u := by
  have hstop := hscan.stop
  induction h with
  | @ended k s hk =>
      have hnone : ∀ l u, ¬Reached E scan table k s l u := by
        intro l u hreached
        cases hreached <;> omega
      exact ⟨fun _ l u hreached => absurd hreached (hnone l u),
        fun _ => ⟨fun j _ _ => by omega,fun l u hreached => absurd hreached (hnone l u)⟩⟩
  | @unannounced k e s t hk hannounce =>
      have hfails : ∀ value zeros w, announce E scan table s ≠ (.ok (value,zeros),w) := by
        intro value zeros w hok
        rw [hannounce] at hok
        exact nomatch (Prod.mk.inj hok).1
      simp only [reached_stuck hk fun value zeros w p x hok => absurd hok (hfails value zeros w)]
      refine ⟨?_,?_⟩
      · rintro - l u ⟨rfl,rfl⟩ value zeros w hok
        exact absurd hok (hfails value zeros w)
      · intro _
        refine ⟨fun j _ _ => ?_,?_⟩
        · rw [block_of_announce hannounce]
          exact refined_self
        · rintro l u ⟨rfl,rfl⟩ value zeros w p x hok
          exact absurd hok (hfails value zeros w)
  | @interrupted k zeros value e s w t hk hannounce hpass =>
      have hrun := pass_run E scan.se scan.al zeros k w
      have hstuck : ∀ value zeros w p x, announce E scan table s = (.ok (value,zeros),w) →
          pass E scan.se scan.al zeros k w ≠ (.ok p,x) := by
        intro value' zeros' w' p x hok hpassed
        rw [hannounce] at hok
        obtain ⟨h,rfl⟩ := Prod.mk.inj hok
        obtain ⟨rfl,rfl⟩ := Prod.mk.inj (Except.ok.inj h)
        rw [hpass] at hpassed
        exact nomatch (Prod.mk.inj hpassed).1
      simp only [reached_stuck hk hstuck]
      refine ⟨?_,?_⟩
      · rintro ⟨hrefined,hkeeps⟩ l u ⟨rfl,rfl⟩ value' zeros' w' hok
        refine ⟨?_,run_fits_of_keeps hk hstop (hkeeps _ _ ⟨rfl,rfl⟩) hok⟩
        rw [hannounce] at hok
        obtain ⟨h,rfl⟩ := Prod.mk.inj hok
        obtain ⟨rfl,rfl⟩ := Prod.mk.inj (Except.ok.inj h)
        apply not_meetsLimit_of_refined hscan hannounce
        intro j hkj hj _
        rw [hpass]
        exact hrefined j hkj hj
      · intro hfits
        have hfit := hfits k s ⟨rfl,rfl⟩
        refine ⟨fun j hkj hj => ?_,?_⟩
        · have hrefined := hrun.refined hstop hscan.shift (hfit value zeros w hannounce).1 hkj hj
          rw [hpass,block_of_announce hannounce] at hrefined
          exact hrefined.1
        · rintro l u ⟨rfl,rfl⟩
          exact turnKeeps_of_fits hstop hfit
  | @turned k p zeros value s w x y t hk hannounce hpass hstore hloops ih =>
      have hrun := pass_run E scan.se scan.al zeros k w
      have hstopped := pass_stopped hk hpass
      have hblock := block_of_announce hannounce
      have hy : ∀ j, p ≠ j → j < 64 →
          y.block (natural j) = (pass E scan.se scan.al zeros k w).2.block (natural j) := by
        intro j hne hj
        rw [storeAnnounced_run hstopped.2] at hstore
        obtain ⟨-,rfl⟩ := Prod.mk.inj hstore
        rw [hpass]
        split_ifs
        · exact Function.update_of_ne (fun heq => hne (natural_inj (by omega) hj heq.symm)) _ _
        · rfl
      have hlater : ∀ j, p < j → j ≤ scan.se → y.block (natural j) = s.block (natural j) := by
        intro j hpj hj
        rw [hy j (by omega) (by omega),hrun.after hstop (by rw [hpass]) hpj hj,hblock]
      have hdone : ∀ j, j ≤ p → t.block (natural j) = y.block (natural j) := fun j hj =>
        hloops.before hstop (by omega) (by omega)
      have hturned (l : ℕ) (u : BlockState ρ) :=
        reached_turned (l := l) (u := u) hk hannounce hpass hstore
      refine ⟨?_,?_⟩
      · rintro ⟨hrefined,hkeeps⟩
        have hkeep := hkeeps k s ((hturned k s).mpr (Or.inl ⟨rfl,rfl⟩))
        have hfits := ih.mp ⟨fun j hpj hj => by
            rw [hlater j (by omega) hj]
            exact hrefined j (by omega) hj,
          fun l u hreached => hkeeps l u ((hturned l u).mpr (Or.inr hreached))⟩
        intro l u hreached
        rcases (hturned l u).mp hreached with ⟨rfl,rfl⟩ | hreached
        · intro value' zeros' w' hok
          refine ⟨?_,run_fits_of_keeps hk hstop hkeep hok⟩
          have hstored := (hkeep value zeros w p x hannounce hpass).2
          rw [hannounce] at hok
          obtain ⟨h,rfl⟩ := Prod.mk.inj hok
          obtain ⟨rfl,rfl⟩ := Prod.mk.inj (Except.ok.inj h)
          apply not_meetsLimit_of_refined hscan hannounce
          intro j hkj hj hne
          by_cases hjp : j ≤ p
          · by_cases hjp' : p = j
            · subst hjp'
              by_cases hv : value = 0
              · have hyx : y = x := by
                  rw [storeAnnounced_run hstopped.2,if_neg (not_not.mpr hv)] at hstore
                  exact (Prod.mk.inj hstore).2.symm
                rw [hpass,← hyx,← hdone _ hjp]
                exact hrefined _ hkj hj
              · have hzero := hstored hv (by rw [hstore])
                rw [hblock] at hzero
                exact absurd hzero hne
            · rw [← hy j hjp' (by omega),← hdone j hjp]
              exact hrefined j hkj hj
          · rw [hrun.after hstop (by rw [hpass]) (by omega) hj,hblock]
            exact refined_self
        · exact hfits l u hreached
      · intro hfits
        have hfit := hfits k s ((hturned k s).mpr (Or.inl ⟨rfl,rfl⟩))
        have hkeep := turnKeeps_of_fits hstop hfit
        obtain ⟨hrefined,hkeeps⟩ :=
          ih.mpr fun l u hreached => hfits l u ((hturned l u).mpr (Or.inr hreached))
        refine ⟨fun j hkj hj => ?_,fun l u hreached => ?_⟩
        · by_cases hjp : j ≤ p
          · have hpassed := hrun.refined hstop hscan.shift (hfit value zeros w hannounce).1 hkj hj
            rw [hblock] at hpassed
            rw [hdone j hjp]
            by_cases hjp' : p = j
            · subst hjp'
              rw [storeAnnounced_run hstopped.2] at hstore
              obtain ⟨-,rfl⟩ := Prod.mk.inj hstore
              rw [hpass] at hpassed
              split_ifs with hv
              · have hzero := (hkeep value zeros w p x hannounce hpass).2 hv
                  (by rw [storeAnnounced_run hstopped.2])
                rw [hblock] at hzero
                show Refined _ _ (Function.update x.block (natural p) _ (natural p)).value
                rw [Function.update_self,hzero]
                exact refined_announced hscan.shift
                  ((value_of_announce hannounce).resolve_left hv)
              · exact hpassed.1
            · rw [hy j hjp' (by omega)]
              exact hpassed.1
          · rw [← hlater j (by omega) hj]
            exact hrefined j (by omega) hj
        · rcases (hturned l u).mp hreached with ⟨rfl,rfl⟩ | hreached
          · exact hkeep
          · exact hkeeps l u hreached

end Loop

/-! ## One block -/

section Block
variable {E : EntropyReader ρ τ} {scan : PreparedProgressiveScan τ}
  {scanComponent : PreparedProgressiveScanComponent τ} {s : BlockState ρ}

theorem decode_missing (h : 1 ≤ scan.ss) (htable : scanComponent.acTable = none) :
    decodeProgressiveBlockRefine E scan scanComponent s = (.error missingTable,s) := by
  rw [decodeProgressiveBlockRefine,if_neg (by omega),htable]
  rfl

theorem decode_run {table : τ} (h : 1 ≤ scan.ss) (htable : scanComponent.acTable = some table)
    (hrun : 0 < s.eobRun) : (decodeProgressiveBlockRefine E scan scanComponent s).2 =
      (pass E scan.se scan.al 64 scan.ss { s with eobRun := s.eobRun-1 }).2 := by
  rw [decodeProgressiveBlockRefine,if_neg (by omega),htable]
  show ((if 0 < s.eobRun then _ else _ : BlockDecoder ρ Unit) s).2 = _
  rw [if_pos hrun]
  show ((refineNonZeroes E scan.se scan.al 64 scan.ss >>= fun _ => pure ())
    { s with eobRun := s.eobRun-1 }).2 = _
  rw [run_bind,pass]
  rcases refineNonZeroes E scan.se scan.al 64 scan.ss { s with eobRun := s.eobRun-1 }
    with ⟨_ | _,_⟩ <;> rfl

theorem decode_loop {table : τ} (h : 1 ≤ scan.ss) (htable : scanComponent.acTable = some table)
    (hrun : ¬0 < s.eobRun) : decodeProgressiveBlockRefine E scan scanComponent s =
      refineAcLoop E scan table scan.ss s := by
  rw [decodeProgressiveBlockRefine,if_neg (by omega),htable]
  show (if 0 < s.eobRun then _ else _ : BlockDecoder ρ Unit) s = _
  rw [if_neg hrun]

/-- In a refinement scan of AC coefficients, whatever the block holds and the entropy data
answer, nothing is overwritten and every overlong run is an error exactly when every run
announced fits the zeros left in the band. -/
theorem keeps_iff_fits (hscan : IsAcRefinement scan) :
    Keeps E scan scanComponent s ↔ Fits E scan scanComponent s := by
  unfold Keeps Fits
  cases htable : scanComponent.acTable with
  | none =>
      rw [decode_missing hscan.start htable]
      exact ⟨fun _ => nofun,fun _ => ⟨fun _ _ _ => refined_self,nofun⟩⟩
  | some table =>
      simp only [Option.some.injEq,forall_eq']
      by_cases hrun : 0 < s.eobRun
      · rw [decode_run hscan.start htable hrun,if_pos hrun]
        have hpass := pass_run E scan.se scan.al 64 scan.ss { s with eobRun := s.eobRun-1 }
        constructor
        · rintro ⟨hrefined,-⟩ hlimit
          obtain ⟨j,hj,hjse,-,hnot⟩ := hpass.limit hscan.stop hscan.shift hlimit
          exact hnot (hrefined j hj hjse)
        · intro hroom
          refine ⟨fun j hj hjse => (hpass.refined hscan.stop hscan.shift hroom hj hjse).1,?_⟩
          intro hzero
          omega
      · rw [decode_loop hscan.start htable hrun,if_neg hrun]
        have hloop : Loops E scan table scan.ss s (refineAcLoop E scan table scan.ss s).2 :=
          loops_refineAcLoop
        rw [← hloop.refines_iff hscan]
        simp only [show s.eobRun = 0 by omega,forall_true_left]

end Block

/-! ## A value stored over a coefficient -/

def nextAnswer : List ℕ → Except JpegError (ℕ × List ℕ)
  | a::rest => .ok (a,rest)
  | [] => .error invalidSymbol

/-- Entropy data given by the answers to the requests, in order. -/
def answers : EntropyReader (List ℕ) Unit where
  start _ := .ok []
  decode _ r := nextAnswer r
  readBits _ r := nextAnswer r
  receiveExtend _ r := (nextAnswer r).map fun p => (BitVec.ofNat 32 p.1,p.2)
  consumeRestartMarker expectedRst _ _ r := .ok ((expectedRst+1) % 8,r)
  reconcile _ _ := .ok ()

/-- The last position refined from 1 to 0, of the first AC coefficient only. -/
def oneCoefficientScan : PreparedProgressiveScan Unit :=
  ⟨[⟨0,none,some ()⟩],1,1,1,0,0,0,0xD9,none⟩

/-- A block whose coefficients are all two, before the given answers. -/
def filledState (data : List ℕ) : BlockState (List ℕ) := ⟨data,fun _ => ⟨2,some 1⟩,0,0,[]⟩

theorem oneCoefficientScan_refines : IsAcRefinement oneCoefficientScan :=
  ⟨by decide,by decide,by decide,by decide,by decide⟩

/-- Symbol 1 and a positive sign announce a value without zeros before it; the band has no
zero, and the value lands on its only coefficient. -/
theorem value_overwrites : ¬Keeps answers oneCoefficientScan ⟨0,none,some ()⟩
    (filledState [1,1,0]) := by
  intro hkeeps
  have hannounce : announce answers oneCoefficientScan () (filledState [1,1,0]) =
      (.ok (1#32,0),filledState [0]) := by
    rfl
  have hpass : pass answers 1 0 0 1 (filledState [0]) =
      (.ok 1,afterCorrection 0 1 0 [] (filledState [0])) := by
    rw [@pass_corrected _ _ answers 1 0 0 1 (filledState [0]) 0 [] (by decide) (by decide) rfl]
    unfold pass
    rw [refineNonZeroes,dif_neg (by decide)]
    rfl
  have hturn := hkeeps.2 () rfl rfl 1 _ (Reached.here (by decide))
  have hzero := (hturn _ _ _ _ _ hannounce hpass).2 (by decide) rfl
  exact absurd hzero (by decide)

theorem keeps_iff_fits_filled : IsAcRefinement oneCoefficientScan ∧
    (Keeps answers oneCoefficientScan ⟨0,none,some ()⟩ (filledState [1,1,0]) ↔
      Fits answers oneCoefficientScan ⟨0,none,some ()⟩ (filledState [1,1,0])) :=
  ⟨oneCoefficientScan_refines,keeps_iff_fits oneCoefficientScan_refines⟩

end J2kNative.AcRefinement
