import J2kNative.HuffmanReading
import J2kNative.Lockstep
import J2kNative.ProgressiveApproximation

/-!
# The decoders of a block

The loops that decode a sequential block: with the activity of the block, straight
into a cleared array, quantized and dequantized at once, for a reduced transform,
for the DC coefficient alone, and without any coefficient. They drive one loop over
the AC codes. A block that is reused remembers a few positions that it wrote, and
that they are all it wrote, or that it must be cleared as a whole. An error leaves
the predictor and the block as they are then; the reader after it is left out.
-/
namespace J2kNative.BlockVariants

open BitReader

/-! ## The coefficient block -/

def denseClearThreshold : ℕ := 4

inductive ClearMode where
  | sparse
  | dense
  deriving DecidableEq, Repr

/-- Coefficients by natural position; in sparse mode only touched ones differ from zero. -/
structure CoefficientBlock where
  coeffs : ℕ → ℤ
  touched : List ℕ
  clearMode : ClearMode
  touched_covers : clearMode = .sparse → ∀ i, coeffs i ≠ 0 → i ∈ touched

namespace CoefficientBlock

instance : Inhabited CoefficientBlock := ⟨⟨fun _ => 0,[],.sparse,fun _ _ h => absurd rfl h⟩⟩

/-- Zeros at the positions of a list. -/
def clearAll (touched : List ℕ) (coeffs : ℕ → ℤ) : ℕ → ℤ :=
  touched.foldl (fun coeffs idx => Function.update coeffs idx 0) coeffs

theorem clearAll_apply (touched : List ℕ) (coeffs : ℕ → ℤ) (i : ℕ) :
    clearAll touched coeffs i = if i ∈ touched then 0 else coeffs i := by
  induction touched generalizing coeffs with
  | nil => rfl
  | cons idx touched ih =>
      show clearAll touched (Function.update coeffs idx 0) i = _
      rw [ih]
      by_cases heq : i = idx
      · subst heq
        simp
      · simp [heq]

/-- What is left where the touched positions of a block are cleared. -/
def cleared (block : CoefficientBlock) : ℕ → ℤ :=
  match block.clearMode with
  | .sparse => clearAll block.touched block.coeffs
  | .dense => fun _ => 0

theorem cleared_eq_zero (block : CoefficientBlock) (i : ℕ) : block.cleared i = 0 := by
  unfold cleared
  cases hmode : block.clearMode with
  | dense => rfl
  | sparse =>
      show clearAll block.touched block.coeffs i = 0
      rw [clearAll_apply]
      by_cases hmem : i ∈ block.touched
      · exact if_pos hmem
      · rw [if_neg hmem]
        exact not_not.mp fun hne => hmem (block.touched_covers hmode i hne)

def clearTouched (block : CoefficientBlock) : CoefficientBlock where
  coeffs := block.cleared
  touched := []
  clearMode := .sparse
  touched_covers := fun _ i h => absurd (block.cleared_eq_zero i) h

@[simp] theorem clearTouched_coeffs (block : CoefficientBlock) (i : ℕ) :
    block.clearTouched.coeffs i = 0 := block.cleared_eq_zero i

def store (block : CoefficientBlock) (idx : ℕ) (value : ℤ) : CoefficientBlock where
  coeffs := Function.update block.coeffs idx value
  touched := if block.clearMode = .sparse ∧ block.touched.length < denseClearThreshold then
    block.touched ++ [idx] else block.touched
  clearMode := if block.touched.length < denseClearThreshold then block.clearMode else .dense
  touched_covers := by
    intro hmode i hne
    by_cases hroom : block.touched.length < denseClearThreshold
    · rw [if_pos hroom] at hmode
      rw [if_pos ⟨hmode,hroom⟩]
      by_cases heq : i = idx
      · subst heq
        simp
      · rw [Function.update_of_ne heq] at hne
        exact List.mem_append_left _ (block.touched_covers hmode i hne)
    · rw [if_neg hroom] at hmode
      cases hmode

@[simp] theorem store_coeffs (block : CoefficientBlock) (idx : ℕ) (value : ℤ) :
    (block.store idx value).coeffs = Function.update block.coeffs idx value := rfl

end CoefficientBlock

/-! ## The decoders -/

/-- Wrapping arithmetic in 32 bits. -/
def wrapI32 (value : ℤ) : ℤ := value.bmod (2^32)

def clampI16 (v : ℤ) : ℤ := if 2^15-1 < v then 2^15-1 else if v < -2^15 then -2^15 else v

inductive BlockActivity where
  | dcOnly
  | bottomHalfZero
  | general
  deriving DecidableEq, Repr

def extendActivity (activity : BlockActivity) (naturalIdx : ℕ) : BlockActivity :=
  if naturalIdx < 32 then
    match activity with
    | .dcOnly => .bottomHalfZero
    | .bottomHalfZero => .bottomHalfZero
    | .general => .general
  else .general

inductive ReducedIdctCoefficients where
  | half
  | quarter
  deriving DecidableEq, Repr

def ReducedIdctCoefficients.keeps (keep : ReducedIdctCoefficients) (naturalIdx : ℕ) : Bool :=
  let row := naturalIdx >>> 3
  let col := naturalIdx &&& 7
  match keep with
  | .half => row ≠ 4 ∧ col ≠ 4
  | .quarter => ¬(row = 2 ∨ row = 4 ∨ row = 6) ∧ ¬(col = 2 ∨ col = 4 ∨ col = 6)

section
variable {σ : Type}

/-- The loop over the AC codes from zigzag position `k` on: what it makes of the state, and the
reader at the end of the block or the error. -/
def driveAcFast (skipValues : Bool) (acTable : HuffmanTable) (onValue : ℕ → ℕ → σ → σ) (k : ℕ)
    (s : σ) (br : BitReader) : σ × Except JpegError BitReader :=
  if 64 ≤ k then (s,.ok br)
  else match (if skipValues then acTable.skipFastAc else acTable.decodeFastAc) br with
    | .error e => (s,.error e)
    | .ok (ac,br) =>
      if ac &&& acFastKindMask = acFastEob then (s,.ok br)
      else if ac &&& acFastKindMask = acFastZrl then
        driveAcFast skipValues acTable onValue (k+16) s br
      -- the tables have no fourth tag
      else if 64 ≤ k+acDecodedRun ac then (s,.error (huffmanFailure .invalidSymbol))
      else driveAcFast skipValues acTable onValue (k+acDecodedRun ac+1)
        (onValue (k+acDecodedRun ac) ac s) br
termination_by 64-k

/-- The DC predictor and what is written, also where the block ends in an error. -/
structure BlockOutcome (σ : Type) where
  prevDc : ℤ
  state : σ
  result : Except JpegError BitReader

/-- What the decoders share: the DC difference, and the loop over the AC codes. -/
def decodeWith (skipValues : Bool) (dcTable acTable : HuffmanTable) (prevDc : ℤ) (s : σ)
    (storeDc : ℤ → σ → σ) (onValue : ℕ → ℕ → σ → σ) (br : BitReader) : BlockOutcome σ :=
  match dcTable.decodeFastDc br with
  | .error e => ⟨prevDc,s,.error e⟩
  | .ok (diff,br) =>
    let dc := wrapI32 (prevDc+diff)
    let driven := driveAcFast skipValues acTable onValue 1 (storeDc dc s) br
    ⟨dc,driven.1,driven.2⟩

end

section
variable (dcTable acTable : HuffmanTable) (prevDc : ℤ) (quant : ℕ → ℕ) (block : CoefficientBlock)
  (br : BitReader)

def dequantDc (dc : ℤ) : ℤ := clampI16 (wrapI32 (dc*quant 0))

def dequantAc (k ac : ℕ) : ℤ := clampI16 (wrapI32 (acDecodedValue ac*quant k))

def decodeBlockWithActivity : BlockOutcome (CoefficientBlock × BlockActivity) :=
  decodeWith false dcTable acTable prevDc (block.clearTouched,.dcOnly)
    (fun dc s => (s.1.store 0 (dequantDc quant dc),s.2))
    (fun k ac s => (s.1.store (natural k) (dequantAc quant k ac),extendActivity s.2 (natural k))) br

def decodeBlock : BlockOutcome CoefficientBlock :=
  let outcome := decodeBlockWithActivity dcTable acTable prevDc quant block br
  ⟨outcome.prevDc,outcome.state.1,outcome.result⟩

/-- Into an array of zeros. -/
def decodeBlockDequantizedInto : BlockOutcome (ℕ → ℤ) :=
  decodeWith false dcTable acTable prevDc (fun _ => 0)
    (fun dc out => Function.update out 0 (dequantDc quant dc))
    (fun k ac out => Function.update out (natural k) (dequantAc quant k ac)) br

/-- The state: quantized and dequantized coefficients, and the activity. -/
def decodeBlockQuantizedAndDequantizedWithActivity (quantizedBlock : CoefficientBlock) :
    BlockOutcome (CoefficientBlock × CoefficientBlock × BlockActivity) :=
  decodeWith false dcTable acTable prevDc (quantizedBlock.clearTouched,block.clearTouched,.dcOnly)
    (fun dc s => (s.1.store 0 (clampI16 dc),s.2.1.store 0 (dequantDc quant dc),s.2.2))
    (fun k ac s => (s.1.store (natural k) (clampI16 (acDecodedValue ac)),
      s.2.1.store (natural k) (dequantAc quant k ac),extendActivity s.2.2 (natural k))) br

/-- The state: the coefficients, and whether the DC coefficient is the only one. -/
def decodeBlockWithDcStatus : BlockOutcome (CoefficientBlock × Bool) :=
  decodeWith false dcTable acTable prevDc (block.clearTouched,true)
    (fun dc s => (s.1.store 0 (dequantDc quant dc),s.2))
    (fun k ac s => (s.1.store (natural k) (dequantAc quant k ac),false)) br

def decodeBlockForReducedIdct (keep : ReducedIdctCoefficients) :
    BlockOutcome (CoefficientBlock × Bool) :=
  decodeWith false dcTable acTable prevDc (block.clearTouched,true)
    (fun dc s => (s.1.store 0 (dequantDc quant dc),s.2))
    (fun k ac s => if keep.keeps (natural k) then
      (s.1.store (natural k) (dequantAc quant k ac),false) else s) br

def decodeBlockFor1x1Idct : BlockOutcome CoefficientBlock :=
  decodeWith true dcTable acTable prevDc block.clearTouched
    (fun dc block => block.store 0 (dequantDc quant dc)) (fun _ _ block => block) br

def skipBlock : BlockOutcome Unit :=
  decodeWith true dcTable acTable prevDc () (fun _ s => s) (fun _ _ s => s) br

end

/-! ## Reading without the values -/

/-- Two words with one tag and one run. -/
def SameTag (ac ac' : ℕ) : Prop :=
  ac &&& acFastKindMask = ac' &&& acFastKindMask ∧ acDecodedRun ac = acDecodedRun ac'

theorem sameTag_packAcValue (run : ℕ) (value value' : ℤ) :
    SameTag (packAcValue 0 run value) (packAcValue 0 run value') := by
  have hkind : ∀ value : ℤ, (toU16 value <<< 8) &&& acFastKindMask = 0 := fun value => by
    apply Nat.eq_of_testBit_eq
    intro i
    rw [acFastKindMask,Nat.testBit_and,Nat.testBit_shiftLeft,Nat.testBit_shiftLeft,Nat.zero_testBit]
    by_cases hi : 28 ≤ i
    · rw [Nat.testBit_lt_two_pow ((toU16_lt value).trans_le
        (Nat.pow_le_pow_right Nat.two_pos (show 16 ≤ i-8 by omega))),Bool.and_false,Bool.false_and]
    · rw [decide_eq_false (show ¬i ≥ 28 from hi),Bool.false_and,Bool.and_false]
  have hrun : ∀ value : ℤ, (toU16 value <<< 8) &&& 0xF0 = 0 := fun value => by
    apply Nat.eq_of_testBit_eq
    intro i
    rw [Nat.testBit_and,Nat.testBit_shiftLeft,Nat.zero_testBit]
    by_cases hi : 8 ≤ i
    · rw [Nat.testBit_lt_two_pow (show 0xF0 < 2^i from
        (show 0xF0 < 2^8 by decide).trans_le (Nat.pow_le_pow_right Nat.two_pos hi)),Bool.and_false]
    · rw [decide_eq_false hi,Bool.false_and,Bool.false_and]
  unfold SameTag packAcValue acDecodedRun
  simp only [Nat.and_or_distrib_right,hkind,hrun]
  exact ⟨trivial,trivial⟩

/-- The words read alike, but for the magnitudes. -/
theorem skip_lockstep (acTable : HuffmanTable) :
    Lockstep SameTag acTable.decodeFastAc acTable.skipFastAc := by
  unfold HuffmanTable.decodeFastAc HuffmanTable.skipFastAc
  refine Lockstep.bind (Lockstep.refl _) fun _ _ _ => ?_
  refine Lockstep.bind (Lockstep.refl _) fun next next' heq => ?_
  subst heq
  by_cases hpacked : acTable.packed next ≠ 0
  · simp only [if_pos hpacked]
    exact Lockstep.bind (Lockstep.refl _) fun _ _ _ => Lockstep.pure ⟨rfl,rfl⟩
  · simp only [if_neg hpacked]
    refine Lockstep.bind (Lockstep.refl _) fun sym sym' heq => ?_
    subst heq
    by_cases hzero : sym &&& 0xF = 0
    · simp only [if_pos hzero]
      exact Lockstep.pure ⟨rfl,rfl⟩
    · simp only [if_neg hzero,receiveExtend,bind_assoc]
      refine Lockstep.bind (Lockstep.refl _) fun _ _ _ br => ?_
      -- the peek at the magnitude leaves the reader
      exact Lockstep.bind (Lockstep.refl (consumeBits (sym &&& 0xF)))
        (fun _ _ _ => Lockstep.pure (sameTag_packAcValue _ _ _)) br

/-- The word of the next AC code. -/
def readAc (skipValues : Bool) (acTable : HuffmanTable) : Read ℕ :=
  if skipValues then acTable.skipFastAc else acTable.decodeFastAc

section
variable {σ τ : Type} {R : σ → τ → Prop} {W : ℕ → ℕ → Prop} {skip skip' : Bool}
  {acTable : HuffmanTable} {f : ℕ → ℕ → σ → σ} {g : ℕ → ℕ → τ → τ}

/-- Two loops over one stream that treat related words alike. -/
theorem driveAcFast_related (hread : Lockstep W (readAc skip acTable) (readAc skip' acTable))
    (htag : ∀ ac ac', W ac ac' → SameTag ac ac')
    (hvalue : ∀ k, 0 < k → k < 64 → ∀ ac ac' s t, W ac ac' → R s t → R (f k ac s) (g k ac' t))
    {k : ℕ} (hk : 0 < k) {s : σ} {t : τ} (hR : R s t) (br : BitReader) :
    (driveAcFast skip acTable f k s br).2 = (driveAcFast skip' acTable g k t br).2 ∧
      R (driveAcFast skip acTable f k s br).1 (driveAcFast skip' acTable g k t br).1 := by
  induction hn : 64-k using Nat.strong_induction_on generalizing k s t br with
  | _ n ih =>
      rw [driveAcFast,driveAcFast]
      by_cases hend : 64 ≤ k
      · rw [if_pos hend,if_pos hend]
        exact ⟨rfl,hR⟩
      rw [if_neg hend,if_neg hend]
      change (match readAc skip acTable br with
        | .error e => (s,.error e)
        | .ok (ac,br) => _ : σ × Except JpegError BitReader).2 =
          (match readAc skip' acTable br with
          | .error e => (t,.error e)
          | .ok (ac,br) => _ : τ × Except JpegError BitReader).2 ∧
        R (match readAc skip acTable br with
          | .error e => (s,.error e)
          | .ok (ac,br) => _ : σ × Except JpegError BitReader).1
          (match readAc skip' acTable br with
          | .error e => (t,.error e)
          | .ok (ac,br) => _ : τ × Except JpegError BitReader).1
      rcases hread br with ⟨ac,ac',br',hac,hac',hW⟩ | ⟨e,hac,hac'⟩
      · obtain ⟨hkind,hrun⟩ := htag ac ac' hW
        simp only [hac,hac',hkind,hrun]
        split_ifs with heob hzrl hover
        · exact ⟨rfl,hR⟩
        · exact ih (64-(k+16)) (by omega) (by omega) hR br' rfl
        · exact ⟨rfl,hR⟩
        · exact ih (64-(k+acDecodedRun ac'+1)) (by omega) (by omega)
            (hvalue _ (by omega) (by omega) ac ac' s t hW hR) br' rfl
      · simp only [hac,hac']
        exact ⟨trivial,hR⟩

/-- The predictor and the reader are alike, and what is written is related. -/
structure Alike (R : σ → τ → Prop) (o : BlockOutcome σ) (p : BlockOutcome τ) : Prop where
  prevDc_eq : o.prevDc = p.prevDc
  result_eq : o.result = p.result
  state : R o.state p.state

theorem decodeWith_related (hread : Lockstep W (readAc skip acTable) (readAc skip' acTable))
    (htag : ∀ ac ac', W ac ac' → SameTag ac ac')
    (hvalue : ∀ k, 0 < k → k < 64 → ∀ ac ac' s t, W ac ac' → R s t → R (f k ac s) (g k ac' t))
    (dcTable : HuffmanTable) (prevDc : ℤ) {s : σ} {t : τ} (hR : R s t) {storeDc : ℤ → σ → σ}
    {storeDc' : ℤ → τ → τ} (hdc : ∀ dc, R (storeDc (wrapI32 dc) s) (storeDc' (wrapI32 dc) t))
    (br : BitReader) :
    Alike R (decodeWith skip dcTable acTable prevDc s storeDc f br)
      (decodeWith skip' dcTable acTable prevDc t storeDc' g br) := by
  unfold decodeWith
  cases dcTable.decodeFastDc br with
  | error e => exact ⟨rfl,rfl,hR⟩
  | ok p =>
      obtain ⟨hresult,hstate⟩ := driveAcFast_related hread htag hvalue Nat.one_pos
        (hdc (prevDc+p.1)) p.2
      exact ⟨rfl,hresult,hstate⟩

end

theorem sameTag_of_eq (ac ac' : ℕ) (h : ac = ac') : SameTag ac ac' := h ▸ ⟨rfl,rfl⟩

/-! ## The decoders against each other -/

/-- The coefficients of the stream in zigzag order. -/
def rawCoefficients (dcTable acTable : HuffmanTable) (prevDc : ℤ) (br : BitReader) :
    BlockOutcome (ℕ → ℤ) :=
  decodeWith false dcTable acTable prevDc (fun _ => 0) (fun dc raw => Function.update raw 0 dc)
    (fun k ac raw => Function.update raw k (acDecodedValue ac)) br

/-- The kept positions hold the scaled coefficients and the others zeros. -/
def Scaled (keeps : ℕ → Bool) (quant : ℕ → ℕ) (coeffs raw : ℕ → ℤ) : Prop :=
  ∀ k < 64, coeffs (natural k) =
    if keeps (natural k) then clampI16 (wrapI32 (raw k*quant k)) else 0

section
variable {keeps : ℕ → Bool} {quant : ℕ → ℕ} {coeffs raw : ℕ → ℤ} {k : ℕ}

theorem scaled_zero (keeps : ℕ → Bool) (quant : ℕ → ℕ) (hcoeffs : ∀ i, coeffs i = 0) :
    Scaled keeps quant coeffs fun _ => 0 := by
  intro k _
  rw [hcoeffs,Int.zero_mul]
  exact (ite_self 0).symm

theorem Scaled.write (h : Scaled keeps quant coeffs raw) (hk : k < 64)
    (hkeeps : keeps (natural k) = true) (v : ℤ) :
    Scaled keeps quant (Function.update coeffs (natural k) (clampI16 (wrapI32 (v*quant k))))
      (Function.update raw k v) := by
  intro j hj
  by_cases heq : j = k
  · subst heq
    rw [Function.update_self,Function.update_self,if_pos hkeeps]
  · rw [Function.update_of_ne heq,Function.update_of_ne fun h => heq (natural_inj hj hk h)]
    exact h j hj

theorem Scaled.pass (h : Scaled keeps quant coeffs raw) (hkeeps : keeps (natural k) = false)
    (v : ℤ) : Scaled keeps quant coeffs (Function.update raw k v) := by
  intro j hj
  by_cases heq : j = k
  · subst heq
    rw [h j hj,hkeeps]
    rfl
  · rw [Function.update_of_ne heq]
    exact h j hj

end

theorem wrapI32_wrapI32 (v : ℤ) : wrapI32 (wrapI32 v) = wrapI32 v := Int.bmod_bmod

theorem wrapI32_acDecodedValue (ac : ℕ) : wrapI32 (acDecodedValue ac) = acDecodedValue ac := by
  have hlt : (ac >>> 8) &&& 0xFFFF < 2^16 := Nat.and_lt_two_pow _ (by decide)
  unfold wrapI32 acDecodedValue fromU16
  split_ifs
  · exact Int.bmod_eq_of_le (by omega) (by omega)
  · exact Int.bmod_eq_of_le (by omega) (by omega)

theorem natural_ne_zero {k : ℕ} (hpos : 0 < k) (hk : k < 64) : natural k ≠ 0 := fun h =>
  absurd (natural_inj hk (show 0 < 64 by decide) h) (Nat.ne_of_gt hpos)

theorem readAc_refl (acTable : HuffmanTable) :
    Lockstep Eq (readAc false acTable) (readAc false acTable) := Lockstep.refl _

theorem readAc_skip (acTable : HuffmanTable) :
    Lockstep (fun ac ac' => SameTag ac' ac) (readAc true acTable) (readAc false acTable) :=
  (skip_lockstep acTable).symm

theorem sameTag_symm (ac ac' : ℕ) (h : SameTag ac' ac) : SameTag ac ac' := ⟨h.1.symm,h.2.symm⟩

section
variable (dcTable acTable : HuffmanTable) (prevDc : ℤ) (quant : ℕ → ℕ)
  (block other : CoefficientBlock) (br : BitReader)

theorem withActivity_alike : Alike (fun s raw => Scaled (fun _ => true) quant s.1.coeffs raw)
    (decodeBlockWithActivity dcTable acTable prevDc quant block br)
    (rawCoefficients dcTable acTable prevDc br) := by
  unfold decodeBlockWithActivity rawCoefficients
  refine decodeWith_related (readAc_refl acTable) sameTag_of_eq ?_ dcTable prevDc
    (by exact scaled_zero _ _ block.clearTouched_coeffs) (fun dc => ?_) br
  · intro k _ hk ac ac' s raw hac h
    subst hac
    exact h.write hk rfl _
  · exact (scaled_zero _ _ block.clearTouched_coeffs).write (show 0 < 64 by decide) rfl _

theorem dequantizedInto_alike : Alike (Scaled (fun _ => true) quant)
    (decodeBlockDequantizedInto dcTable acTable prevDc quant br)
    (rawCoefficients dcTable acTable prevDc br) := by
  unfold decodeBlockDequantizedInto rawCoefficients
  refine decodeWith_related (readAc_refl acTable) sameTag_of_eq ?_ dcTable prevDc
    (scaled_zero _ _ fun _ => rfl) (fun dc => ?_) br
  · intro k _ hk ac ac' out raw hac h
    subst hac
    exact h.write hk rfl _
  · exact (scaled_zero _ _ fun _ => rfl).write (show 0 < 64 by decide) rfl _

theorem quantizedAndDequantized_alike :
    Alike (fun s raw => Scaled (fun _ => true) (fun _ => 1) s.1.coeffs raw ∧
      Scaled (fun _ => true) quant s.2.1.coeffs raw)
    (decodeBlockQuantizedAndDequantizedWithActivity dcTable acTable prevDc quant block br other)
    (rawCoefficients dcTable acTable prevDc br) := by
  have hunit : ∀ v : ℤ, v*((1 : ℕ) : ℤ) = v := Int.mul_one
  unfold decodeBlockQuantizedAndDequantizedWithActivity rawCoefficients
  refine decodeWith_related (readAc_refl acTable) sameTag_of_eq ?_ dcTable prevDc
    ⟨scaled_zero _ _ other.clearTouched_coeffs,scaled_zero _ _ block.clearTouched_coeffs⟩
    (fun dc => ⟨?_,?_⟩) br
  · intro k _ hk ac ac' s raw hac h
    subst hac
    refine ⟨?_,h.2.write hk rfl _⟩
    have hwrite := h.1.write hk rfl (acDecodedValue ac)
    rw [hunit,wrapI32_acDecodedValue] at hwrite
    exact hwrite
  · have hwrite := (scaled_zero (fun _ => true) (fun _ => 1) other.clearTouched_coeffs).write
      (show 0 < 64 by decide) rfl (wrapI32 dc)
    rw [hunit,wrapI32_wrapI32] at hwrite
    exact hwrite
  · exact (scaled_zero _ _ block.clearTouched_coeffs).write (show 0 < 64 by decide) rfl _

theorem withDcStatus_alike : Alike (fun s raw => Scaled (fun _ => true) quant s.1.coeffs raw)
    (decodeBlockWithDcStatus dcTable acTable prevDc quant block br)
    (rawCoefficients dcTable acTable prevDc br) := by
  unfold decodeBlockWithDcStatus rawCoefficients
  refine decodeWith_related (readAc_refl acTable) sameTag_of_eq ?_ dcTable prevDc
    (by exact scaled_zero _ _ block.clearTouched_coeffs) (fun dc => ?_) br
  · intro k _ hk ac ac' s raw hac h
    subst hac
    exact h.write hk rfl _
  · exact (scaled_zero _ _ block.clearTouched_coeffs).write (show 0 < 64 by decide) rfl _

theorem reducedIdct_alike (keep : ReducedIdctCoefficients) :
    Alike (fun s raw => Scaled keep.keeps quant s.1.coeffs raw)
      (decodeBlockForReducedIdct dcTable acTable prevDc quant block br keep)
      (rawCoefficients dcTable acTable prevDc br) := by
  unfold decodeBlockForReducedIdct rawCoefficients
  refine decodeWith_related (readAc_refl acTable) sameTag_of_eq ?_ dcTable prevDc
    (by exact scaled_zero _ _ block.clearTouched_coeffs) (fun dc => ?_) br
  · intro k _ hk ac ac' s raw hac h
    subst hac
    cases hkeeps : keep.keeps (natural k) with
    | true => exact h.write hk hkeeps _
    | false => exact h.pass hkeeps _
  · exact (scaled_zero _ _ block.clearTouched_coeffs).write (show 0 < 64 by decide)
      (by cases keep <;> rfl) _

theorem idct1x1_alike : Alike (fun s raw => Scaled (fun i => i = 0) quant s.coeffs raw)
    (decodeBlockFor1x1Idct dcTable acTable prevDc quant block br)
    (rawCoefficients dcTable acTable prevDc br) := by
  unfold decodeBlockFor1x1Idct rawCoefficients
  refine decodeWith_related (readAc_skip acTable) sameTag_symm ?_ dcTable prevDc
    (by exact scaled_zero _ _ block.clearTouched_coeffs) (fun dc => ?_) br
  · intro k hpos hk ac ac' s raw _ h
    exact h.pass (decide_eq_false (natural_ne_zero hpos hk)) _
  · exact (scaled_zero _ _ block.clearTouched_coeffs).write (show 0 < 64 by decide) rfl _

theorem skip_alike : Alike (fun _ _ => True) (skipBlock dcTable acTable prevDc br)
    (rawCoefficients dcTable acTable prevDc br) := by
  unfold skipBlock rawCoefficients
  exact decodeWith_related (readAc_skip acTable) sameTag_symm (fun _ _ _ _ _ _ _ _ _ => trivial)
    dcTable prevDc trivial (fun _ => trivial) br

end

/-! ## What all of them agree on -/

inductive BlockVariant where
  | plain
  | withActivity
  | dequantizedInto
  | quantized
  | dequantized
  | withDcStatus
  | reducedIdct (keep : ReducedIdctCoefficients)
  | idct1x1
  | skip
  deriving DecidableEq, Repr

/-- What a caller gets: the predictor, the reader or the error, and the coefficients. -/
structure DecodedBlock where
  prevDc : ℤ
  result : Except JpegError BitReader
  coeffs : ℕ → ℤ

namespace BlockVariant

/-- The positions of the coefficients that the caller gets. -/
def keeps : BlockVariant → ℕ → Bool
  | .reducedIdct keep,i => keep.keeps i
  | .idct1x1,i => i = 0
  | .skip,_ => false
  | _,_ => true

/-- The steps by which the coefficients are scaled. -/
def scale : BlockVariant → (ℕ → ℕ) → ℕ → ℕ
  | .quantized,_ => fun _ => 1
  | _,quant => quant

/-- The decoder on a block; `other` is the second block where two are decoded. -/
def decode (variant : BlockVariant) (dcTable acTable : HuffmanTable) (prevDc : ℤ) (quant : ℕ → ℕ)
    (block other : CoefficientBlock) (br : BitReader) : DecodedBlock :=
  match variant with
  | .plain =>
    let o := decodeBlock dcTable acTable prevDc quant block br
    ⟨o.prevDc,o.result,o.state.coeffs⟩
  | .withActivity =>
    let o := decodeBlockWithActivity dcTable acTable prevDc quant block br
    ⟨o.prevDc,o.result,o.state.1.coeffs⟩
  | .dequantizedInto =>
    let o := decodeBlockDequantizedInto dcTable acTable prevDc quant br
    ⟨o.prevDc,o.result,o.state⟩
  | .quantized =>
    let o := decodeBlockQuantizedAndDequantizedWithActivity dcTable acTable prevDc quant other br
      block
    ⟨o.prevDc,o.result,o.state.1.coeffs⟩
  | .dequantized =>
    let o := decodeBlockQuantizedAndDequantizedWithActivity dcTable acTable prevDc quant block br
      other
    ⟨o.prevDc,o.result,o.state.2.1.coeffs⟩
  | .withDcStatus =>
    let o := decodeBlockWithDcStatus dcTable acTable prevDc quant block br
    ⟨o.prevDc,o.result,o.state.1.coeffs⟩
  | .reducedIdct keep =>
    let o := decodeBlockForReducedIdct dcTable acTable prevDc quant block br keep
    ⟨o.prevDc,o.result,o.state.1.coeffs⟩
  | .idct1x1 =>
    let o := decodeBlockFor1x1Idct dcTable acTable prevDc quant block br
    ⟨o.prevDc,o.result,o.state.coeffs⟩
  | .skip =>
    let o := skipBlock dcTable acTable prevDc br
    ⟨o.prevDc,o.result,fun _ => 0⟩

/-- The block after the decoder; some leave the block of the caller alone. -/
def leave (variant : BlockVariant) (dcTable acTable : HuffmanTable) (prevDc : ℤ) (quant : ℕ → ℕ)
    (block other : CoefficientBlock) (br : BitReader) : CoefficientBlock :=
  match variant with
  | .plain => (decodeBlock dcTable acTable prevDc quant block br).state
  | .withActivity => (decodeBlockWithActivity dcTable acTable prevDc quant block br).state.1
  | .dequantizedInto => block
  | .quantized => (decodeBlockQuantizedAndDequantizedWithActivity dcTable acTable prevDc quant other
      br block).state.1
  | .dequantized => (decodeBlockQuantizedAndDequantizedWithActivity dcTable acTable prevDc quant
      block br other).state.2.1
  | .withDcStatus => (decodeBlockWithDcStatus dcTable acTable prevDc quant block br).state.1
  | .reducedIdct keep =>
    (decodeBlockForReducedIdct dcTable acTable prevDc quant block br keep).state.1
  | .idct1x1 => (decodeBlockFor1x1Idct dcTable acTable prevDc quant block br).state
  | .skip => block

/-- The variants that decode into the block of the caller. -/
def fills : BlockVariant → Bool
  | .dequantizedInto => false
  | .skip => false
  | _ => true

variable (variant : BlockVariant) (dcTable acTable : HuffmanTable) (prevDc : ℤ) (quant : ℕ → ℕ)
  (block other : CoefficientBlock) (br : BitReader)

/-- Every variant reads the stream as the plain reading of the coefficients does, and scales the
coefficients that it keeps. -/
theorem decode_spec :
    (variant.decode dcTable acTable prevDc quant block other br).prevDc =
      (rawCoefficients dcTable acTable prevDc br).prevDc ∧
    (variant.decode dcTable acTable prevDc quant block other br).result =
      (rawCoefficients dcTable acTable prevDc br).result ∧
    Scaled variant.keeps (variant.scale quant)
      (variant.decode dcTable acTable prevDc quant block other br).coeffs
      (rawCoefficients dcTable acTable prevDc br).state := by
  cases variant with
  | plain =>
      have h := withActivity_alike dcTable acTable prevDc quant block br
      exact ⟨h.prevDc_eq,h.result_eq,h.state⟩
  | withActivity =>
      have h := withActivity_alike dcTable acTable prevDc quant block br
      exact ⟨h.prevDc_eq,h.result_eq,h.state⟩
  | dequantizedInto =>
      have h := dequantizedInto_alike dcTable acTable prevDc quant br
      exact ⟨h.prevDc_eq,h.result_eq,h.state⟩
  | quantized =>
      have h := quantizedAndDequantized_alike dcTable acTable prevDc quant other block br
      exact ⟨h.prevDc_eq,h.result_eq,h.state.1⟩
  | dequantized =>
      have h := quantizedAndDequantized_alike dcTable acTable prevDc quant block other br
      exact ⟨h.prevDc_eq,h.result_eq,h.state.2⟩
  | withDcStatus =>
      have h := withDcStatus_alike dcTable acTable prevDc quant block br
      exact ⟨h.prevDc_eq,h.result_eq,h.state⟩
  | reducedIdct keep =>
      have h := reducedIdct_alike dcTable acTable prevDc quant block br keep
      exact ⟨h.prevDc_eq,h.result_eq,h.state⟩
  | idct1x1 =>
      have h := idct1x1_alike dcTable acTable prevDc quant block br
      exact ⟨h.prevDc_eq,h.result_eq,h.state⟩
  | skip =>
      have h := skip_alike dcTable acTable prevDc br
      exact ⟨h.prevDc_eq,h.result_eq,fun _ _ => rfl⟩

/-- A block that is filled holds what the caller gets. -/
theorem leave_coeffs (hfills : variant.fills = true) :
    (variant.leave dcTable acTable prevDc quant block other br).coeffs =
      (variant.decode dcTable acTable prevDc quant block other br).coeffs := by
  cases variant with
  | dequantizedInto => cases hfills
  | skip => cases hfills
  | _ => rfl

end BlockVariant

/-- A block of the scan with the decoder that takes it. -/
structure BlockRequest where
  variant : BlockVariant
  dcTable : HuffmanTable
  acTable : HuffmanTable
  prevDc : ℤ
  quant : ℕ → ℕ
  other : CoefficientBlock
  br : BitReader

/-- One decode into a reused block. -/
def BlockRequest.decodeInto (block : CoefficientBlock) (request : BlockRequest) :
    CoefficientBlock :=
  request.variant.leave request.dcTable request.acTable request.prevDc request.quant block
    request.other request.br

/-- What a filled block holds does not depend on what it held. -/
theorem BlockRequest.decodeInto_fresh (request : BlockRequest)
    (hfills : request.variant.fills = true) (block : CoefficientBlock) {i : ℕ} (hi : i < 64) :
    (request.decodeInto block).coeffs i = (request.decodeInto default).coeffs i := by
  obtain ⟨k,hk,rfl⟩ := exists_natural hi
  unfold decodeInto
  rw [request.variant.leave_coeffs _ _ _ _ _ _ _ hfills,
    request.variant.leave_coeffs _ _ _ _ _ _ _ hfills]
  obtain ⟨-,-,hblock⟩ := request.variant.decode_spec request.dcTable request.acTable
    request.prevDc request.quant block request.other request.br
  obtain ⟨-,-,hfresh⟩ := request.variant.decode_spec request.dcTable request.acTable
    request.prevDc request.quant default request.other request.br
  rw [hblock k hk,hfresh k hk]

/-- All variants consume the same bits, leave the same predictor and fail alike, whatever their
blocks and quantization tables are; where they scale alike, they agree on the coefficients that
both keep; and after any run of decodes into one block it holds what the last one makes of a
fresh block. -/
theorem block_decoders_agree :
    (∀ (variant variant' : BlockVariant) (dcTable acTable : HuffmanTable) (prevDc : ℤ)
      (quant quant' : ℕ → ℕ) (block other block' other' : CoefficientBlock) (br : BitReader),
      let o := variant.decode dcTable acTable prevDc quant block other br
      let o' := variant'.decode dcTable acTable prevDc quant' block' other' br
      o.prevDc = o'.prevDc ∧ o.result = o'.result ∧
        (variant.scale quant = variant'.scale quant' → ∀ i < 64, variant.keeps i = true →
          variant'.keeps i = true → o.coeffs i = o'.coeffs i)) ∧
    ∀ (requests : List BlockRequest) (last : BlockRequest) (block : CoefficientBlock),
      last.variant.fills = true → ∀ i < 64,
        ((requests ++ [last]).foldl BlockRequest.decodeInto block).coeffs i =
          (last.decodeInto default).coeffs i := by
  constructor
  · intro variant variant' dcTable acTable prevDc quant quant' block other block' other' br
    obtain ⟨hprev,hresult,hcoeffs⟩ := variant.decode_spec dcTable acTable prevDc quant block other br
    obtain ⟨hprev',hresult',hcoeffs'⟩ := variant'.decode_spec dcTable acTable prevDc quant' block'
      other' br
    refine ⟨hprev.trans hprev'.symm,hresult.trans hresult'.symm,fun hscale i hi hkeep hkeep' => ?_⟩
    obtain ⟨k,hk,rfl⟩ := exists_natural hi
    rw [hcoeffs k hk,hcoeffs' k hk,if_pos hkeep,if_pos hkeep',hscale]
  · intro requests last block hfills i hi
    rw [List.foldl_append]
    exact last.decodeInto_fresh hfills _ hi

end J2kNative.BlockVariants
