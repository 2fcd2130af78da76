import J2kNative.InverseDct

/-!
# Reduced transforms and the choice of a transform

The transforms to four by four and to two by two samples, and the samples that a block
gets from the transform that its activity chooses.
-/
namespace J2kNative.ReducedIdct
open BlockVariants InverseDct

def fix0211164243 : Word := 1730
def fix0509795579 : Word := 4176
def fix0601344887 : Word := 4926
def fix0720959822 : Word := 5906
def fix0850430095 : Word := 6967
def fix1061594337 : Word := 8697
def fix1272758580 : Word := 10426
def fix1451774981 : Word := 11893
def fix2172734803 : Word := 17799
def fix3624509785 : Word := 29692

/-- The sums of one dimension for four samples, shared by the columns and the rows. -/
def idct4 (p : ℕ → Word) (k : ℕ) : Word :=
  let tmp0 := p 0 <<< (constBits+1)
  let tmp2 := p 2*fix1847759065+p 6*(-fix0765366865)
  let tmp10 := tmp0+tmp2
  let tmp12 := tmp0-tmp2
  let tmp0 := p 7*(-fix0211164243)+p 5*fix1451774981+p 3*(-fix2172734803)+p 1*fix1061594337
  let tmp2 := p 7*(-fix0509795579)+p 5*(-fix0601344887)+p 3*fix0899976223+p 1*fix2562915447
  match k with
  | 0 => tmp10+tmp2
  | 1 => tmp12+tmp0
  | 2 => tmp12-tmp0
  | _ => tmp10-tmp2

def idct4x4Column (p : ℕ → Word) (row : ℕ) : Word :=
  if p 1 = 0 ∧ p 2 = 0 ∧ p 3 = 0 ∧ p 5 = 0 ∧ p 6 = 0 ∧ p 7 = 0 then p 0 <<< pass1Bits
  else descale (idct4 p row) (constBits-pass1Bits+1)

def idct4x4Row (p : ℕ → Word) (col : ℕ) : ℤ :=
  if p 1 = 0 ∧ p 2 = 0 ∧ p 3 = 0 ∧ p 5 = 0 ∧ p 6 = 0 ∧ p 7 = 0 then
    descaleAndClamp .u8 (p 0) (pass1Bits+3)
  else descaleAndClamp .u8 (idct4 p col) (constBits+pass1Bits+3+1)

/-- Column 4 of the work array keeps its zeros. -/
def idctIslow4x4 (input : Coefficients) (i : ℕ) : ℤ :=
  idct4x4Row (fun c => if c = 4 then 0 else idct4x4Column (input.column c) (i/4)) (i%4)

def idct2 (p : ℕ → Word) (k : ℕ) : Word :=
  let tmp10 := p 0 <<< (constBits+2)
  let tmp0 := p 7*(-fix0720959822)+p 5*fix0850430095+p 3*(-fix1272758580)+p 1*fix3624509785
  match k with
  | 0 => tmp10+tmp0
  | _ => tmp10-tmp0

def idct2x2Column (p : ℕ → Word) (row : ℕ) : Word :=
  if p 1 = 0 ∧ p 3 = 0 ∧ p 5 = 0 ∧ p 7 = 0 then p 0 <<< pass1Bits
  else descale (idct2 p row) (constBits-pass1Bits+2)

def idct2x2Row (p : ℕ → Word) (col : ℕ) : ℤ :=
  if p 1 = 0 ∧ p 3 = 0 ∧ p 5 = 0 ∧ p 7 = 0 then descaleAndClamp .u8 (p 0) (pass1Bits+3)
  else descaleAndClamp .u8 (idct2 p col) (constBits+pass1Bits+3+2)

/-- Columns 2, 4 and 6 of the work array keep their zeros. -/
def idctIslow2x2 (input : Coefficients) (i : ℕ) : ℤ :=
  idct2x2Row (fun c => if c = 2 ∨ c = 4 ∨ c = 6 then 0
    else idct2x2Column (input.column c) (i/2)) (i%2)

/-! ## What the reduced transforms read -/

/-- The coefficients of a decoded block; they are of 16 bits. -/
def toCoefficients (coeffs : ℕ → ℤ) : Coefficients := fun i => BitVec.ofInt 16 (coeffs i)

section
variable {input input' : Coefficients}

theorem keeps_half {c r : ℕ} (hc : c < 8) (hr : r < 8) (hc4 : c ≠ 4) (hr4 : r ≠ 4) :
    ReducedIdctCoefficients.half.keeps (c+8*r) = true := by
  have hall : ∀ c < 8, ∀ r < 8, c ≠ 4 → r ≠ 4 →
      ReducedIdctCoefficients.half.keeps (c+8*r) = true := by decide
  exact hall c hc r hr hc4 hr4

theorem keeps_quarter {c r : ℕ} (hc : c < 8) (hr : r < 8) (hc' : ¬(c = 2 ∨ c = 4 ∨ c = 6))
    (hr' : ¬(r = 2 ∨ r = 4 ∨ r = 6)) : ReducedIdctCoefficients.quarter.keeps (c+8*r) = true := by
  have hall : ∀ c < 8, ∀ r < 8, ¬(c = 2 ∨ c = 4 ∨ c = 6) → ¬(r = 2 ∨ r = 4 ∨ r = 6) →
      ReducedIdctCoefficients.quarter.keeps (c+8*r) = true := by decide
  exact hall c hc r hr hc' hr'

theorem column_congr {c r : ℕ} (h : input (c+8*r) = input' (c+8*r)) :
    input.column c r = input'.column c r := by
  rw [Coefficients.column,Coefficients.column,h]

section
variable {p p' : ℕ → Word}

theorem idct4_congr (h : ∀ r < 8, r ≠ 4 → p r = p' r) (k : ℕ) :
    idct4x4Column p k = idct4x4Column p' k ∧ idct4x4Row p k = idct4x4Row p' k := by
  unfold idct4x4Column idct4x4Row idct4
  simp only [h 0 (by decide) (by decide),h 1 (by decide) (by decide),h 2 (by decide) (by decide),
    h 3 (by decide) (by decide),h 5 (by decide) (by decide),h 6 (by decide) (by decide),
    h 7 (by decide) (by decide),and_self]

theorem idct2_congr (h : ∀ r < 8, ¬(r = 2 ∨ r = 4 ∨ r = 6) → p r = p' r) (k : ℕ) :
    idct2x2Column p k = idct2x2Column p' k ∧ idct2x2Row p k = idct2x2Row p' k := by
  unfold idct2x2Column idct2x2Row idct2
  simp only [h 0 (by decide) (by decide),h 1 (by decide) (by decide),h 3 (by decide) (by decide),
    h 5 (by decide) (by decide),h 7 (by decide) (by decide),and_self]

end

/-- The transform to four by four samples does not read row 4 and column 4. -/
theorem idctIslow4x4_congr
    (h : ∀ j < 64, ReducedIdctCoefficients.half.keeps j = true → input j = input' j) (i : ℕ) :
    idctIslow4x4 input i = idctIslow4x4 input' i := by
  refine (idct4_congr (fun c hc hc4 => ?_) _).2
  rw [if_neg hc4,if_neg hc4]
  exact (idct4_congr (fun r hr hr4 =>
    column_congr (h _ (by omega) (keeps_half hc hr hc4 hr4))) _).1

/-- The transform to two by two samples does not read rows and columns 2, 4 and 6. -/
theorem idctIslow2x2_congr
    (h : ∀ j < 64, ReducedIdctCoefficients.quarter.keeps j = true → input j = input' j) (i : ℕ) :
    idctIslow2x2 input i = idctIslow2x2 input' i := by
  refine (idct2_congr (fun c hc hc' => ?_) _).2
  rw [if_neg hc',if_neg hc']
  exact (idct2_congr (fun r hr hr' =>
    column_congr (h _ (by omega) (keeps_quarter hc hr hc' hr'))) _).1

end

/-! ## The activity of a block -/

/-- The positions that may differ from zero. -/
def Allows : BlockActivity → ℕ → Prop
  | .dcOnly, i => i = 0
  | .bottomHalfZero, i => i < 32
  | .general, _ => True

def InClass (coeffs : ℕ → ℤ) (activity : BlockActivity) : Prop :=
  ∀ i, coeffs i ≠ 0 → Allows activity i

theorem allows_extend {activity : BlockActivity} {i : ℕ} (h : Allows activity i) (n : ℕ) :
    Allows (extendActivity activity n) i := by
  unfold extendActivity
  split
  · cases activity with
    | dcOnly => exact show i < 32 by rw [show i = 0 from h]; decide
    | bottomHalfZero => exact h
    | general => trivial
  · trivial

theorem allows_self (activity : BlockActivity) (n : ℕ) :
    Allows (extendActivity activity n) n := by
  unfold extendActivity
  split
  next hn => cases activity <;> first | exact hn | trivial
  · trivial

/-- Storing a coefficient extends the class by its position. -/
theorem InClass.store {block : CoefficientBlock} {activity : BlockActivity}
    (h : InClass block.coeffs activity) (n : ℕ) (v : ℤ) :
    InClass (block.store n v).coeffs (extendActivity activity n) := by
  intro i hi
  rw [CoefficientBlock.store_coeffs] at hi
  by_cases heq : i = n
  · subst heq
    exact allows_self activity i
  · rw [Function.update_of_ne heq] at hi
    exact allows_extend (h i hi) n

theorem inClass_dc (block : CoefficientBlock) (v : ℤ) :
    InClass (block.clearTouched.store 0 v).coeffs .dcOnly := by
  intro i hi
  rw [CoefficientBlock.store_coeffs] at hi
  by_contra hne
  rw [Function.update_of_ne hne,CoefficientBlock.clearTouched_coeffs] at hi
  exact hi rfl

/-- What holds of the state at the start, after the DC coefficient and after every AC
coefficient holds at the end, also where the block ends in an error. -/
theorem decodeWith_invariant {σ : Type} {P : σ → Prop} {dcTable acTable : HuffmanTable}
    {prevDc : ℤ} {s : σ} {storeDc : ℤ → σ → σ} {onValue : ℕ → ℕ → σ → σ} {br : BitReader}
    (hs : P s) (hdc : ∀ dc, P (storeDc dc s)) (hvalue : ∀ k ac s, P s → P (onValue k ac s)) :
    P (decodeWith false dcTable acTable prevDc s storeDc onValue br).state :=
  (@decodeWith_related σ Unit (fun s _ => P s) Eq false false acTable onValue (fun _ _ _ => ())
    (readAc_refl acTable) sameTag_of_eq (fun k _ _ ac _ s _ _ h => hvalue k ac s h) dcTable prevDc s
    () hs storeDc (fun _ _ => ()) (fun _ => hdc _) br).state

section
variable (dcTable acTable : HuffmanTable) (prevDc : ℤ) (quant : ℕ → ℕ)
  (block quantizedBlock : CoefficientBlock) (br : BitReader)

theorem withActivity_inClass :
    let s := (decodeBlockWithActivity dcTable acTable prevDc quant block br).state
    InClass s.1.coeffs s.2 :=
  decodeWith_invariant (P := fun s : CoefficientBlock × BlockActivity => InClass s.1.coeffs s.2)
    (fun i hi => absurd (block.clearTouched_coeffs i) hi) (fun _ => inClass_dc block _)
    (fun k _ _ h => h.store (natural k) _)

theorem quantizedAndDequantized_inClass :
    let s := (decodeBlockQuantizedAndDequantizedWithActivity dcTable acTable prevDc quant block br
      quantizedBlock).state
    InClass s.1.coeffs s.2.2 ∧ InClass s.2.1.coeffs s.2.2 :=
  decodeWith_invariant (P := fun s : CoefficientBlock × CoefficientBlock × BlockActivity =>
      InClass s.1.coeffs s.2.2 ∧ InClass s.2.1.coeffs s.2.2)
    ⟨fun i hi => absurd (quantizedBlock.clearTouched_coeffs i) hi,
      fun i hi => absurd (block.clearTouched_coeffs i) hi⟩
    (fun _ => ⟨inClass_dc quantizedBlock _,inClass_dc block _⟩)
    (fun k _ _ h => ⟨h.1.store (natural k) _,h.2.store (natural k) _⟩)

end

theorem toCoefficients_eq_zero {coeffs : ℕ → ℤ} {i : ℕ} (h : coeffs i = 0) :
    toCoefficients coeffs i = 0 := by
  rw [toCoefficients,h]
  rfl

theorem InClass.dcOnly {coeffs : ℕ → ℤ} (h : InClass coeffs .dcOnly) :
    DcOnly (toCoefficients coeffs) := fun i hi _ =>
  toCoefficients_eq_zero (not_not.mp fun hne => hi (h i hne))

theorem InClass.bottomHalfZero {coeffs : ℕ → ℤ} (h : InClass coeffs .bottomHalfZero) :
    BottomHalfZero (toCoefficients coeffs) := fun i hi _ =>
  toCoefficients_eq_zero (not_not.mp fun hne => absurd (h i hne) (Nat.not_lt.mpr hi))

/-- The samples of a block by its activity. -/
def depositedSamples (activity : BlockActivity) (input : Coefficients) : ℕ → ℤ :=
  match activity with
  | .dcOnly => fun _ => idctIslowDcOnlyPixel (input 0)
  | .bottomHalfZero => idctIslowBottomHalfZero input
  | .general => idctIslow input

/-- The samples of a 12-bit block by its activity. -/
def depositedSamples12bit (activity : BlockActivity) (input : Coefficients) : ℕ → ℤ :=
  match activity with
  | .dcOnly => fun _ => idctIslow12bitDcOnlySample (input 0)
  | .bottomHalfZero => idctIslow12bit input
  | .general => idctIslow12bit input

theorem InClass.deposited {coeffs : ℕ → ℤ} {activity : BlockActivity} (h : InClass coeffs activity)
    (i : ℕ) :
    depositedSamples activity (toCoefficients coeffs) i =
      idctGeneral .u8 (toCoefficients coeffs) i ∧
    depositedSamples12bit activity (toCoefficients coeffs) i =
      idctGeneral .u16 (toCoefficients coeffs) i := by
  cases activity with
  | dcOnly => exact ⟨idctIslowDcOnlySample_eq h.dcOnly i,idctIslowDcOnlySample_eq h.dcOnly i⟩
  | bottomHalfZero => exact ⟨idctBottomHalfZero_eq h.bottomHalfZero i,idctWith_eq i⟩
  | general => exact ⟨idctWith_eq i,idctWith_eq i⟩

/-- The shortcuts are exact, no block is in a class that it does not belong to, so that every
block gets the samples of the general routine; and the reduced transforms make the same samples
of the coefficients that are kept for them as of all. -/
theorem idct_shortcuts_exact :
    (∀ (sample : IdctSample) (input : Coefficients) (i : ℕ),
      (DcOnly input → idctIslowDcOnlySample sample (input 0) = idctGeneral sample input i) ∧
      (BottomHalfZero input → idctBottomHalfZero sample input i = idctGeneral sample input i) ∧
      idctWith sample input i = idctGeneral sample input i) ∧
    (∀ (dcTable acTable : HuffmanTable) (prevDc : ℤ) (quant : ℕ → ℕ)
      (block quantizedBlock : CoefficientBlock) (br : BitReader),
      let o := (decodeBlockWithActivity dcTable acTable prevDc quant block br).state
      let p := (decodeBlockQuantizedAndDequantizedWithActivity dcTable acTable prevDc quant block br
        quantizedBlock).state
      InClass o.1.coeffs o.2 ∧ InClass p.1.coeffs p.2.2 ∧ InClass p.2.1.coeffs p.2.2 ∧
      ∀ i, depositedSamples o.2 (toCoefficients o.1.coeffs) i =
          idctGeneral .u8 (toCoefficients o.1.coeffs) i ∧
        depositedSamples12bit o.2 (toCoefficients o.1.coeffs) i =
          idctGeneral .u16 (toCoefficients o.1.coeffs) i) ∧
    (∀ input input' : Coefficients,
      ((∀ j < 64, ReducedIdctCoefficients.half.keeps j = true → input j = input' j) →
        ∀ i, idctIslow4x4 input i = idctIslow4x4 input' i) ∧
      ((∀ j < 64, ReducedIdctCoefficients.quarter.keeps j = true → input j = input' j) →
        ∀ i, idctIslow2x2 input i = idctIslow2x2 input' i)) ∧
    ∀ (dcTable acTable : HuffmanTable) (prevDc : ℤ) (quant : ℕ → ℕ) (block : CoefficientBlock)
      (br : BitReader) (i : ℕ),
      let all := (decodeBlockWithActivity dcTable acTable prevDc quant block br).state.1
      let kept := fun keep => (decodeBlockForReducedIdct dcTable acTable prevDc quant block br
        keep).state.1
      idctIslow4x4 (toCoefficients (kept .half).coeffs) i =
        idctIslow4x4 (toCoefficients all.coeffs) i ∧
      idctIslow2x2 (toCoefficients (kept .quarter).coeffs) i =
        idctIslow2x2 (toCoefficients all.coeffs) i := by
  refine ⟨fun sample input i => ⟨fun h => idctIslowDcOnlySample_eq h i,
    fun h => idctBottomHalfZero_eq h i,idctWith_eq i⟩,?_,
    fun input input' => ⟨idctIslow4x4_congr,idctIslow2x2_congr⟩,?_⟩
  · intro dcTable acTable prevDc quant block quantizedBlock br
    have hclass := withActivity_inClass dcTable acTable prevDc quant block br
    obtain ⟨hquantized,hdequantized⟩ :=
      quantizedAndDequantized_inClass dcTable acTable prevDc quant block quantizedBlock br
    exact ⟨hclass,hquantized,hdequantized,hclass.deposited⟩
  · intro dcTable acTable prevDc quant block br i
    have hkept (keep : ReducedIdctCoefficients) : ∀ j < 64, keep.keeps j = true →
        toCoefficients (decodeBlockForReducedIdct dcTable acTable prevDc quant block br
          keep).state.1.coeffs j =
        toCoefficients (decodeBlockWithActivity dcTable acTable prevDc quant block
          br).state.1.coeffs j := fun j hj hkeep => by
      obtain ⟨k,hk,rfl⟩ := exists_natural hj
      have hreduced := (reducedIdct_alike dcTable acTable prevDc quant block br keep).state k hk
      have hall := (withActivity_alike dcTable acTable prevDc quant block br).state k hk
      rw [if_pos hkeep] at hreduced
      unfold toCoefficients
      rw [hreduced,hall,if_pos rfl]
    exact ⟨idctIslow4x4_congr (hkept .half) i,idctIslow2x2_congr (hkept .quarter) i⟩

end J2kNative.ReducedIdct
