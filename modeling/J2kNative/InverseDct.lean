import J2kNative.BlockVariants

/-!
# The inverse DCT and its shortcuts

The integer inverse DCT of a block in wrapping 32-bit arithmetic: a pass over the
columns and one over the rows, each with a shortcut where only the first value
differs from zero; a column pass for blocks without rows four to seven; the sample of
a block with a DC coefficient only; and the reduced transforms to four by four and to
two by two samples.
-/
namespace J2kNative.InverseDct
open BlockVariants

abbrev Word := BitVec 32

def constBits : ℕ := 13
def pass1Bits : ℕ := 2

def fix0298631336 : Word := 2446
def fix0390180644 : Word := 3196
def fix0541196100 : Word := 4433
def fix0765366865 : Word := 6270
def fix0899976223 : Word := 7373
def fix1175875602 : Word := 9633
def fix1501321110 : Word := 12299
def fix1847759065 : Word := 15137
def fix1961570560 : Word := 16069
def fix2053119869 : Word := 16819
def fix2562915447 : Word := 20995
def fix3072711026 : Word := 25172

/-- The type of the samples: the level shift and the largest value. -/
structure IdctSample where
  levelShift : ℤ
  max : ℤ
  deriving DecidableEq, Repr

def IdctSample.u8 : IdctSample := ⟨128,255⟩
def IdctSample.u16 : IdctSample := ⟨2048,4095⟩

def descale (v : Word) (shift : ℕ) : Word := v.sshiftRight shift

/-- The level shift wraps. -/
def fromShifted (sample : IdctSample) (shifted : Word) : ℤ :=
  max 0 (min (shifted+BitVec.ofInt 32 sample.levelShift).toInt sample.max)

def descaleAndClamp (sample : IdctSample) (value : Word) (shift : ℕ) : ℤ :=
  fromShifted sample (value.sshiftRight shift)

/-- The sums of one dimension, before they are rounded; the columns and the rows share them. -/
def idct1d (p : ℕ → Word) (k : ℕ) : Word :=
  let z2 := p 2
  let z3 := p 6
  let z1 := (z2+z3)*fix0541196100
  let tmp2 := z1+z3*(-fix1847759065)
  let tmp3 := z1+z2*fix0765366865
  let tmp0 := (p 0+p 4) <<< constBits
  let tmp1 := (p 0-p 4) <<< constBits
  let tmp10 := tmp0+tmp3
  let tmp13 := tmp0-tmp3
  let tmp11 := tmp1+tmp2
  let tmp12 := tmp1-tmp2
  let tmp0 := p 7
  let tmp1 := p 5
  let tmp2 := p 3
  let tmp3 := p 1
  let z1 := tmp0+tmp3
  let z2 := tmp1+tmp2
  let z3 := tmp0+tmp2
  let z4 := tmp1+tmp3
  let z5 := (z3+z4)*fix1175875602
  let tmp0 := tmp0*fix0298631336
  let tmp1 := tmp1*fix2053119869
  let tmp2 := tmp2*fix3072711026
  let tmp3 := tmp3*fix1501321110
  let z1 := z1*(-fix0899976223)
  let z2 := z2*(-fix2562915447)
  let z3 := z3*(-fix1961570560)
  let z4 := z4*(-fix0390180644)
  let z3 := z3+z5
  let z4 := z4+z5
  let tmp0 := tmp0+z1+z3
  let tmp1 := tmp1+z2+z4
  let tmp2 := tmp2+z2+z3
  let tmp3 := tmp3+z1+z4
  match k with
  | 0 => tmp10+tmp3
  | 1 => tmp11+tmp2
  | 2 => tmp12+tmp1
  | 3 => tmp13+tmp0
  | 4 => tmp13-tmp0
  | 5 => tmp12-tmp1
  | 6 => tmp11-tmp2
  | _ => tmp10-tmp3

/-- The sums where the last four values are zero. -/
def idct1dBottomHalfZero (p : ℕ → Word) (k : ℕ) : Word :=
  let z1 := p 2*fix0541196100
  let tmp2 := z1
  let tmp3 := z1+p 2*fix0765366865
  let tmp0 := p 0 <<< constBits
  let tmp1 := p 0 <<< constBits
  let tmp10 := tmp0+tmp3
  let tmp13 := tmp0-tmp3
  let tmp11 := tmp1+tmp2
  let tmp12 := tmp1-tmp2
  let z5 := (p 1+p 3)*fix1175875602
  let z1 := p 1*(-fix0899976223)
  let z2 := p 3*(-fix2562915447)
  let z3 := p 3*(-fix1961570560)+z5
  let z4 := p 1*(-fix0390180644)+z5
  let tmp0 := z1+z3
  let tmp1 := z2+z4
  let tmp2 := p 3*fix3072711026+z2+z3
  let tmp3 := p 1*fix1501321110+z1+z4
  match k with
  | 0 => tmp10+tmp3
  | 1 => tmp11+tmp2
  | 2 => tmp12+tmp1
  | 3 => tmp13+tmp0
  | 4 => tmp13-tmp0
  | 5 => tmp12-tmp1
  | 6 => tmp11-tmp2
  | _ => tmp10-tmp3

def rounding (shift : ℕ) : Word := 1 <<< (shift-1)

/-- The value of a column in a row of the work array. -/
def idct1dColumn (p : ℕ → Word) (row : ℕ) : Word :=
  if p 1 = 0 ∧ p 2 = 0 ∧ p 3 = 0 ∧ p 4 = 0 ∧ p 5 = 0 ∧ p 6 = 0 ∧ p 7 = 0 then p 0 <<< pass1Bits
  else descale (idct1d p row+rounding (constBits-pass1Bits)) (constBits-pass1Bits)

def idct1dColumnBottomHalfZero (p : ℕ → Word) (row : ℕ) : Word :=
  if p 1 = 0 ∧ p 2 = 0 ∧ p 3 = 0 then p 0 <<< pass1Bits
  else descale (idct1dBottomHalfZero p row+rounding (constBits-pass1Bits)) (constBits-pass1Bits)

def idct1dRow (sample : IdctSample) (p : ℕ → Word) (col : ℕ) : ℤ :=
  if p 1 = 0 ∧ p 2 = 0 ∧ p 3 = 0 ∧ p 4 = 0 ∧ p 5 = 0 ∧ p 6 = 0 ∧ p 7 = 0 then
    descaleAndClamp sample (p 0+rounding (pass1Bits+3)) (pass1Bits+3)
  else descaleAndClamp sample (idct1d p col+rounding (constBits+pass1Bits+3))
    (constBits+pass1Bits+3)

/-- Sixteen-bit coefficients in natural order. -/
abbrev Coefficients := ℕ → BitVec 16

def Coefficients.column (input : Coefficients) (col r : ℕ) : Word :=
  (input (col+8*r)).signExtend 32

/-- Both passes; sample `i` is in row `i/8` and column `i%8`. -/
def bothPasses (sample : IdctSample) (column : (ℕ → Word) → ℕ → Word) (input : Coefficients)
    (i : ℕ) : ℤ :=
  idct1dRow sample (fun c => column (input.column c) (i/8)) (i%8)

/-- The general routine: no use is made of rows that are zero. -/
def idctGeneral (sample : IdctSample) (input : Coefficients) : ℕ → ℤ :=
  bothPasses sample idct1dColumn input

def idctBottomHalfZero (sample : IdctSample) (input : Coefficients) : ℕ → ℤ :=
  bothPasses sample idct1dColumnBottomHalfZero input

/-- The transform looks whether rows four to seven are zero. -/
def idctWith (sample : IdctSample) (input : Coefficients) : ℕ → ℤ :=
  if (List.range' 32 32).all fun i => input i = 0 then idctBottomHalfZero sample input
  else idctGeneral sample input

def idctIslow : Coefficients → ℕ → ℤ := idctWith .u8
def idctIslow12bit : Coefficients → ℕ → ℤ := idctWith .u16
def idctIslowBottomHalfZero : Coefficients → ℕ → ℤ := idctBottomHalfZero .u8

def idctIslowDcOnlySample (sample : IdctSample) (dcCoeff : BitVec 16) : ℤ :=
  fromShifted sample ((dcCoeff.signExtend 32+4).sshiftRight 3)

def idctIslowDcOnlyPixel : BitVec 16 → ℤ := idctIslowDcOnlySample .u8
def idctIslow12bitDcOnlySample : BitVec 16 → ℤ := idctIslowDcOnlySample .u16

/-! ## The shortcuts -/

theorem idct1d_bottomHalfZero {p : ℕ → Word} (h4 : p 4 = 0) (h5 : p 5 = 0) (h6 : p 6 = 0)
    (h7 : p 7 = 0) (k : ℕ) : idct1dBottomHalfZero p k = idct1d p k := by
  unfold idct1dBottomHalfZero idct1d
  simp only [h4,h5,h6,h7,BitVec.ofNat_eq_ofNat,BitVec.add_zero,BitVec.zero_add,BitVec.zero_mul,BitVec.sub_zero,
    BitVec.add_comm (p 3) (p 1)]

theorem column_bottomHalfZero {p : ℕ → Word} (h4 : p 4 = 0) (h5 : p 5 = 0) (h6 : p 6 = 0)
    (h7 : p 7 = 0) (row : ℕ) : idct1dColumnBottomHalfZero p row = idct1dColumn p row := by
  unfold idct1dColumnBottomHalfZero idct1dColumn
  simp only [h4,h5,h6,h7,and_true,idct1d_bottomHalfZero h4 h5 h6 h7]

section
variable {sample : IdctSample} {input input' : Coefficients}

/-- Rows four to seven of a block are zero. -/
def BottomHalfZero (input : Coefficients) : Prop := ∀ i, 32 ≤ i → i < 64 → input i = 0

/-- Every coefficient but the first is zero. -/
def DcOnly (input : Coefficients) : Prop := ∀ i, i ≠ 0 → i < 64 → input i = 0

theorem column_eq_zero {col r : ℕ} (h : input (col+8*r) = 0) : input.column col r = 0 := by
  rw [Coefficients.column,h]
  rfl

/-- What the row pass makes of columns that agree. -/
theorem bothPasses_congr {column column' : (ℕ → Word) → ℕ → Word} {i : ℕ}
    (h : ∀ c < 8, column (input.column c) (i/8) = column' (input'.column c) (i/8)) :
    bothPasses sample column input i = bothPasses sample column' input' i := by
  unfold bothPasses idct1dRow idct1d
  simp only [h 0 (by decide),h 1 (by decide),h 2 (by decide),h 3 (by decide),h 4 (by decide),
    h 5 (by decide),h 6 (by decide),h 7 (by decide)]

theorem idctBottomHalfZero_eq (h : BottomHalfZero input) (i : ℕ) :
    idctBottomHalfZero sample input i = idctGeneral sample input i := by
  refine bothPasses_congr fun c hc => ?_
  have hzero (r : ℕ) (hr : 4 ≤ r) (hr' : r < 8) : input.column c r = 0 :=
    column_eq_zero (h _ (by omega) (by omega))
  exact column_bottomHalfZero (hzero 4 (by decide) (by decide)) (hzero 5 (by decide) (by decide))
    (hzero 6 (by decide) (by decide)) (hzero 7 (by decide) (by decide)) _

/-- Looking for the zeros does not change a sample. -/
theorem idctWith_eq (i : ℕ) : idctWith sample input i = idctGeneral sample input i := by
  unfold idctWith
  split
  next hall =>
    refine idctBottomHalfZero_eq (fun j hj hj' => ?_) i
    have hzero := List.all_eq_true.mp hall j (List.mem_range'_1.mpr ⟨hj,hj'⟩)
    exact of_decide_eq_true hzero
  next => rfl

/-- Four times the coefficient rounded to a thirty-second is the coefficient rounded to an eighth. -/
theorem dc_rounding (dcCoeff : BitVec 16) :
    (dcCoeff.signExtend 32 <<< pass1Bits+rounding (pass1Bits+3)).sshiftRight (pass1Bits+3) =
      (dcCoeff.signExtend 32+4).sshiftRight 3 := by
  have hlow : -2^15 ≤ dcCoeff.toInt := BitVec.le_toInt dcCoeff
  have hhigh : dcCoeff.toInt < 2^15 := BitVec.toInt_lt
  have hd : (dcCoeff.signExtend 32).toInt = dcCoeff.toInt :=
    BitVec.toInt_signExtend_of_le (by decide)
  have hfour : (dcCoeff.signExtend 32 <<< pass1Bits).toInt = dcCoeff.toInt*4 := by
    have hpow : (BitVec.twoPow 32 pass1Bits).toInt = 4 := by decide
    rw [BitVec.shiftLeft_eq_mul_twoPow,BitVec.toInt_mul,hd,hpow]
    exact Int.bmod_eq_of_le_mul_two (by push_cast; omega) (by push_cast; omega)
  have hleft : (dcCoeff.signExtend 32 <<< pass1Bits+rounding (pass1Bits+3)).toInt =
      dcCoeff.toInt*4+16 := by
    have hround : (rounding (pass1Bits+3)).toInt = 16 := by decide
    rw [BitVec.toInt_add,hfour,hround]
    exact Int.bmod_eq_of_le_mul_two (by push_cast; omega) (by push_cast; omega)
  have hright : (dcCoeff.signExtend 32+4).toInt = dcCoeff.toInt+4 := by
    rw [BitVec.toInt_add,hd]
    exact Int.bmod_eq_of_le_mul_two (by push_cast; omega) (by push_cast; omega)
  apply BitVec.eq_of_toInt_eq
  rw [BitVec.toInt_sshiftRight,BitVec.toInt_sshiftRight,hleft,hright,Int.shiftRight_eq_div_pow,
    Int.shiftRight_eq_div_pow]
  show (dcCoeff.toInt*4+16)/32 = (dcCoeff.toInt+4)/8
  omega

theorem idctIslowDcOnlySample_eq (h : DcOnly input) (i : ℕ) :
    idctIslowDcOnlySample sample (input 0) = idctGeneral sample input i := by
  have hcolumn (c r : ℕ) (hc : c < 8) (hr : r < 8) (hne : c+8*r ≠ 0) : input.column c r = 0 :=
    column_eq_zero (h _ hne (by omega))
  have hwork (c : ℕ) (hc : c < 8) :
      idct1dColumn (input.column c) (i/8) = input.column c 0 <<< pass1Bits :=
    if_pos ⟨hcolumn c 1 hc (by decide) (by omega),hcolumn c 2 hc (by decide) (by omega),
      hcolumn c 3 hc (by decide) (by omega),hcolumn c 4 hc (by decide) (by omega),
      hcolumn c 5 hc (by decide) (by omega),hcolumn c 6 hc (by decide) (by omega),
      hcolumn c 7 hc (by decide) (by omega)⟩
  have hzero (c : ℕ) (hc : c < 8) (hpos : 0 < c) :
      idct1dColumn (input.column c) (i/8) = 0 := by
    rw [hwork c hc,hcolumn c 0 hc (by decide) (by omega)]
    rfl
  unfold idctGeneral bothPasses idct1dRow
  rw [if_pos ⟨hzero 1 (by decide) (by decide),hzero 2 (by decide) (by decide),
    hzero 3 (by decide) (by decide),hzero 4 (by decide) (by decide),
    hzero 5 (by decide) (by decide),hzero 6 (by decide) (by decide),
    hzero 7 (by decide) (by decide)⟩]
  dsimp only
  rw [hwork 0 (by decide),idctIslowDcOnlySample,← dc_rounding (input 0)]
  rfl

end

end J2kNative.InverseDct
