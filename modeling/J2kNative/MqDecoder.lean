import J2kNative.MqInterval
import Mathlib.Data.Nat.Log

/-!
# MQ arithmetic decoder

The decoder keeps the complement of the code register, reads `0xFF` past the end
of its data and never steps over a marker. Its renormalization shifts in batches
of as many bits as the current byte still holds; `normalize_eq` reduces it to the
one-bit loop that the batches replace. Additions and shifts that may leave 32
bits wrap as in the source.
-/
namespace J2kNative.MqDecoder
open StuffedDigits MqStates MqEncoder MqInterval

def wrappingAdd (x y : ℕ) : ℕ := (x + y) % 2 ^ 32

def wrappingSub (x y : ℕ) : ℕ := (x + 2 ^ 32 - y) % 2 ^ 32

/-- `u32::leading_zeros`. -/
def leadingZeros (x : ℕ) : ℕ := if x = 0 then 32 else 31 - Nat.log2 x

/-- The pointer is a `u32` that stays within the data or at their end; the data are shorter than
2^32 bytes, so it does not wrap. -/
structure ArithmeticDecoder where
  data : List ℕ
  c : ℕ
  a : ℕ
  basePointer : ℕ
  shiftCount : ℕ
  deriving DecidableEq, Repr

namespace ArithmeticDecoder

def currentByte (d : ArithmeticDecoder) : ℕ := d.data.getD d.basePointer 0xFF

def nextByte (d : ArithmeticDecoder) : ℕ := d.data.getD (d.basePointer + 1) 0xFF

def readByte (d : ArithmeticDecoder) : ArithmeticDecoder :=
  if d.currentByte = 0xFF then
    if d.nextByte > 0x8F then { d with shiftCount := 8 }
    else
      let d := { d with basePointer := d.basePointer + 1 }
      { d with c := wrappingSub (wrappingAdd d.c 0xFE00) (d.currentByte <<< 9), shiftCount := 7 }
  else
    let d := { d with basePointer := d.basePointer + 1 }
    { d with c := wrappingSub (wrappingAdd d.c 0xFF00) (d.currentByte <<< 8), shiftCount := 8 }

/-- `new`, which is `initialize` on zeroed registers. -/
def new (data : List ℕ) : ArithmeticDecoder :=
  let d : ArithmeticDecoder := ⟨data, 0, 0, 0, 0⟩
  let d := { d with c := (d.currentByte ^^^ 0xFF) <<< 16 }
  let d := d.readByte
  { d with c := (d.c <<< 7) % 2 ^ 32, shiftCount := d.shiftCount - 7, a := 0x8000 }

/-- The batched loop of `renormalize`. -/
def renormalizeLoop : ℕ → ArithmeticDecoder → ArithmeticDecoder
  | 0, d => d
  | fuel + 1, d =>
      if d.a &&& 0x8000 = 0 then
        let d := if d.shiftCount = 0 then d.readByte else d
        let shiftsNeeded := leadingZeros d.a - 16
        let batch := min shiftsNeeded d.shiftCount
        renormalizeLoop fuel
          { d with
            a := (d.a <<< batch) % 2 ^ 32
            c := (d.c <<< batch) % 2 ^ 32
            shiftCount := d.shiftCount - batch }
      else d

/-- Every batch of a nonzero interval shifts at least once (`renormalize_eq`), so
fifteen rounds suffice. -/
def renormalize (d : ArithmeticDecoder) : ArithmeticDecoder := renormalizeLoop 15 d

/-- `decode`: the symbol, the registers and the moved label. -/
def decode (d : ArithmeticDecoder) (ctx : Context) : ℕ × ArithmeticDecoder × Context :=
  let state := packedDecoderState ctx
  let qe := state &&& 0xFFFF
  let mps := if (state >>> 16) &&& 1 ≠ 0 then 1 else 0
  let d := { d with a := d.a - qe }
  if d.c >>> 16 < d.a ∧ d.a &&& 0x8000 ≠ 0 then (mps, d, ctx)
  else
    let isLps := if d.c >>> 16 ≥ d.a then 1 else 0
    let lpsMask := wrappingSub 0 isLps
    let d := { d with c := d.c - ((d.a <<< 16) % 2 ^ 32 &&& lpsMask) }
    let cond := if d.a < qe then 1 else 0
    let d := { d with a := (d.a &&& (lpsMask ^^^ 0xFFFFFFFF)) ||| (qe &&& lpsMask) }
    let pickNlps := cond ^^^ isLps
    let bit := mps ^^^ pickNlps
    let pickMask := if pickNlps ≠ 0 then 0xFF else 0
    let nextMps := (state >>> 24) % 256
    let nextLps := (state >>> 32) % 256
    let ctx := nextMps ^^^ ((nextMps ^^^ nextLps) &&& pickMask)
    (bit, d.renormalize, ctx)

end ArithmeticDecoder

/-! ## Decisions -/

/-- The registers narrowed to the sub-interval of a symbol. -/
def select (d : ArithmeticDecoder) (bit : ℕ) (ctx : Context) : ArithmeticDecoder :=
  let qe := (qeEntry ctx.index).qe
  if takesUpper d.a bit ctx then { d with a := d.a - qe }
  else { d with a := qe, c := d.c - (d.a - qe) * 2 ^ 16 }

def normalize (d : ArithmeticDecoder) : ArithmeticDecoder :=
  if d.a < 0x8000 then d.renormalize else d

private theorem and_all_ones (x : ℕ) (h : x < 2 ^ 32) : x &&& 0xFFFFFFFF = x := by
  rw [show (0xFFFFFFFF : ℕ) = 2 ^ 32 - 1 from rfl,Nat.and_two_pow_sub_one_eq_mod]
  exact Nat.mod_eq_of_lt h

private theorem xor_mask_select {x y : ℕ} (hx : x < 2 ^ 8) (hy : y < 2 ^ 8) :
    x ^^^ ((x ^^^ y) &&& 0xFF) = y := by
  rw [show (0xFF : ℕ) = 2 ^ 8 - 1 from rfl,Nat.and_two_pow_sub_one_eq_mod,
    Nat.mod_eq_of_lt (Nat.xor_lt_two_pow hx hy),← Nat.xor_assoc,Nat.xor_self,Nat.zero_xor]

private theorem bit_xor_one {x y : ℕ} (hx : x < 2) (hy : y < 2) (h : x ≠ y) : y ^^^ 1 = x := by
  obtain rfl | rfl : y = 0 ∨ y = 1 := by omega
  · change 1 = x
    omega
  · change 0 = x
    omega

/-- The masked arithmetic of `decode` is the selection of the sub-interval in which
the code register lies. -/
theorem decode_eq {d : ArithmeticDecoder} {ctx : Context} {bit : ℕ}
    (ha : d.a < 0x10000) (hc : ctx.Valid) (hbit : bit < 2)
    (h : takesUpper d.a bit ctx =
      decide (d.c / 2 ^ 16 < d.a - (qeEntry ctx.index).qe)) :
    d.decode ctx = (bit,normalize (select d bit ctx),nextLabel d.a bit ctx) := by
  have hu := packed_spec hc
  have hr := row_bounds hc
  have hq := hr.qe_le
  have hm := hr.mps_lt
  have hN := hr.afterMps.1
  have hL := hr.afterLps.1
  have hhalf := and_half_eq_zero (a := d.a - (qeEntry ctx.index).qe) (by omega)
  have h32 : (d.a - (qeEntry ctx.index).qe) <<< 16 % 2 ^ 32 =
      (d.a - (qeEntry ctx.index).qe) * 2 ^ 16 := by
    rw [Nat.shiftLeft_eq]
    omega
  unfold ArithmeticDecoder.decode
  simp only [hu.qe,hu.mps,hu.nextMps,hu.nextLps,Nat.shiftRight_eq_div_pow d.c 16,h32]
  unfold normalize select nextLabel
  rw [h]
  unfold takesUpper at h
  simp only [Nat.reducePow] at h h32 ⊢
  have hsub : d.a - (qeEntry ctx.index).qe < 0x10000 := by omega
  generalize (qeEntry ctx.index).qe = q at *
  generalize d.c / 65536 = v at h ⊢
  generalize d.a - q = x at *
  by_cases hup : v < x
  · -- upper sub-interval: no mask is set
    have hmask : wrappingSub 0 0 = 0 := rfl
    have hall : x &&& 0xFFFFFFFF = x := and_all_ones x (by omega)
    by_cases hn : x < 0x8000
    · by_cases hx : x < q
      · have hne : bit ≠ ctx.mps := by simpa [hup,hx] using h
        simp [hhalf,hn,hx,hup,Nat.not_le.mpr hup,hmask,hall,hne,
          bit_xor_one hbit hm hne,xor_mask_select hN hL]
      · have he : bit = ctx.mps := by simpa [hup,hx] using h
        simp [hup,hhalf,hn,hx,Nat.not_le.mpr hup,hmask,hall,he,
          Nat.not_le.mpr hn]
    · have hx : ¬ x < q := by omega
      have he : bit = ctx.mps := by simpa [hup,hx] using h
      simp [hup,hhalf,hn,he,Nat.not_lt.mp hn]
  · -- lower sub-interval: all masks are set
    have hmask : wrappingSub 0 1 = 0xFFFFFFFF := rfl
    have hall : x * 65536 &&& 0xFFFFFFFF = x * 65536 := and_all_ones _ (by omega)
    have hqall := and_all_ones q (by omega)
    have hq15 : q < 0x8000 := by omega
    by_cases hx : x < q
    · have he : bit = ctx.mps := by simpa [hup,hx] using h
      have hn : x < 0x8000 := by omega
      simp [hup,hx,Nat.not_lt.mp hup,hmask,hall,hqall,hq15,he,Nat.not_le.mpr hn]
    · have hne : bit ≠ ctx.mps := by simpa [hup,hx] using h
      simp [hup,hx,Nat.not_lt.mp hup,hmask,hall,hqall,hq15,hne,bit_xor_one hbit hm hne,
        xor_mask_select hN hL]

/-! ## Batched and single shifts -/

/-- A byte read when none is buffered. -/
def refill (d : ArithmeticDecoder) : ArithmeticDecoder :=
  if d.shiftCount = 0 then d.readByte else d

/-- `n` shifts of buffered bits. -/
def shiftBy (n : ℕ) (d : ArithmeticDecoder) : ArithmeticDecoder :=
  { d with a := (d.a <<< n) % 2 ^ 32, c := (d.c <<< n) % 2 ^ 32, shiftCount := d.shiftCount - n }

/-- The turn of the unbatched loop. -/
def renormalizeOnce (d : ArithmeticDecoder) : ArithmeticDecoder := shiftBy 1 (refill d)

theorem readByte_shiftCount (d : ArithmeticDecoder) :
    d.readByte.shiftCount = 7 ∨ d.readByte.shiftCount = 8 := by
  unfold ArithmeticDecoder.readByte
  dsimp only
  split_ifs
  · exact .inr rfl
  · exact .inl rfl
  · exact .inr rfl

@[simp] theorem readByte_a (d : ArithmeticDecoder) : d.readByte.a = d.a := by
  unfold ArithmeticDecoder.readByte
  dsimp only
  split_ifs <;> rfl

/-- Reading a byte neither uses nor moves the interval length. -/
theorem readByte_with_a (d : ArithmeticDecoder) (x : ℕ) :
    ({ d with a := x } : ArithmeticDecoder).readByte = { d.readByte with a := x } := by
  unfold ArithmeticDecoder.readByte ArithmeticDecoder.currentByte ArithmeticDecoder.nextByte
  dsimp only
  split_ifs <;> rfl

@[simp] theorem refill_a (d : ArithmeticDecoder) : (refill d).a = d.a := by
  unfold refill
  split_ifs
  · exact readByte_a d
  · rfl

theorem refill_pos (d : ArithmeticDecoder) : 0 < (refill d).shiftCount := by
  unfold refill
  have := readByte_shiftCount d
  split_ifs <;> omega

theorem refill_of_pos {d : ArithmeticDecoder} (h : 0 < d.shiftCount) : refill d = d :=
  if_neg (Nat.pos_iff_ne_zero.mp h)

theorem shiftBy_shiftBy (m n : ℕ) (d : ArithmeticDecoder) :
    shiftBy n (shiftBy m d) = shiftBy (m + n) d := by
  simp only [shiftBy,Nat.shiftLeft_eq,Nat.mod_mul_mod,mul_assoc,← pow_add,Nat.sub_sub]

/-- A batch within the buffered bits is that many single turns. -/
theorem iterate_once (n : ℕ) {d : ArithmeticDecoder} (hn : n + 1 ≤ (refill d).shiftCount) :
    renormalizeOnce^[n + 1] d = shiftBy (n + 1) (refill d) := by
  induction n with
  | zero => rfl
  | succ n ih =>
      rw [Function.iterate_succ_apply',ih (by omega)]
      have hpos : 0 < (shiftBy (n + 1) (refill d)).shiftCount := by
        dsimp only [shiftBy]
        omega
      rw [renormalizeOnce,refill_of_pos hpos,shiftBy_shiftBy]

/-- Shifts that bring a nonzero 16-bit interval length back to bit 15. -/
def shortfall (a : ℕ) : ℕ := 15 - Nat.log2 a

theorem shortfall_eq_zero {a : ℕ} (h : 0x8000 ≤ a) : shortfall a = 0 := by
  have hl : 15 ≤ Nat.log2 a := (Nat.le_log2 (by omega)).mpr h
  unfold shortfall
  omega

theorem shortfall_pos {a : ℕ} (h : 0 < a) (ha : a < 0x8000) : 0 < shortfall a := by
  have hl : Nat.log2 a < 15 := (Nat.log2_lt (by omega)).mpr ha
  unfold shortfall
  omega

theorem lt_of_shortfall_pos {a : ℕ} (h : 0 < shortfall a) : a < 0x8000 := by
  by_contra hge
  rw [shortfall_eq_zero (Nat.not_lt.mp hge)] at h
  exact Nat.lt_irrefl 0 h

theorem log2_mul_two_pow {a : ℕ} (n : ℕ) (h : a ≠ 0) :
    Nat.log2 (a * 2 ^ n) = Nat.log2 a + n := by
  have hpos : a * 2 ^ n ≠ 0 := (Nat.mul_pos (Nat.pos_of_ne_zero h) (Nat.two_pow_pos n)).ne'
  obtain ⟨hlo,hhi⟩ := (Nat.log2_eq_iff h).mp rfl
  refine (Nat.log2_eq_iff hpos).mpr ⟨?_,?_⟩
  · rw [pow_add]
    exact Nat.mul_le_mul_right _ hlo
  · rw [Nat.add_right_comm,pow_add]
    exact Nat.mul_lt_mul_of_pos_right hhi (Nat.two_pow_pos n)

theorem mul_two_pow_lt {a n : ℕ} (h : 0 < a) (ha : a < 0x8000) (hn : n ≤ shortfall a) :
    a * 2 ^ n < 0x10000 ∧ shortfall (a * 2 ^ n) = shortfall a - n := by
  have hl : Nat.log2 a < 15 := (Nat.log2_lt (by omega)).mpr ha
  unfold shortfall at *
  have hb : Nat.log2 (a * 2 ^ n) = Nat.log2 a + n := log2_mul_two_pow n (by omega)
  have hpos : a * 2 ^ n ≠ 0 := (Nat.mul_pos h (Nat.two_pow_pos n)).ne'
  refine ⟨(Nat.log2_lt hpos (k := 16)).mp (by omega),by omega⟩

theorem leadingZeros_eq {a : ℕ} (h : 0 < a) (ha : a < 0x8000) :
    leadingZeros a - 16 = shortfall a := by
  have hl : Nat.log2 a < 15 := (Nat.log2_lt (by omega)).mpr ha
  unfold leadingZeros shortfall
  rw [if_neg (by omega)]
  omega

theorem renormalizeLoop_eq (fuel : ℕ) {d : ArithmeticDecoder} (h : 0 < d.a)
    (ha : d.a < 0x10000) (hf : shortfall d.a ≤ fuel) :
    d.renormalizeLoop fuel = renormalizeOnce^[shortfall d.a] d := by
  induction fuel generalizing d with
  | zero =>
      rw [Nat.le_zero.mp hf]
      rfl
  | succ fuel ih =>
      unfold ArithmeticDecoder.renormalizeLoop
      by_cases hlt : d.a < 0x8000
      · rw [if_pos ((and_half_eq_zero ha).mpr hlt)]
        have hs := shortfall_pos h hlt
        have hr := refill_pos d
        have hlz : leadingZeros (refill d).a - 16 = shortfall d.a := by
          rw [refill_a,leadingZeros_eq h hlt]
        change ArithmeticDecoder.renormalizeLoop fuel
          (shiftBy (min (leadingZeros (refill d).a - 16) (refill d).shiftCount) (refill d)) = _
        rw [hlz]
        obtain ⟨n,hn⟩ : ∃ n, min (shortfall d.a) (refill d).shiftCount = n + 1 :=
          ⟨_,(Nat.succ_pred_eq_of_pos (by omega)).symm⟩
        rw [hn]
        obtain ⟨hm,hsub⟩ := mul_two_pow_lt h hlt (n := n + 1) (by omega)
        have hae : (shiftBy (n + 1) (refill d)).a = d.a * 2 ^ (n + 1) := by
          simp only [shiftBy,refill_a,Nat.shiftLeft_eq]
          exact Nat.mod_eq_of_lt (by omega)
        rw [ih (by rw [hae]; exact Nat.mul_pos h (Nat.two_pow_pos _)) (by rw [hae]; exact hm)
          (by rw [hae,hsub]; omega),hae,hsub,← iterate_once n (by omega),
          ← Function.iterate_add_apply]
        congr 2
        omega
      · rw [if_neg (fun h0 => hlt ((and_half_eq_zero ha).mp h0)),
          shortfall_eq_zero (Nat.not_lt.mp hlt)]
        rfl

/-- Renormalization of the decoder as single turns. -/
theorem normalize_eq {d : ArithmeticDecoder} (h : 0 < d.a) (ha : d.a < 0x10000) :
    normalize d = renormalizeOnce^[shortfall d.a] d := by
  unfold normalize
  split_ifs with hlt
  · exact renormalizeLoop_eq 15 h ha (Nat.sub_le _ _)
  · rw [shortfall_eq_zero (Nat.not_lt.mp hlt)]
    rfl

/-- Renormalization of the encoder as single turns. -/
theorem encoder_normalize_eq {s : ArithmeticEncoder} (h : Ready s) :
    MqInterval.normalize s = ArithmeticEncoder.renormalizeOnce^[shortfall s.a] s := by
  have hloop (fuel : ℕ) : ∀ {s : ArithmeticEncoder}, Ready s → s.a < 0x8000 →
      shortfall s.a ≤ fuel →
      s.renormalizeLoop fuel = ArithmeticEncoder.renormalizeOnce^[shortfall s.a] s := by
    induction fuel with
    | zero =>
        intro s hr hlt hf
        have := shortfall_pos hr.a_pos hlt
        omega
    | succ fuel ih =>
        intro s hr hlt hf
        obtain ⟨hr',hd,_⟩ := renormalizeOnce_spec hr hlt
        have hs := shortfall_pos hr.a_pos hlt
        obtain ⟨hm,hsub⟩ := mul_two_pow_lt hr.a_pos hlt (n := 1) hs
        have hae : s.renormalizeOnce.a = s.a * 2 ^ 1 := by omega
        obtain ⟨n,hn⟩ : ∃ n, shortfall s.a = n + 1 := ⟨_,(Nat.succ_pred_eq_of_pos hs).symm⟩
        rw [hn,Function.iterate_succ_apply]
        unfold ArithmeticEncoder.renormalizeLoop
        dsimp only
        rw [← hae] at hm hsub
        split_ifs with hb
        · have hge : 0x8000 ≤ s.renormalizeOnce.a :=
            Nat.not_lt.mp fun h => hb ((and_half_eq_zero hm).mpr h)
          rw [shortfall_eq_zero hge] at hsub
          obtain rfl : n = 0 := by omega
          rfl
        · have hlt' := (and_half_eq_zero hm).mp (not_not.mp hb)
          rw [ih hr' hlt' (by omega),hsub,hn,Nat.add_sub_cancel]
  unfold MqInterval.normalize
  split_ifs with hlt
  · exact hloop 15 h hlt (Nat.sub_le _ _)
  · rw [shortfall_eq_zero (Nat.not_lt.mp hlt)]
    rfl

end J2kNative.MqDecoder
