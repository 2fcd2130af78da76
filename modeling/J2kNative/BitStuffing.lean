import Mathlib.Data.Nat.Bitwise
import Mathlib.Data.List.Basic
import Mathlib.Tactic.Ring

/-!
# Bits of packet headers

The writer gathers bits into bytes, the most significant first, and puts seven bits
into a byte behind 0xFF; the reader drops the stuffed bit again. What a reader at the
writer's place sees of the finished bytes is what was written from there on. The
writer's byte limit is left out.
-/
namespace J2kNative.BitStuffing

/-! ## Writer -/

structure BitAccumulator where
  buffer : ℕ
  bitsInBuffer : ℕ
  lastByteWasFf : Bool
  deriving DecidableEq, Repr

namespace BitAccumulator

def limit (a : BitAccumulator) : ℕ := if a.lastByteWasFf then 7 else 8

def takeFullByte (a : BitAccumulator) (limit : ℕ) : ℕ × BitAccumulator :=
  let byte := a.buffer >>> (a.bitsInBuffer - limit) % 256
  let bitsInBuffer := a.bitsInBuffer - limit
  (byte, ⟨a.buffer &&& (1 <<< bitsInBuffer - 1), bitsInBuffer, byte = 0xFF⟩)

def writeBit (a : BitAccumulator) (bit : Bool) : Option ℕ × BitAccumulator :=
  let a := { a with buffer := a.buffer <<< 1 ||| bit.toNat, bitsInBuffer := a.bitsInBuffer + 1 }
  if a.bitsInBuffer ≥ a.limit then
    let (byte, a) := a.takeFullByte a.limit
    (some byte, a)
  else (none, a)

def flush (a : BitAccumulator) : Option ℕ :=
  if a.bitsInBuffer = 0 then
    if a.lastByteWasFf then some 0 else none
  else some (a.buffer <<< (a.limit - a.bitsInBuffer) % 256)

/-- A byte that is not full yet. -/
structure Unfilled (a : BitAccumulator) : Prop where
  bits : a.bitsInBuffer < a.limit
  buffer : a.buffer < 2 ^ a.bitsInBuffer

end BitAccumulator

structure BitWriter where
  data : List ℕ
  bits : BitAccumulator
  deriving DecidableEq, Repr

namespace BitWriter

def empty : BitWriter := ⟨[], 0, 0, false⟩

def writeBit (w : BitWriter) (bit : Bool) : BitWriter :=
  let (byte, bits) := w.bits.writeBit bit
  ⟨w.data ++ byte.toList, bits⟩

def writeBits (w : BitWriter) (bits : List Bool) : BitWriter := bits.foldl writeBit w

def finish (w : BitWriter) : List ℕ := w.data ++ w.bits.flush.toList

/-- The place of the next bit among the bits of the finished bytes. -/
def position (w : BitWriter) : ℕ :=
  8 * w.data.length + (8 - w.bits.limit) + w.bits.bitsInBuffer

end BitWriter

/-- The bytes of a header. -/
def written (bits : List Bool) : List ℕ := (BitWriter.empty.writeBits bits).finish

/-- The bits of `try_write_bits`; the shift amount is taken modulo 32. -/
def fieldBits (value count : ℕ) : List Bool :=
  (List.range count).reverse.map fun index => value.testBit (index % 32)

/-- A value and its width. -/
abbrev HeaderField := ℕ × ℕ

def bitsOfFields (fields : List HeaderField) : List Bool :=
  fields.flatMap fun field => fieldBits field.1 field.2

/-- Bits written one by one. -/
def bitFields (bits : List Bool) : List HeaderField := bits.map fun bit => (bit.toNat,1)

@[simp] theorem bitsOfFields_append (xs ys : List HeaderField) :
    bitsOfFields (xs ++ ys) = bitsOfFields xs ++ bitsOfFields ys := List.flatMap_append

@[simp] theorem bitsOfFields_cons (field : HeaderField) (fields : List HeaderField) :
    bitsOfFields (field :: fields) = fieldBits field.1 field.2 ++ bitsOfFields fields := rfl

@[simp] theorem bitsOfFields_nil : bitsOfFields [] = [] := rfl

@[simp] theorem bitsOfFields_bitFields (bits : List Bool) : bitsOfFields (bitFields bits) = bits := by
  induction bits with
  | nil => rfl
  | cons bit bits ih =>
      have hbit : fieldBits bit.toNat 1 = [bit] := by
        cases bit <;> rfl
      change fieldBits bit.toNat 1 ++ bitsOfFields (bitFields bits) = bit :: bits
      rw [hbit,ih]
      rfl

/-! ## Reader -/

structure BitReader where
  data : List ℕ
  curPos : ℕ
  deriving DecidableEq, Repr

namespace BitReader

def readBit (r : BitReader) : Option (Bool × BitReader) :=
  r.data[r.curPos / 8]?.map fun byte =>
    (byte.testBit (7 - r.curPos % 8), { r with curPos := r.curPos + 1 })

def needsToReadStuffBit (r : BitReader) : Bool :=
  r.curPos % 8 = 7 ∧ r.data[r.curPos / 8]? = some 0xFF

def readStuffBit (r : BitReader) : Option BitReader := do
  let (stuffBit, r) ← r.readBit
  if stuffBit then none else some r

/-- One turn of the loop of `read_bits_with_stuffing`. -/
def readStuffedBit (r : BitReader) : Option (Bool × BitReader) := do
  let needsStuffBit := r.needsToReadStuffBit
  let (bit, r) ← r.readBit
  if needsStuffBit then
    let r ← r.readStuffBit
    some (bit, r)
  else some (bit, r)

/-- The loop of `read_bits_with_stuffing`. -/
def readLoop : ℕ → ℕ → BitReader → Option (ℕ × BitReader)
  | 0, bits, r => some (bits, r)
  | size + 1, bits, r => do
      let (bit, r) ← r.readStuffedBit
      readLoop size ((bits * 2 + bit.toNat) % 2 ^ 32) r

def readBitsWithStuffing (r : BitReader) (bitSize : ℕ) : Option (ℕ × BitReader) :=
  readLoop bitSize 0 r

def peakBitsWithStuffing (r : BitReader) (bitSize : ℕ) : Option ℕ :=
  (r.readBitsWithStuffing bitSize).map Prod.fst

/-- The reader's next bits are these, and behind them it stands at the second place. -/
def Presents : BitReader → List Bool → BitReader → Prop
  | r, [], r' => r = r'
  | r, bit :: bits, r' => ∃ r₁, r.readStuffedBit = some (bit, r₁) ∧ Presents r₁ bits r'

end BitReader

/-! ## Reading bits -/

section
variable {r r' r₁ r₂ : BitReader} {bits xs ys : List Bool}

namespace BitReader

theorem presents_append :
    Presents r (xs ++ ys) r' ↔ ∃ r₁, Presents r xs r₁ ∧ Presents r₁ ys r' := by
  induction xs generalizing r with
  | nil => simp [Presents]
  | cons x xs ih =>
      simp only [List.cons_append, Presents, ih]
      constructor
      · rintro ⟨r₁, hr, r₂, hx, hy⟩
        exact ⟨r₂, ⟨r₁, hr, hx⟩, hy⟩
      · rintro ⟨r₂, ⟨r₁, hr, hx⟩, hy⟩
        exact ⟨r₁, hr, r₂, hx, hy⟩

theorem readBit_curPos {bit : Bool} (h : r.readBit = some (bit, r')) :
    r'.curPos = r.curPos + 1 := by
  obtain ⟨_, -, heq⟩ := Option.map_eq_some_iff.mp h
  exact congrArg (·.2.curPos) heq.symm

theorem readStuffedBit_curPos {bit : Bool} (h : r.readStuffedBit = some (bit, r')) :
    r.curPos < r'.curPos := by
  unfold readStuffedBit readStuffBit at h
  obtain ⟨⟨b, r₁⟩, hread, h⟩ := Option.bind_eq_some_iff.mp h
  have hr₁ := readBit_curPos hread
  dsimp only at h
  by_cases hneeds : r.needsToReadStuffBit
  · rw [if_pos hneeds] at h
    obtain ⟨r₂, hstuff, h⟩ := Option.bind_eq_some_iff.mp h
    obtain ⟨⟨s, r₃⟩, hread₃, hstuff⟩ := Option.bind_eq_some_iff.mp hstuff
    have hr₃ := readBit_curPos hread₃
    dsimp only at hstuff
    split at hstuff
    · cases hstuff
    · cases hstuff
      cases h
      omega
  · rw [if_neg hneeds] at h
    cases h
    omega

theorem readBit_eq {data : List ℕ} {position byte : ℕ} (h : data[position / 8]? = some byte) :
    (⟨data, position⟩ : BitReader).readBit =
      some (byte.testBit (7 - position % 8), ⟨data, position + 1⟩) := by
  unfold readBit
  rw [h]
  rfl

theorem readStuffedBit_plain {data : List ℕ} {position byte : ℕ} {bit : Bool}
    (hbyte : data[position / 8]? = some byte) (hbit : byte.testBit (7 - position % 8) = bit)
    (hneeds : position % 8 ≠ 7 ∨ byte ≠ 255) :
    (⟨data, position⟩ : BitReader).readStuffedBit = some (bit, ⟨data, position + 1⟩) := by
  have hneeds : needsToReadStuffBit ⟨data, position⟩ = false := by
    unfold needsToReadStuffBit
    rw [hbyte]
    simpa [Decidable.imp_iff_not_or] using hneeds
  unfold readStuffedBit
  rw [readBit_eq hbyte, hneeds, hbit]
  rfl

theorem readStuffedBit_stuffed {data : List ℕ} {position next : ℕ} {bit : Bool}
    (hposition : position % 8 = 7) (hbyte : data[position / 8]? = some 255)
    (hbit : (255).testBit (7 - position % 8) = bit) (hnext : data[(position + 1) / 8]? = some next)
    (hzero : next.testBit (7 - (position + 1) % 8) = false) :
    (⟨data, position⟩ : BitReader).readStuffedBit = some (bit, ⟨data, position + 2⟩) := by
  have hneeds : needsToReadStuffBit ⟨data, position⟩ = true := by
    unfold needsToReadStuffBit
    rw [hbyte]
    simpa using hposition
  unfold readStuffedBit readStuffBit
  rw [readBit_eq hbyte, hneeds, hbit]
  dsimp only [Option.bind_eq_bind, Option.bind_some]
  rw [if_pos rfl, readBit_eq hnext, hzero]
  rfl

theorem Presents.curPos (h : Presents r bits r') : r.curPos + bits.length ≤ r'.curPos := by
  induction bits generalizing r with
  | nil => exact h ▸ le_rfl
  | cons b bits ih =>
      obtain ⟨r₁, hr, h⟩ := h
      have h1 := readStuffedBit_curPos hr
      have h2 := ih h
      rw [List.length_cons]
      omega

theorem readBit_data {bit : Bool} (h : r.readBit = some (bit, r')) :
    r'.data = r.data ∧ r'.curPos ≤ 8 * r.data.length := by
  obtain ⟨byte, hbyte, heq⟩ := Option.map_eq_some_iff.mp h
  obtain ⟨hlt, -⟩ := List.getElem?_eq_some_iff.mp hbyte
  cases heq
  exact ⟨rfl, by dsimp only; omega⟩

theorem readStuffedBit_data {bit : Bool} (h : r.readStuffedBit = some (bit, r')) :
    r'.data = r.data ∧ r'.curPos ≤ 8 * r.data.length := by
  unfold readStuffedBit readStuffBit at h
  obtain ⟨⟨b, r₁⟩, hread, h⟩ := Option.bind_eq_some_iff.mp h
  obtain ⟨hdata, hcur⟩ := readBit_data hread
  dsimp only at h
  by_cases hneeds : r.needsToReadStuffBit
  · rw [if_pos hneeds] at h
    obtain ⟨r₂, hstuff, h⟩ := Option.bind_eq_some_iff.mp h
    obtain ⟨⟨s, r₃⟩, hread₃, hstuff⟩ := Option.bind_eq_some_iff.mp hstuff
    have hdata₃ := readBit_data hread₃
    dsimp only at hstuff
    split at hstuff
    · cases hstuff
    · cases hstuff
      cases h
      rwa [hdata] at hdata₃
  · rw [if_neg hneeds] at h
    cases h
    exact ⟨hdata, hcur⟩

/-- No more bits are read than the data has. -/
theorem Presents.length_le (h : Presents r bits r') (hne : bits ≠ []) :
    r.curPos + bits.length ≤ 8 * r.data.length := by
  induction bits generalizing r with
  | nil => exact absurd rfl hne
  | cons b bits ih =>
      obtain ⟨r₁, hr, h⟩ := h
      obtain ⟨hdata, hcur⟩ := readStuffedBit_data hr
      have hlt := readStuffedBit_curPos hr
      rw [List.length_cons]
      by_cases hnil : bits = []
      · rw [hnil, List.length_nil]
        omega
      · have := ih h hnil
        rw [hdata] at this
        omega

/-- Two runs of one reader agree as far as both go. -/
theorem Presents.eq_append (hx : Presents r xs r₁) (hy : Presents r ys r₂)
    (hlen : xs.length ≤ ys.length) : ∃ zs, ys = xs ++ zs ∧ Presents r₁ zs r₂ := by
  induction xs generalizing r ys with
  | nil => exact ⟨ys, rfl, hx ▸ hy⟩
  | cons x xs ih =>
      cases ys with
      | nil => simp at hlen
      | cons y ys =>
          obtain ⟨r₃, hr₃, hx⟩ := hx
          obtain ⟨r₄, hr₄, hy⟩ := hy
          cases hr₃.symm.trans hr₄
          obtain ⟨zs, rfl, hz⟩ := ih hx hy (Nat.le_of_succ_le_succ hlen)
          exact ⟨zs, rfl, hz⟩

/-- A reader that comes to the same place has read the same bits. -/
theorem Presents.eq_of_eq (hx : Presents r xs r') (hy : Presents r ys r') : xs = ys := by
  rcases Nat.le_total xs.length ys.length with hlen | hlen
  · obtain ⟨zs, rfl, hz⟩ := hx.eq_append hy hlen
    have := hz.curPos
    rw [List.eq_nil_of_length_eq_zero (by omega : zs.length = 0), List.append_nil]
  · obtain ⟨zs, rfl, hz⟩ := hy.eq_append hx hlen
    have := hz.curPos
    rw [List.eq_nil_of_length_eq_zero (by omega : zs.length = 0), List.append_nil]

/-- The number that the loop makes of bits. -/
def numberOf (start : ℕ) (bits : List Bool) : ℕ :=
  bits.foldl (fun number bit => (number * 2 + bit.toNat) % 2 ^ 32) start

theorem Presents.readLoop (h : Presents r bits r') (start : ℕ) :
    readLoop bits.length start r = some (numberOf start bits, r') := by
  induction bits generalizing r start with
  | nil => rw [show r = r' from h]; rfl
  | cons b bits ih =>
      obtain ⟨r₁, hr, h⟩ := h
      rw [List.length_cons, BitReader.readLoop, hr]
      exact ih h _

theorem readLoop_presents {size start number : ℕ}
    (h : readLoop size start r = some (number, r')) :
    ∃ bits, bits.length = size ∧ Presents r bits r' ∧ numberOf start bits = number := by
  induction size generalizing r start with
  | zero => cases h; exact ⟨[], rfl, rfl, rfl⟩
  | succ size ih =>
      obtain ⟨⟨b, r₁⟩, hr, h⟩ := Option.bind_eq_some_iff.mp h
      obtain ⟨bits, rfl, hbits, hnumber⟩ := ih h
      exact ⟨b :: bits, rfl, ⟨r₁, hr, hbits⟩, hnumber⟩

end BitReader

end

/-! ## Fields -/

section
variable {value count : ℕ}
open BitReader

theorem fieldBits_succ (value count : ℕ) :
    fieldBits value (count + 1) = value.testBit (count % 32) :: fieldBits value count := by
  simp [fieldBits, List.range_succ]

@[simp] theorem length_fieldBits (value count : ℕ) : (fieldBits value count).length = count := by
  simp [fieldBits]

theorem numberOf_fieldBits (start : ℕ) (hcount : count ≤ 32) :
    numberOf start (fieldBits value count) % 2 ^ 32 =
      (start * 2 ^ count + value % 2 ^ count) % 2 ^ 32 := by
  induction count generalizing start with
  | zero => simp [fieldBits, numberOf, Nat.mod_one]
  | succ n ih =>
      have hmod : value % 2 ^ (n + 1) = value % 2 ^ n + 2 ^ n * (value.testBit n).toNat := by
        rw [Nat.toNat_testBit, Nat.mod_pow_succ]
      rw [fieldBits_succ, Nat.mod_eq_of_lt hcount]
      calc numberOf start (value.testBit n :: fieldBits value n) % 2 ^ 32
          = numberOf ((start * 2 + (value.testBit n).toNat) % 2 ^ 32) (fieldBits value n) % 2 ^ 32 :=
            rfl
        _ = (((start * 2 + (value.testBit n).toNat) % 2 ^ 32) * 2 ^ n + value % 2 ^ n) % 2 ^ 32 :=
            ih _ (by omega)
        _ = ((start * 2 + (value.testBit n).toNat) * 2 ^ n + value % 2 ^ n) % 2 ^ 32 := by
            rw [Nat.add_mod, Nat.mod_mul_mod, ← Nat.add_mod]
        _ = (start * 2 ^ (n + 1) + value % 2 ^ (n + 1)) % 2 ^ 32 := by
            rw [hmod]
            congr 1
            ring

theorem numberOf_lt (start : ℕ) (hstart : start < 2 ^ 32) (bits : List Bool) :
    numberOf start bits < 2 ^ 32 := by
  induction bits generalizing start with
  | nil => exact hstart
  | cons b bits ih => exact ih _ (Nat.mod_lt _ (by decide))

/-- `value_fits_in_bits`. -/
def valueFitsInBits (value bits : ℕ) : Bool := bits ≥ 32 ∨ value < 1 <<< bits

theorem numberOf_fieldBits_wide (start : ℕ) (hcount : 32 ≤ count) :
    numberOf start (fieldBits value count) % 2 ^ 32 = value % 2 ^ 32 := by
  induction count, hcount using Nat.le_induction generalizing start with
  | base => rw [numberOf_fieldBits start le_rfl, Nat.mul_add_mod_self_right, Nat.mod_mod]
  | succ n _ ih =>
      rw [fieldBits_succ]
      exact ih _

/-- A field gives its value back, also where its shift amounts have wrapped. -/
theorem numberOf_field (hvalue : value < 2 ^ 32) (hfits : valueFitsInBits value count) :
    numberOf 0 (fieldBits value count) = value := by
  rw [← Nat.mod_eq_of_lt (numberOf_lt 0 (by decide) (fieldBits value count))]
  rcases Nat.lt_or_ge count 32 with hcount | hcount
  · have hlt : value < 2 ^ count := by
      simpa [valueFitsInBits, Nat.shiftLeft_eq, Nat.not_le.mpr hcount] using hfits
    rw [numberOf_fieldBits 0 hcount.le, Nat.zero_mul, Nat.zero_add, Nat.mod_eq_of_lt hlt,
      Nat.mod_eq_of_lt hvalue]
  · rw [numberOf_fieldBits_wide 0 hcount, Nat.mod_eq_of_lt hvalue]

end

/-! ## The reader at the writer's place -/

section
variable {a : BitAccumulator} {w : BitWriter} {data : List ℕ}

namespace BitAccumulator

theorem limit_bounds (a : BitAccumulator) : 7 ≤ a.limit ∧ a.limit ≤ 8 := by
  unfold limit
  split <;> decide

theorem pushBit_eq (buffer : ℕ) (bit : Bool) :
    buffer <<< 1 ||| bit.toNat = 2 * buffer + bit.toNat := by
  rw [← Nat.shiftLeft_add_eq_or_of_lt (by cases bit <;> decide), Nat.shiftLeft_eq, Nat.pow_one,
    Nat.mul_comm]

/-- A bit completes the byte or waits in it. -/
theorem writeBit_eq (ha : a.Unfilled) (bit : Bool) : a.writeBit bit =
    if a.bitsInBuffer + 1 = a.limit then
      (some (2 * a.buffer + bit.toNat), ⟨0, 0, 2 * a.buffer + bit.toNat = 255⟩)
    else (none, ⟨2 * a.buffer + bit.toNat, a.bitsInBuffer + 1, a.lastByteWasFf⟩) := by
  have hlimit := a.limit_bounds
  have hbits := ha.bits
  have hbit := bit.toNat_lt
  unfold writeBit
  rw [pushBit_eq]
  have hlim (b n : ℕ) : limit ⟨b, n, a.lastByteWasFf⟩ = a.limit := rfl
  dsimp only
  rw [hlim]
  by_cases hfull : a.bitsInBuffer + 1 = a.limit
  · have hlt : 2 * a.buffer + bit.toNat < 2 ^ 8 :=
      calc 2 * a.buffer + bit.toNat < 2 ^ a.bitsInBuffer * 2 := by
            have := ha.buffer
            omega
        _ = 2 ^ (a.bitsInBuffer + 1) := (Nat.pow_succ ..).symm
        _ ≤ 2 ^ 8 := Nat.pow_le_pow_right (by decide) (by omega)
    rw [if_pos (by omega), if_pos hfull]
    simp only [takeFullByte, hfull, Nat.sub_self, Nat.shiftRight_zero,
      Nat.mod_eq_of_lt (show 2 * a.buffer + bit.toNat < 256 from hlt), Nat.shiftLeft_zero,
      Nat.and_zero]
  · rw [if_neg (by omega), if_neg hfull]

theorem writeBit_unfilled (ha : a.Unfilled) (bit : Bool) : (a.writeBit bit).2.Unfilled := by
  have hbits := ha.bits
  have hbuffer := ha.buffer
  rw [writeBit_eq ha]
  split_ifs with hfull
  · exact ⟨Nat.lt_of_lt_of_le (Nat.zero_lt_succ _) (limit_bounds _).1, Nat.zero_lt_one⟩
  · refine ⟨show a.bitsInBuffer + 1 < a.limit by omega, ?_⟩
    calc 2 * a.buffer + bit.toNat < 2 ^ a.bitsInBuffer * 2 := by
          have := bit.toNat_lt
          omega
      _ = 2 ^ (a.bitsInBuffer + 1) := (Nat.pow_succ ..).symm

end BitAccumulator

namespace BitWriter
open BitAccumulator

theorem empty_unfilled : empty.bits.Unfilled := ⟨by decide, by decide⟩

theorem writeBits_unfilled (hw : w.bits.Unfilled) (bits : List Bool) :
    (w.writeBits bits).bits.Unfilled := by
  induction bits generalizing w with
  | nil => exact hw
  | cons b bits ih => exact @ih (w.writeBit b) (writeBit_unfilled hw b)

theorem writeBits_append (w : BitWriter) (xs ys : List Bool) :
    w.writeBits (xs ++ ys) = (w.writeBits xs).writeBits ys := List.foldl_append

/-- Bytes that are complete stay. -/
theorem writeBits_data_prefix (w : BitWriter) (bits : List Bool) :
    w.data <+: (w.writeBits bits).data := by
  induction bits generalizing w with
  | nil => exact List.prefix_rfl
  | cons b bits ih => exact (List.prefix_append _ _).trans (ih (w.writeBit b))

/-- Bytes that hold what the writer has written, the bits of its open byte on top. -/
structure Holds (w : BitWriter) (data : List ℕ) : Prop where
  complete : w.data <+: data
  open_byte : w.bits.lastByteWasFf ∨ 0 < w.bits.bitsInBuffer → ∃ byte,
    data[w.data.length]? = some byte ∧
      byte / 2 ^ (w.bits.limit - w.bits.bitsInBuffer) = w.bits.buffer

theorem holds_finish (hw : w.bits.Unfilled) : Holds w w.finish := by
  refine ⟨List.prefix_append _ _, fun hopen => ?_⟩
  have hbuffer := hw.buffer
  have hbits := hw.bits
  have hlimit := w.bits.limit_bounds
  rw [finish, List.getElem?_append_right le_rfl, Nat.sub_self, flush]
  by_cases hempty : w.bits.bitsInBuffer = 0
  · rw [hempty] at hopen hbuffer ⊢
    have hff := hopen.resolve_right (by decide)
    rw [if_pos rfl, if_pos hff]
    exact ⟨0, rfl, by rw [Nat.zero_div]; omega⟩
  · have hlt : w.bits.buffer <<< (w.bits.limit - w.bits.bitsInBuffer) < 256 :=
      calc w.bits.buffer <<< (w.bits.limit - w.bits.bitsInBuffer)
          = w.bits.buffer * 2 ^ (w.bits.limit - w.bits.bitsInBuffer) := Nat.shiftLeft_eq _ _
        _ < 2 ^ w.bits.bitsInBuffer * 2 ^ (w.bits.limit - w.bits.bitsInBuffer) :=
            Nat.mul_lt_mul_of_pos_right hbuffer (Nat.two_pow_pos _)
        _ = 2 ^ w.bits.limit := by rw [← Nat.pow_add, Nat.add_sub_cancel' hbits.le]
        _ ≤ 2 ^ 8 := Nat.pow_le_pow_right (by decide) hlimit.2
    rw [if_neg hempty]
    refine ⟨_, rfl, ?_⟩
    rw [Nat.mod_eq_of_lt hlt, Nat.shiftLeft_eq, Nat.mul_div_cancel _ (Nat.two_pow_pos _)]

theorem writeBit_full (hw : w.bits.Unfilled) (hfull : w.bits.bitsInBuffer + 1 = w.bits.limit)
    (bit : Bool) : w.writeBit bit = ⟨w.data ++ [2 * w.bits.buffer + bit.toNat],
      0, 0, 2 * w.bits.buffer + bit.toNat = 255⟩ := by
  unfold writeBit
  rw [writeBit_eq hw, if_pos hfull]
  rfl

theorem writeBit_open (hw : w.bits.Unfilled) (hopen : w.bits.bitsInBuffer + 1 ≠ w.bits.limit)
    (bit : Bool) : w.writeBit bit = ⟨w.data, 2 * w.bits.buffer + bit.toNat,
      w.bits.bitsInBuffer + 1, w.bits.lastByteWasFf⟩ := by
  unfold writeBit
  rw [writeBit_eq hw, if_neg hopen]
  exact congrArg (BitWriter.mk · _) (List.append_nil _)

theorem holds_of_writeBit (hw : w.bits.Unfilled) {bit : Bool} (h : Holds (w.writeBit bit) data) :
    Holds w data := by
  have hbits := hw.bits
  have hbit := bit.toNat_lt
  by_cases hfull : w.bits.bitsInBuffer + 1 = w.bits.limit
  · rw [writeBit_full hw hfull] at h
    obtain ⟨rest, rfl⟩ := h.complete
    refine ⟨⟨_, (List.append_assoc ..).symm⟩, fun _ => ⟨2 * w.bits.buffer + bit.toNat, by simp, ?_⟩⟩
    rw [← hfull, Nat.add_sub_cancel_left, Nat.pow_one]
    omega
  · rw [writeBit_open hw hfull] at h
    obtain ⟨byte, hbyte, htop⟩ := h.open_byte (Or.inr (Nat.succ_pos _))
    refine ⟨h.complete, fun _ => ⟨byte, hbyte, ?_⟩⟩
    change byte / 2 ^ (w.bits.limit - (w.bits.bitsInBuffer + 1)) =
      2 * w.bits.buffer + bit.toNat at htop
    rw [show w.bits.limit - w.bits.bitsInBuffer = w.bits.limit - (w.bits.bitsInBuffer + 1) + 1 by
      omega, Nat.pow_succ, ← Nat.div_div_eq_div_mul, htop]
    omega

theorem holds_writeBits (hw : w.bits.Unfilled) (bits : List Bool) :
    Holds w (w.writeBits bits).finish := by
  induction bits generalizing w with
  | nil => exact holds_finish hw
  | cons b bits ih => exact holds_of_writeBit hw (ih (writeBit_unfilled hw b))

theorem position_div (hw : w.bits.Unfilled) :
    w.position / 8 = w.data.length ∧
      w.position % 8 = 8 - w.bits.limit + w.bits.bitsInBuffer := by
  have := hw.bits
  have := w.bits.limit_bounds
  unfold position
  omega

theorem testBit_of_top {byte k m : ℕ} {bit : Bool} (h : byte / 2 ^ k = 2 * m + bit.toNat) :
    byte.testBit k = bit := by
  rw [Nat.testBit_eq_decide_div_mod_eq, h]
  cases bit <;> simp

/-- The reader at the writer's place reads the bit that the writer writes. -/
theorem readStuffedBit_of_holds (hw : w.bits.Unfilled) {bit : Bool}
    (h : Holds (w.writeBit bit) data) :
    (⟨data, w.position⟩ : BitReader).readStuffedBit =
      some (bit, ⟨data, (w.writeBit bit).position⟩) := by
  obtain ⟨hdiv, hmod⟩ := position_div hw
  have hbits := hw.bits
  have hlimit := w.bits.limit_bounds
  by_cases hfull : w.bits.bitsInBuffer + 1 = w.bits.limit
  · rw [writeBit_full hw hfull] at h ⊢
    have hposition : w.position + 1 = 8 * (w.data.length + 1) := by
      unfold position
      omega
    have hbyte : data[w.position / 8]? = some (2 * w.bits.buffer + bit.toNat) := by
      obtain ⟨rest, rfl⟩ := h.complete
      rw [hdiv]
      simp
    have hbit : (2 * w.bits.buffer + bit.toNat).testBit (7 - w.position % 8) = bit := by
      rw [hmod, show 7 - (8 - w.bits.limit + w.bits.bitsInBuffer) = 0 by omega]
      exact testBit_of_top (by rw [Nat.pow_zero, Nat.div_one])
    by_cases hff : 2 * w.bits.buffer + bit.toNat = 255
    · -- 0xFF is complete, and the stuffed bit on top of the next byte is zero
      obtain ⟨next, hnext, htop⟩ := h.open_byte (Or.inl (decide_eq_true hff))
      have hnext : data[(w.position + 1) / 8]? = some next := by
        rw [hposition, Nat.mul_div_cancel_left _ (by decide)]
        simpa using hnext
      have hzero : next.testBit (7 - (w.position + 1) % 8) = false := by
        rw [hposition, Nat.mul_mod_right]
        exact testBit_of_top (m := 0) (by simpa [BitAccumulator.limit, hff] using htop)
      rw [BitReader.readStuffedBit_stuffed (by omega) (hff ▸ hbyte) (hff ▸ hbit) hnext hzero,
        show w.position + 2 = 8 * (w.data.length + 1) + 1 by omega]
      simp [position, BitAccumulator.limit, hff]
    · rw [BitReader.readStuffedBit_plain hbyte hbit (Or.inr hff), hposition]
      simp [position, BitAccumulator.limit, hff]
  · rw [writeBit_open hw hfull] at h ⊢
    obtain ⟨byte, hbyte, htop⟩ := h.open_byte (Or.inr (Nat.succ_pos _))
    have hbit : byte.testBit (7 - w.position % 8) = bit := by
      rw [hmod, show 7 - (8 - w.bits.limit + w.bits.bitsInBuffer) =
        w.bits.limit - (w.bits.bitsInBuffer + 1) by omega]
      exact testBit_of_top htop
    rw [BitReader.readStuffedBit_plain (by rwa [hdiv]) hbit (Or.inl (by omega))]
    rfl

/-- What is written behind a place is what the reader there is presented with. -/
theorem presents_writeBits (hw : w.bits.Unfilled) (bits post : List Bool) :
    BitReader.Presents ⟨(w.writeBits (bits ++ post)).finish, w.position⟩ bits
      ⟨(w.writeBits (bits ++ post)).finish, (w.writeBits bits).position⟩ := by
  induction bits generalizing w with
  | nil => exact rfl
  | cons b bits ih =>
      have hb := writeBit_unfilled hw b
      exact ⟨_, readStuffedBit_of_holds hw (holds_writeBits hb (bits ++ post)), ih hb⟩

end BitWriter

/-- The place behind bits that were written first. -/
def placeAfter (bits : List Bool) : ℕ := (BitWriter.empty.writeBits bits).position

/-- A reader of a finished header, behind its first bits, is presented with those that
follow. -/
theorem presents_written (pre bits post : List Bool) :
    BitReader.Presents ⟨written (pre ++ bits ++ post), placeAfter pre⟩ bits
      ⟨written (pre ++ bits ++ post), placeAfter (pre ++ bits)⟩ := by
  have h := BitWriter.presents_writeBits
    (BitWriter.writeBits_unfilled BitWriter.empty_unfilled pre) bits post
  unfold written placeAfter
  rwa [List.append_assoc, BitWriter.writeBits_append, BitWriter.writeBits_append _ pre bits]

end

end J2kNative.BitStuffing
