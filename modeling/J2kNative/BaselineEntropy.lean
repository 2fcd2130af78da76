import J2kNative.JpegBitWriter
import J2kNative.ProgressiveScan
import Mathlib.Data.Nat.Size
import Mathlib.Data.Int.Basic

/-!
# Entropy coding of one quantized block

The encoder codes the difference of the DC coefficients, then the AC coefficients
in zigzag order as runs of zeros and categories. `blockBits` is the string of bits
a block stands for; a symbol the table has no code for makes it undefined, and
the encoder fails there.
-/
namespace J2kNative

open Emission

/-- Codes and code lengths by symbol; the length 0 means that the symbol has no code. -/
structure JpegBaselineHuffmanTable where
  codes : ℕ → ℕ
  lens : ℕ → ℕ
  lens_le : ∀ symbol, lens symbol ≤ 16

/-- The quantized coefficients of a block in natural order. The quantizer divides the
transform of 64 samples of eight bits, so they stay far below `2^15`. -/
structure QuantizedBlock where
  coeff : ℕ → ℤ
  bounded : ∀ i, (coeff i).natAbs < 2^15

/-- The category of a value and the bits that tell it from others of its category. -/
def magnitude (value : ℤ) : ℕ × ℕ :=
  if value = 0 then (0,0)
  else (value.natAbs.size,
    if 0 ≤ value then value.natAbs else 2^value.natAbs.size-1-value.natAbs)

def writeHuffmanSymbol (table : JpegBaselineHuffmanTable) (symbol : ℕ) : Write Unit :=
  if table.lens symbol = 0 then throw (.missingHuffmanCode symbol)
  else BitWriter.writeBits (table.codes symbol) (table.lens symbol)

/-- The codes for sixteen zeros, as many as the run holds, and the rest of the run. -/
def writeZeroRuns (table : JpegBaselineHuffmanTable) (zeroRun : ℕ) : Write ℕ :=
  if 16 ≤ zeroRun then do
    writeHuffmanSymbol table 0xF0
    writeZeroRuns table (zeroRun-16)
  else pure zeroRun

/-- One AC coefficient after a run of zeros; the run after it. -/
def encodeAc (table : JpegBaselineHuffmanTable) (zeroRun : ℕ) (coeff : ℤ) : Write ℕ :=
  if coeff = 0 then pure (min (zeroRun+1) 255)
  else do
    let zeroRun ← writeZeroRuns table zeroRun
    writeHuffmanSymbol table (zeroRun*16 ||| (magnitude coeff).1)
    BitWriter.writeBits (magnitude coeff).2 (magnitude coeff).1
    pure 0

def encodeAcs (table : JpegBaselineHuffmanTable) (coeffs : List ℤ) : Write ℕ :=
  coeffs.foldlM (encodeAc table) 0

/-- The AC coefficients in zigzag order. -/
def QuantizedBlock.acs (block : QuantizedBlock) : List ℤ :=
  (List.range' 1 63).map fun k => block.coeff (natural k)

def writeDc (table : JpegBaselineHuffmanTable) (diff : ℤ) : Write Unit := do
  writeHuffmanSymbol table (magnitude diff).1
  if 0 < (magnitude diff).1 then BitWriter.writeBits (magnitude diff).2 (magnitude diff).1
  else pure ()

def writeEndOfBlock (table : JpegBaselineHuffmanTable) (zeroRun : ℕ) : Write Unit :=
  if 0 < zeroRun then writeHuffmanSymbol table 0 else pure ()

/-- Codes a block after one with the DC coefficient `prevDc`; the new DC coefficient. -/
def encodeBlock (block : QuantizedBlock) (prevDc : ℤ) (dcTable acTable : JpegBaselineHuffmanTable) :
    Write ℤ := do
  writeDc dcTable (block.coeff 0-prevDc)
  let zeroRun ← encodeAcs acTable block.acs
  writeEndOfBlock acTable zeroRun
  pure (block.coeff 0)

/-! ## The bits of a block -/

def symbolBits (table : JpegBaselineHuffmanTable) (symbol : ℕ) : Option (List ℕ) :=
  if table.lens symbol = 0 then none else some (codeBits (table.codes symbol) (table.lens symbol))

def zeroRunBits (table : JpegBaselineHuffmanTable) : ℕ → Option (List ℕ)
  | 0 => some []
  | n+1 => do
    let first ← symbolBits table 0xF0
    let rest ← zeroRunBits table n
    some (first ++ rest)

def valueBits (value : ℤ) : List ℕ := codeBits (magnitude value).2 (magnitude value).1

def acSymbolBits (table : JpegBaselineHuffmanTable) (zeroRun : ℕ) (coeff : ℤ) :
    Option (List ℕ) := do
  let runs ← zeroRunBits table (zeroRun/16)
  let symbol ← symbolBits table (zeroRun % 16*16 ||| (magnitude coeff).1)
  some (runs ++ symbol ++ valueBits coeff)

/-- The bits of the remaining AC coefficients after a run of zeros. -/
def acBits (table : JpegBaselineHuffmanTable) : ℕ → List ℤ → Option (List ℕ)
  | zeroRun,[] => if 0 < zeroRun then symbolBits table 0 else some []
  | zeroRun,coeff::coeffs =>
    if coeff = 0 then acBits table (zeroRun+1) coeffs
    else do
      let first ← acSymbolBits table zeroRun coeff
      let rest ← acBits table 0 coeffs
      some (first ++ rest)

def blockBits (block : QuantizedBlock) (prevDc : ℤ)
    (dcTable acTable : JpegBaselineHuffmanTable) : Option (List ℕ) := do
  let dc ← symbolBits dcTable (magnitude (block.coeff 0-prevDc)).1
  let ac ← acBits acTable 0 block.acs
  some (dc ++ valueBits (block.coeff 0-prevDc) ++ ac)

/-- The step writes the bits and yields the value, or fails where there are none. -/
def WritesBits {α : Type} (m : Write α) (a : α) (l : Option (List ℕ)) : Prop :=
  Realizes m (l.map fun l => (a,bits l))

section
variable {α β : Type}

theorem writesBits_pure (a : α) : WritesBits (pure a) a (some []) := realizes_pure a

theorem WritesBits.bind {m : Write α} {f : α → Write β} {a : α} {b : β} {l l' : Option (List ℕ)}
    (hm : WritesBits m a l) (hf : WritesBits (f a) b l') :
    WritesBits (m >>= f) b (do let l ← l; let l' ← l'; some (l ++ l')) := by
  cases l with
  | none => exact hm.none_bind
  | some l =>
      cases l' with
      | none => exact Realizes.bind_none hm hf
      | some l' =>
          have h := Realizes.bind hm hf
          rw [← bits_append] at h
          exact h

theorem WritesBits.seq {m : Write Unit} {n : Write β} {b : β} {l l' : Option (List ℕ)}
    (hm : WritesBits m () l) (hn : WritesBits n b l') :
    WritesBits (m >>= fun _ => n) b (do let l ← l; let l' ← l'; some (l ++ l')) := hm.bind hn

theorem WritesBits.congr {m : Write α} {a : α} {l l' : Option (List ℕ)} (h : WritesBits m a l)
    (hl : l = l') : WritesBits m a l' := hl ▸ h

end

variable {table dcTable acTable : JpegBaselineHuffmanTable}

theorem writesBits_symbol (table : JpegBaselineHuffmanTable) (symbol : ℕ) :
    WritesBits (writeHuffmanSymbol table symbol) () (symbolBits table symbol) := by
  unfold writeHuffmanSymbol symbolBits
  split_ifs
  · exact fun w _ => ⟨_,rfl⟩
  · exact realizes_writeBits _ _

theorem writesBits_zeroRuns (table : JpegBaselineHuffmanTable) (zeroRun : ℕ) :
    WritesBits (writeZeroRuns table zeroRun) (zeroRun % 16) (zeroRunBits table (zeroRun/16)) := by
  induction zeroRun using Nat.strong_induction_on with
  | _ zeroRun ih =>
      rw [writeZeroRuns]
      split_ifs with h
      · have hrest := (writesBits_symbol table 0xF0).seq (ih (zeroRun-16) (by omega))
        rw [show zeroRun/16 = (zeroRun-16)/16+1 by omega,zeroRunBits]
        rwa [show (zeroRun-16) % 16 = zeroRun % 16 by omega] at hrest
      · rw [Nat.div_eq_of_lt (by omega),zeroRunBits,Nat.mod_eq_of_lt (by omega)]
        exact writesBits_pure zeroRun

theorem writesBits_ac {coeff : ℤ} (hcoeff : coeff ≠ 0) (table : JpegBaselineHuffmanTable)
    (zeroRun : ℕ) :
    WritesBits (encodeAc table zeroRun coeff) 0 (acSymbolBits table zeroRun coeff) := by
  unfold encodeAc
  rw [if_neg hcoeff]
  have hvalue : WritesBits (BitWriter.writeBits (magnitude coeff).2 (magnitude coeff).1) ()
      (some (valueBits coeff)) := realizes_writeBits _ _
  refine ((writesBits_zeroRuns table zeroRun).bind ((writesBits_symbol table _).seq
    (hvalue.seq (writesBits_pure 0)))).congr ?_
  unfold acSymbolBits
  cases zeroRunBits table (zeroRun/16) with
  | none => rfl
  | some runs =>
      cases symbolBits table (zeroRun % 16*16 ||| (magnitude coeff).1) with
      | none => rfl
      | some symbol => simp

/-- The AC coefficients and the code for the end of the block after the last nonzero one. -/
theorem writesBits_acs (table : JpegBaselineHuffmanTable) {coeffs : List ℤ} {zeroRun : ℕ}
    (hrun : zeroRun+coeffs.length ≤ 255) :
    WritesBits (coeffs.foldlM (encodeAc table) zeroRun >>= writeEndOfBlock table) ()
      (acBits table zeroRun coeffs) := by
  induction coeffs generalizing zeroRun with
  | nil =>
      rw [acBits,List.foldlM_nil,pure_bind,writeEndOfBlock]
      split_ifs
      · exact writesBits_symbol table 0
      · exact writesBits_pure ()
  | cons coeff coeffs ih =>
      rw [List.length_cons] at hrun
      rw [List.foldlM_cons,bind_assoc,acBits]
      split_ifs with hcoeff
      · have hpure : encodeAc table zeroRun coeff = pure (zeroRun+1) := by
          rw [encodeAc,if_pos hcoeff,min_eq_left (by omega)]
        rw [hpure,pure_bind]
        exact ih (by omega)
      · exact (writesBits_ac hcoeff table zeroRun).bind (ih (by omega))

/-- The encoder writes the bits of the block. -/
theorem writesBits_encodeBlock (block : QuantizedBlock) (prevDc : ℤ)
    (dcTable acTable : JpegBaselineHuffmanTable) :
    WritesBits (encodeBlock block prevDc dcTable acTable) (block.coeff 0)
      (blockBits block prevDc dcTable acTable) := by
  have hdc : WritesBits (writeDc dcTable (block.coeff 0-prevDc)) ()
      (do let dc ← symbolBits dcTable (magnitude (block.coeff 0-prevDc)).1
          some (dc ++ valueBits (block.coeff 0-prevDc))) := by
    have hvalue : WritesBits (if 0 < (magnitude (block.coeff 0-prevDc)).1 then
        BitWriter.writeBits (magnitude (block.coeff 0-prevDc)).2
          (magnitude (block.coeff 0-prevDc)).1 else pure ()) ()
        (some (valueBits (block.coeff 0-prevDc))) := by
      split_ifs with h
      · exact realizes_writeBits _ _
      · rw [valueBits,Nat.eq_zero_of_not_pos h]
        exact writesBits_pure ()
    exact (writesBits_symbol dcTable _).seq hvalue
  have hlen : 0+block.acs.length ≤ 255 := by simp [QuantizedBlock.acs]
  have hac := writesBits_acs acTable hlen
  have hrest := hdc.seq (hac.seq (writesBits_pure (block.coeff 0)))
  rw [bind_assoc] at hrest
  refine WritesBits.congr hrest ?_
  unfold blockBits
  cases symbolBits dcTable (magnitude (block.coeff 0-prevDc)).1 with
  | none => rfl
  | some dc =>
      cases acBits acTable 0 block.acs with
      | none => rfl
      | some ac => simp

end J2kNative
