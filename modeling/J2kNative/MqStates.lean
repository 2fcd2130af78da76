import Mathlib.Data.Nat.Notation
import Mathlib.Data.Nat.Bitwise

/-!
# MQ probability states and context labels

The probability table of the arithmetic coder, the one-byte context label that
encoder and decoder share (state index in bits 0-6, most probable symbol in bit
7) and the packed transition word that the decoder derives from the table. The
encoder moves a label through the table fields; the decoder selects one of two
precomputed bytes. `packed_spec` is the only place where the two are compared.
-/
namespace J2kNative.MqStates

/-- One row of the probability table. -/
structure ClassicMqState where
  qe : ℕ
  nmps : ℕ
  nlps : ℕ
  switch : Bool
  deriving DecidableEq, Repr

/-- `MQ_STATES`, in the row order of the source. -/
def qeTable : List ClassicMqState :=
  [⟨0x5601, 1, 1, true⟩, ⟨0x3401, 2, 6, false⟩, ⟨0x1801, 3, 9, false⟩,
   ⟨0x0AC1, 4, 12, false⟩, ⟨0x0521, 5, 29, false⟩, ⟨0x0221, 38, 33, false⟩,
   ⟨0x5601, 7, 6, true⟩, ⟨0x5401, 8, 14, false⟩, ⟨0x4801, 9, 14, false⟩,
   ⟨0x3801, 10, 14, false⟩, ⟨0x3001, 11, 17, false⟩, ⟨0x2401, 12, 18, false⟩,
   ⟨0x1C01, 13, 20, false⟩, ⟨0x1601, 29, 21, false⟩, ⟨0x5601, 15, 14, true⟩,
   ⟨0x5401, 16, 14, false⟩, ⟨0x5101, 17, 15, false⟩, ⟨0x4801, 18, 16, false⟩,
   ⟨0x3801, 19, 17, false⟩, ⟨0x3401, 20, 18, false⟩, ⟨0x3001, 21, 19, false⟩,
   ⟨0x2801, 22, 19, false⟩, ⟨0x2401, 23, 20, false⟩, ⟨0x2201, 24, 21, false⟩,
   ⟨0x1C01, 25, 22, false⟩, ⟨0x1801, 26, 23, false⟩, ⟨0x1601, 27, 24, false⟩,
   ⟨0x1401, 28, 25, false⟩, ⟨0x1201, 29, 26, false⟩, ⟨0x1101, 30, 27, false⟩,
   ⟨0x0AC1, 31, 28, false⟩, ⟨0x09C1, 32, 29, false⟩, ⟨0x08A1, 33, 30, false⟩,
   ⟨0x0521, 34, 31, false⟩, ⟨0x0441, 35, 32, false⟩, ⟨0x02A1, 36, 33, false⟩,
   ⟨0x0221, 37, 34, false⟩, ⟨0x0141, 38, 35, false⟩, ⟨0x0111, 39, 36, false⟩,
   ⟨0x0085, 40, 37, false⟩, ⟨0x0049, 41, 38, false⟩, ⟨0x0025, 42, 39, false⟩,
   ⟨0x0015, 43, 40, false⟩, ⟨0x0009, 44, 41, false⟩, ⟨0x0005, 45, 42, false⟩,
   ⟨0x0001, 45, 43, false⟩, ⟨0x5601, 46, 46, false⟩]

/-- `QE_TABLE[index]`; the source panics past the end, which no valid label reaches. -/
def qeEntry (index : ℕ) : ClassicMqState := qeTable.getD index ⟨0, 0, 0, false⟩

/-- The byte of `ArithmeticEncoderContext` and `ArithmeticDecoderContext`. -/
abbrev Context := ℕ

namespace Context

def index (ctx : Context) : ℕ := ctx &&& 0x7F

def mps (ctx : Context) : ℕ := ctx >>> 7

def setIndex (ctx : Context) (i : ℕ) : Context := (ctx &&& 0x80) ||| i

def xorMps (ctx : Context) (val : ℕ) : Context :=
  ctx ^^^ ((if val &&& 1 ≠ 0 then 1 else 0) <<< 7)

/-- A label names a row of the table and fits in its byte. -/
def Valid (ctx : Context) : Prop := ctx < 256 ∧ ctx.index < 47

instance (ctx : Context) : Decidable ctx.Valid := inferInstanceAs (Decidable (_ ∧ _))

/-- The label after a most probable symbol that renormalizes. -/
def afterMps (ctx : Context) : Context := ctx.setIndex (qeEntry ctx.index).nmps

/-- The label after a least probable symbol, with the switch of the sense of the MPS. -/
def afterLps (ctx : Context) : Context :=
  (if (qeEntry ctx.index).switch then ctx.xorMps 1 else ctx).setIndex (qeEntry ctx.index).nlps

end Context

/-- `packed_decoder_states`: the transition word stored at index `context`; bytes
that name no row keep the initial zero. -/
def packedDecoderState (context : ℕ) : ℕ :=
  let index := context &&& 0x7F
  let mps := context >>> 7
  if index < 47 ∧ mps ≤ 1 then
    let state := qeEntry index
    let nextMps := state.nmps ||| (mps <<< 7)
    let nextLps := state.nlps ||| ((mps ^^^ state.switch.toNat) <<< 7)
    state.qe ||| (mps <<< 16) ||| (nextMps <<< 24) ||| (nextLps <<< 32)
  else 0

/-- What the decoder unpacks for a label is what the encoder reads from the table. -/
structure Unpacked (ctx : Context) : Prop where
  qe : packedDecoderState ctx &&& 0xffff = (qeEntry ctx.index).qe
  mps : (if (packedDecoderState ctx >>> 16) &&& 1 ≠ 0 then 1 else 0) = ctx.mps
  nextMps : (packedDecoderState ctx >>> 24) % 256 = ctx.afterMps
  nextLps : (packedDecoderState ctx >>> 32) % 256 = ctx.afterLps

instance (ctx : Context) : Decidable (Unpacked ctx) :=
  decidable_of_iff
    (packedDecoderState ctx &&& 0xffff = (qeEntry ctx.index).qe ∧
      (if (packedDecoderState ctx >>> 16) &&& 1 ≠ 0 then 1 else 0) = ctx.mps ∧
      (packedDecoderState ctx >>> 24) % 256 = ctx.afterMps ∧
      (packedDecoderState ctx >>> 32) % 256 = ctx.afterLps)
    ⟨fun ⟨a, b, c, d⟩ => ⟨a, b, c, d⟩, fun ⟨a, b, c, d⟩ => ⟨a, b, c, d⟩⟩

private theorem packed_spec_all : ∀ ctx < 256, Context.Valid ctx → Unpacked ctx := by
  decide +kernel

theorem packed_spec {ctx : Context} (h : ctx.Valid) : Unpacked ctx :=
  packed_spec_all ctx h.1 h

/-- Bounds on a row that the register arithmetic relies on: a sub-interval is
neither empty nor larger than `0x5601`, and both transitions stay inside the table. -/
structure RowBounds (ctx : Context) : Prop where
  qe_pos : 0 < (qeEntry ctx.index).qe
  qe_le : (qeEntry ctx.index).qe ≤ 0x5601
  mps_lt : ctx.mps < 2
  afterMps : ctx.afterMps.Valid
  afterLps : ctx.afterLps.Valid

instance (ctx : Context) : Decidable (RowBounds ctx) :=
  decidable_of_iff
    (0 < (qeEntry ctx.index).qe ∧ (qeEntry ctx.index).qe ≤ 0x5601 ∧ ctx.mps < 2 ∧
      ctx.afterMps.Valid ∧ ctx.afterLps.Valid)
    ⟨fun ⟨a, b, c, d, e⟩ => ⟨a, b, c, d, e⟩, fun ⟨a, b, c, d, e⟩ => ⟨a, b, c, d, e⟩⟩

private theorem row_bounds_all : ∀ ctx < 256, Context.Valid ctx → RowBounds ctx := by
  decide +kernel

theorem row_bounds {ctx : Context} (h : ctx.Valid) : RowBounds ctx :=
  row_bounds_all ctx h.1 h

end J2kNative.MqStates
