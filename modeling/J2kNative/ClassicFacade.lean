import J2kNative.ClassicPasses
import J2kNative.PayloadPlan

/-!
# Entry points of the classic decoder

A block is decoded from its data and the segments in it, or from the segments that its layers have
brought. Both set up the job first, which refuses more bit planes without a bit than there are and,
where the decoder is strict, more passes than the bit planes have. Arrays that cannot be had are
left out.
-/
namespace J2kNative.ClassicDecoder
open RecordedRuns Fallible
open TileTree (SubBandType)
open PayloadPlan (EncodedSegment)

inductive DecodingError where
  | invalidBitplaneCount
  | tooManyCodingPasses
  | codeBlockDecodeFailure
  deriving DecidableEq, Repr

/-- `reset_for_job`, as far as it is told from the job. -/
def resetForJob (width height missingBitPlanes numberOfCodingPasses : ℕ) (subBandType : SubBandType)
    (style : CodeBlockStyle) (totalBitplanes : ℕ) (strict : Bool) : Except DecodingError Job := do
  refuse (strict ∧ totalBitplanes < missingBitPlanes) .invalidBitplaneCount
  let bitplanes := totalBitplanes - missingBitPlanes
  let maxCodingPasses := if bitplanes = 0 then 0 else 1 + 3 * (bitplanes - 1)
  refuse (maxCodingPasses < numberOfCodingPasses ∧ strict) .tooManyCodingPasses
  pure ⟨width,height,bitplanes,maxCodingPasses,strict,subBandType,style⟩

/-- The arrays at the end of a run that gets there. -/
def arraysBehind (m : Rec Moment Unit Unit) : Except DecodingError BitPlaneDecodeContext :=
  match m startOfRun with
  | (some _,r) => .ok r.state.ctx
  | (none,_) => .error .codeBlockDecodeFailure

/-- `decode`, with the data and the number of passes of every segment of the layers. -/
def decode (segments : List (List ℕ × ℕ)) (width height missingBitPlanes numberOfCodingPasses : ℕ)
    (totalBitplanes : ℕ) (subBandType : SubBandType) (style : CodeBlockStyle) (strict : Bool) :
    Except DecodingError BitPlaneDecodeContext := do
  let job ← resetForJob width height missingBitPlanes numberOfCodingPasses subBandType style
    totalBitplanes strict
  arraysBehind (decodeInner job segments numberOfCodingPasses)

/-- The data of a segment, where they are in the data of the block. -/
def segmentOf (data : List ℕ) (segment : EncodedSegment) : Option CodeBlockSegment :=
  if segment.dataOffset + segment.dataLength ≤ data.length then
    some ⟨(data.drop segment.dataOffset).take segment.dataLength,segment.startCodingPass,
      segment.endCodingPass,segment.useArithmetic⟩
  else none

def decodeCodeBlockSegmentsValidated (data : List ℕ) (segments : List EncodedSegment)
    (width height missingBitPlanes numberOfCodingPasses totalBitplanes : ℕ)
    (subBandType : SubBandType) (style : CodeBlockStyle) (strict : Bool) :
    Except DecodingError BitPlaneDecodeContext := do
  let job ← resetForJob width height missingBitPlanes numberOfCodingPasses subBandType style
    totalBitplanes strict
  if numberOfCodingPasses = 0 ∨ job.bitplanes = 0 then pure .reset
  else
    match segments.mapM (segmentOf data) with
    | none => .error .codeBlockDecodeFailure
    | some segments => arraysBehind (decodeCodeBlockSegments job segments 0 numberOfCodingPasses)

/-- `Coefficient::get_i64`. -/
def getI64 (coefficient : ℕ) : ℤ :=
  (coefficient % 2 ^ 63 : ℕ) * (1 - 2 * if coefficient / 2 ^ 63 % 2 ≠ 0 then 1 else 0)

/-- A sign above sixty-three bits of a magnitude. -/
theorem getI64_signed {magnitude : ℕ} (h : magnitude < 2 ^ 63) (sign : Bool) :
    getI64 (sign.toNat * 2 ^ 63 + magnitude) = if sign then -(magnitude : ℤ) else magnitude := by
  have hmagnitude : (sign.toNat * 2 ^ 63 + magnitude) % 2 ^ 63 = magnitude := by
    rw [Nat.add_comm,Nat.add_mul_mod_self_right,Nat.mod_eq_of_lt h]
  have hsign : (sign.toNat * 2 ^ 63 + magnitude) / 2 ^ 63 = sign.toNat := by
    rw [Nat.add_comm,Nat.add_mul_div_right _ _ (Nat.two_pow_pos 63),Nat.div_eq_of_lt h,Nat.zero_add]
  unfold getI64
  rw [hmagnitude,hsign]
  cases sign with
  | false => simp
  | true => simp

theorem arraysBehind_ok {m : Rec Moment Unit Unit} {r : Run Moment Unit}
    (h : m startOfRun = (some (),r)) : arraysBehind m = .ok r.state.ctx := by
  unfold arraysBehind
  rw [h]

/-- A job whose passes fill its bit planes. -/
theorem resetForJob_ok (width height : ℕ) (subBandType : SubBandType) (style : CodeBlockStyle)
    {bitplanes totalBitplanes : ℕ} (hpos : 0 < bitplanes) (hle : bitplanes ≤ totalBitplanes)
    (strict : Bool) :
    resetForJob width height (totalBitplanes - bitplanes) (1 + 3 * (bitplanes - 1)) subBandType style
        totalBitplanes strict =
      .ok ⟨width,height,bitplanes,1 + 3 * (bitplanes - 1),strict,subBandType,style⟩ := by
  have hplanes : totalBitplanes - (totalBitplanes - bitplanes) = bitplanes := by omega
  unfold resetForJob refuse
  rw [if_neg (by omega),hplanes,Fallible.ok_bind]
  dsimp only
  rw [if_neg hpos.ne',if_neg (by omega)]
  rfl

end J2kNative.ClassicDecoder
