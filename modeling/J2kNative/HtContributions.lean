import J2kNative.BitStuffing
import J2kNative.EncodeErrors
import J2kNative.Fallible

/-!
# Segment lengths of high-throughput contributions

What the packet-header writer emits for the contribution of one code block to one
packet behind its inclusion (the number of coding passes and the segment lengths), and
what the segment parser makes of it. The code-block style is the one that the encoder
signals, high throughput without mixed blocks.
-/
namespace J2kNative.HtContributions
open BitStuffing Fallible

/-! ## Writer -/

/-- What the writer reads of a code block. -/
structure Contribution where
  numCodingPasses : ℕ
  dataLen : ℕ
  htCleanupLength : ℕ
  htRefinementLength : ℕ
  deriving DecidableEq, Repr

inductive HtSegmentLengthError where
  | emptyContributionHasSegments
  | contributionLengthExceedsU32 (dataLen : ℕ)
  | refinementOnlyLengthMismatch (dataLen refinementLength : ℕ)
  | refinementLengthOutOfRange (refinementLength : ℕ)
  | singlePassHasRefinement (refinementLength : ℕ)
  | singlePassLengthMismatch (dataLen cleanupLength : ℕ)
  | multiPassRequiresSegments (cleanupLength refinementLength : ℕ)
  | multiPassLengthOverflow (cleanupLength refinementLength : ℕ)
  | multiPassLengthMismatch (dataLen cleanupLength refinementLength : ℕ)
  | cleanupLengthOutOfRange (cleanupLength : ℕ)
  deriving DecidableEq, Repr

def HtSegmentLengthError.reason : HtSegmentLengthError → String
  | emptyContributionHasSegments => "empty HTJ2K packet contribution must not carry segment bytes"
  | contributionLengthExceedsU32 _ => "HTJ2K packet contribution exceeds u32 length"
  | refinementOnlyLengthMismatch _ _ => "refinement-only HTJ2K packet contribution length mismatch"
  | refinementLengthOutOfRange _ => "HTJ2K refinement segment length is out of range"
  | singlePassHasRefinement _ =>
      "single-pass HTJ2K packet contribution must not carry refinement bytes"
  | singlePassLengthMismatch _ _ => "single-pass HTJ2K packet contribution length mismatch"
  | multiPassRequiresSegments _ _ =>
      "multi-pass HTJ2K packet contribution requires cleanup/refinement lengths"
  | multiPassLengthOverflow _ _ => "multi-pass HTJ2K packet contribution length overflow"
  | multiPassLengthMismatch _ _ _ => "multi-pass HTJ2K packet contribution length mismatch"
  | cleanupLengthOutOfRange _ => "HTJ2K cleanup segment length is out of range"

def HtSegmentLengthError.toEncodeError (error : HtSegmentLengthError) : EncodeError :=
  match error with
  | contributionLengthExceedsU32 _ | multiPassLengthOverflow _ _ => .arithmeticOverflow error.reason
  | _ => .invalidInput error.reason

def bitsForHtCleanupLength (lBlock rawNumPasses : ℕ) : ℕ :=
  let placeholderGroups := (rawNumPasses - 1) / 3
  let placeholderPasses := placeholderGroups * 3
  lBlock + (placeholderPasses + 1).log2

def bitsForHtRefinementOnlyLength (lBlock numCodingPasses : ℕ) : ℕ :=
  lBlock + if numCodingPasses > 1 then 1 else 0

/-- `packet_math::ht_segment_lengths`. -/
def htSegmentLengths (c : Contribution) : Except HtSegmentLengthError (ℕ × ℕ) :=
  if c.numCodingPasses = 0 then
    if c.dataLen = 0 ∧ c.htCleanupLength = 0 ∧ c.htRefinementLength = 0 then .ok (0, 0)
    else .error .emptyContributionHasSegments
  else if c.dataLen ≥ 2 ^ 32 then .error (.contributionLengthExceedsU32 c.dataLen)
  else if c.htCleanupLength = 0 ∧ c.htRefinementLength ≠ 0 then
    if c.htRefinementLength ≠ c.dataLen then
      .error (.refinementOnlyLengthMismatch c.dataLen c.htRefinementLength)
    else if c.htRefinementLength ≥ 2047 then
      .error (.refinementLengthOutOfRange c.htRefinementLength)
    else .ok (0, c.htRefinementLength)
  else if c.numCodingPasses = 1 then
    let cleanupLength := if c.htCleanupLength = 0 then c.dataLen else c.htCleanupLength
    if c.htRefinementLength ≠ 0 then .error (.singlePassHasRefinement c.htRefinementLength)
    else if cleanupLength ≠ c.dataLen then
      .error (.singlePassLengthMismatch c.dataLen cleanupLength)
    else .ok (cleanupLength, 0)
  else if c.htCleanupLength = 0 ∨ c.htRefinementLength = 0 then
    .error (.multiPassRequiresSegments c.htCleanupLength c.htRefinementLength)
  else if c.htCleanupLength + c.htRefinementLength ≥ 2 ^ 32 then
    .error (.multiPassLengthOverflow c.htCleanupLength c.htRefinementLength)
  else if c.htCleanupLength + c.htRefinementLength ≠ c.dataLen then
    .error (.multiPassLengthMismatch c.dataLen c.htCleanupLength c.htRefinementLength)
  else if ¬(2 ≤ c.htCleanupLength ∧ c.htCleanupLength < 65535) then
    .error (.cleanupLengthOutOfRange c.htCleanupLength)
  else if c.htRefinementLength ≥ 2047 then
    .error (.refinementLengthOutOfRange c.htRefinementLength)
  else .ok (c.htCleanupLength, c.htRefinementLength)

/-- `encode_num_ht_coding_passes`. -/
def encodeNumHtCodingPasses (numPasses : ℕ) : Except EncodeError (List HeaderField) :=
  if numPasses = 1 then .ok [(0, 1)]
  else if numPasses = 2 then .ok [(0b10, 2)]
  else if 3 ≤ numPasses ∧ numPasses ≤ 5 then .ok [(0b11, 2), (numPasses - 3, 2)]
  else if 6 ≤ numPasses ∧ numPasses ≤ 36 then .ok [(0b11, 2), (0b11, 2), (numPasses - 6, 5)]
  else if 37 ≤ numPasses ∧ numPasses ≤ 164 then
    .ok [(0b11, 2), (0b11, 2), (31, 5), (numPasses - 37, 7)]
  else .error (.invalidInput "HTJ2K packet contribution must contain 1..=164 coding passes")

/-- The loop that raises the L-block until the lengths fit, with the bits it writes. More than
32 turns are never needed, so that the sums of the source do not overflow. -/
def raiseLBlock (fits : ℕ → ℕ → Bool) : ℕ → ℕ → ℕ → Except EncodeError (List Bool × ℕ × ℕ)
  | 0, _, _ => .error (.arithmeticOverflow "HT packet L-block")
  | turns + 1, lBlock, lengthBits =>
      if fits lBlock lengthBits then .ok ([], lBlock, lengthBits)
      else do
        let (bits, raised) ← raiseLBlock fits turns (lBlock + 1) (lengthBits + 1)
        .ok (true :: bits, raised)

/-- The ones for which the L-block is raised and the zero behind them, the new L-block and the
new width. -/
def growLBlock (fits : ℕ → ℕ → Bool) (lBlock lengthBits : ℕ) :
    Except EncodeError (List HeaderField × ℕ × ℕ) := do
  let (ones, lBlock, lengthBits) ← raiseLBlock fits 33 lBlock lengthBits
  .ok (bitFields (ones ++ [false]), lBlock, lengthBits)

theorem raiseLBlock_spec {fits : ℕ → ℕ → Bool} {turns lBlock lengthBits : ℕ} {bits : List Bool}
    {raised raisedBits : ℕ}
    (h : raiseLBlock fits turns lBlock lengthBits = .ok (bits, raised, raisedBits)) :
    ∃ k < turns, bits = List.replicate k true ∧ raised = lBlock + k ∧ raisedBits = lengthBits + k ∧
      fits raised raisedBits ∧ ∀ j < k, fits (lBlock + j) (lengthBits + j) = false := by
  induction turns generalizing lBlock lengthBits bits with
  | zero => cases h
  | succ turns ih =>
      unfold raiseLBlock at h
      split_ifs at h with hfits
      · cases h
        exact ⟨0, Nat.succ_pos _, rfl, rfl, rfl, hfits, nofun⟩
      · obtain ⟨⟨ones, _⟩, hrest, h⟩ := bind_eq_ok.mp h
        cases h
        obtain ⟨k, hk, rfl, rfl, rfl, hraised, hbefore⟩ := ih hrest
        refine ⟨k + 1, by omega, rfl, by omega, by omega, hraised, fun j hj => ?_⟩
        cases j with
        | zero => exact Bool.eq_false_iff.mpr hfits
        | succ j =>
            have := hbefore j (by omega)
            rwa [Nat.add_right_comm lBlock, Nat.add_right_comm lengthBits] at this

/-- The L-block grows by the ones in front of a zero, no further than until everything fits. -/
theorem growLBlock_spec {fits : ℕ → ℕ → Bool} {lBlock lengthBits raised raisedBits : ℕ}
    {fields : List HeaderField}
    (h : growLBlock fits lBlock lengthBits = .ok (fields, raised, raisedBits)) :
    ∃ k < 33, fields = bitFields (List.replicate k true ++ [false]) ∧ raised = lBlock + k ∧
      raisedBits = lengthBits + k ∧ fits raised raisedBits ∧
      ∀ j < k, fits (lBlock + j) (lengthBits + j) = false := by
  obtain ⟨⟨ones, _, _⟩, hraise, h⟩ := bind_eq_ok.mp h
  obtain ⟨k, hk, rfl, rfl, rfl, hspec⟩ := raiseLBlock_spec hraise
  cases h
  exact ⟨k, hk, rfl, rfl, rfl, hspec⟩

/-- A width within `u8`. -/
def fieldWidth (lengthBits : ℕ) (what : String) : Except EncodeError ℕ :=
  if lengthBits > 255 then .error (.invalidInput what) else .ok lengthBits

theorem fieldWidth_ok {lengthBits width : ℕ} {what : String}
    (h : fieldWidth lengthBits what = .ok width) : width = lengthBits ∧ width ≤ 255 := by
  unfold fieldWidth at h
  split_ifs at h
  cases h
  omega

def refinementExtraBits (numCodingPasses : ℕ) : ℕ := if numCodingPasses > 2 then 1 else 0

/-- The refinement of a contribution without cleanup. -/
def encodeRefinementOnly (refinementLength numCodingPasses lBlock : ℕ) :
    Except EncodeError (List HeaderField × ℕ) := do
  let (fields, lBlock, refinementBits) ← growLBlock
    (fun _ refinementBits => valueFitsInBits refinementLength refinementBits) lBlock
    (bitsForHtRefinementOnlyLength lBlock numCodingPasses)
  let width ← fieldWidth refinementBits "HT refinement length bit count exceeds u8"
  .ok (fields ++ [(refinementLength, width)], lBlock)

/-- The refinement behind the cleanup. -/
def refinementField (refinementLength numCodingPasses lBlock : ℕ) :
    Except EncodeError (List HeaderField) :=
  if numCodingPasses > 1 then do
    let width ← fieldWidth (lBlock + refinementExtraBits numCodingPasses)
      "HT refinement length bit count exceeds u8"
    .ok [(refinementLength, width)]
  else .ok []

def encodeCleanupAndRefinement (cleanupLength refinementLength numCodingPasses lBlock : ℕ) :
    Except EncodeError (List HeaderField × ℕ) := do
  let (fields, lBlock, cleanupBits) ← growLBlock
    (fun lBlock cleanupBits => valueFitsInBits cleanupLength cleanupBits &&
      !(numCodingPasses > 1 &&
        !valueFitsInBits refinementLength (lBlock + refinementExtraBits numCodingPasses)))
    lBlock (bitsForHtCleanupLength lBlock numCodingPasses)
  let width ← fieldWidth cleanupBits "HT cleanup length bit count exceeds u8"
  let refinement ← refinementField refinementLength numCodingPasses lBlock
  .ok (fields ++ [(cleanupLength, width)] ++ refinement, lBlock)

/-- `encode_ht_segment_lengths_with_lblock`: the fields it writes, and the new L-block. -/
def encodeHtSegmentLengthsWithLblock (c : Contribution) (lBlock : ℕ) :
    Except EncodeError (List HeaderField × ℕ) :=
  if lBlock > 255 then .error (.invalidInput "HT packet L-block exceeds u8")
  else do
    let (cleanupLength, refinementLength) ← (htSegmentLengths c).mapError (·.toEncodeError)
    if cleanupLength = 0 ∧ refinementLength ≠ 0 then
      encodeRefinementOnly refinementLength c.numCodingPasses lBlock
    else encodeCleanupAndRefinement cleanupLength refinementLength c.numCodingPasses lBlock

/-- The fields of an included code block behind its inclusion. -/
def contributionFields (c : Contribution) (lBlock : ℕ) : Except EncodeError (List HeaderField × ℕ) := do
  let passes ← encodeNumHtCodingPasses c.numCodingPasses
  let (lengths, lBlock) ← encodeHtSegmentLengthsWithLblock c lBlock
  .ok (passes ++ lengths, lBlock)

/-- What `form_packet_header` writes of an included code block behind its inclusion. -/
def encodeContribution (c : Contribution) (lBlock : ℕ) : Except EncodeError (List Bool × ℕ) := do
  let (fields, lBlock) ← contributionFields c lBlock
  .ok (bitsOfFields fields, lBlock)

/-! ## Parser -/

inductive CodeBlockCoding where
  | classic
  | highThroughput
  deriving DecidableEq, Repr

structure CodeBlock where
  missingBitPlanes : ℕ
  numberOfCodingPasses : ℕ
  htTotalCodingPasses : ℕ
  htFirstCleanupPass : Option ℕ
  htSelectedSet : Option ℕ
  coding : Option CodeBlockCoding
  lBlock : ℕ
  nonEmptyLayerCount : ℕ
  deriving DecidableEq, Repr

structure Segment where
  idx : ℕ
  codingPasses : ℕ
  dataLength : ℕ
  deriving DecidableEq, Repr

def maxBitplaneCount : ℕ := 63

def maxCodingPasses : ℕ := 1 + 3 * (maxBitplaneCount - 1)

/-- `decode_num_coding_passes`. -/
def decodeNumCodingPasses (r : BitReader) : Option (ℕ × BitReader) :=
  if r.peakBitsWithStuffing 9 = some 0x1ff then do
    let (_, r) ← r.readBitsWithStuffing 9
    let (passes, r) ← r.readBitsWithStuffing 7
    some (passes + 37, r)
  else if r.peakBitsWithStuffing 4 = some 0x0f then do
    let (_, r) ← r.readBitsWithStuffing 4
    let (passes, r) ← r.readBitsWithStuffing 5
    some (passes + 6, r)
  else if r.peakBitsWithStuffing 4 = some 0b1110 then
    (r.readBitsWithStuffing 4).map fun (_, r) => (5, r)
  else if r.peakBitsWithStuffing 4 = some 0b1101 then
    (r.readBitsWithStuffing 4).map fun (_, r) => (4, r)
  else if r.peakBitsWithStuffing 4 = some 0b1100 then
    (r.readBitsWithStuffing 4).map fun (_, r) => (3, r)
  else if r.peakBitsWithStuffing 2 = some 0b10 then
    (r.readBitsWithStuffing 2).map fun (_, r) => (2, r)
  else if r.peakBitsWithStuffing 1 = some 0 then
    (r.readBitsWithStuffing 1).map fun (_, r) => (1, r)
  else none

/-- The loop of `read_lblock_increment`. -/
def readIncrementLoop : ℕ → ℕ → BitReader → Option (ℕ × BitReader)
  | 0, _, _ => none
  | turns + 1, increment, r => do
      let (bit, r) ← r.readBitsWithStuffing 1
      if bit = 1 then readIncrementLoop turns (increment + 1) r else some (increment, r)

/-- `read_lblock_increment`; no more bits than the data has are read. -/
def readLblockIncrement (r : BitReader) : Option (ℕ × BitReader) :=
  readIncrementLoop (8 * r.data.length + 1) 0 r

def orError {α : Type} (x : Option α) (what : String) : Except String α :=
  match x with
  | some a => .ok a
  | none => .error what

/-- `read_segment_length`. -/
def readSegmentLength (r : BitReader) (lBlock codingPasses : ℕ) :
    Except String (ℕ × BitReader) :=
  let bits := lBlock + codingPasses.log2
  if bits ≥ 2 ^ 32 then .error "code-block segment-length field width overflows"
  else if bits > 255 then .error "code-block segment-length field is too wide"
  else orError (r.readBitsWithStuffing bits) "code-block segment length is truncated"

/-- `parse_segment_lengths` up to the first cleanup segment. -/
def parseFirstSegments (r : BitReader) (rawNumPasses totalAfter : ℕ) (cb : CodeBlock) :
    Except String (CodeBlock × List Segment × BitReader) := do
  let refinementPasses := (totalAfter - 1) % 3
  let possibleCleanupPasses := rawNumPasses - refinementPasses
  let firstContributionPasses :=
    if possibleCleanupPasses = 0 then rawNumPasses else possibleCleanupPasses
  let (cleanupLength, r) ← readSegmentLength r cb.lBlock firstContributionPasses
  let cb := { cb with coding := some .highThroughput }
  if cleanupLength = 0 then do
    let extraBits := if firstContributionPasses < rawNumPasses then
      rawNumPasses.log2 - firstContributionPasses.log2 else 0
    let (cleanupLength, r) ← orError (r.readBitsWithStuffing extraBits)
      "HT placeholder length is truncated"
    if cleanupLength ≠ 0 then .error "HT placeholder contribution has a non-zero length"
    else .ok ({ cb with htTotalCodingPasses := totalAfter }, [], r)
  else if ¬(2 ≤ cleanupLength ∧ cleanupLength < 65535) then
    .error "HT cleanup segment length is invalid"
  else if cb.htTotalCodingPasses + possibleCleanupPasses > 255 ∨
      cb.htTotalCodingPasses + possibleCleanupPasses = 0 then
    .error "HT first cleanup pass index overflows"
  else do
    let cleanupPass := cb.htTotalCodingPasses + possibleCleanupPasses - 1
    if cleanupPass % 3 ≠ 0 then .error "HT first cleanup pass is not aligned to an HT set"
    else if cb.missingBitPlanes + cleanupPass / 3 > 255 then
      .error "HT placeholder bit-plane count overflows"
    else do
      let cb := { cb with
        missingBitPlanes := cb.missingBitPlanes + cleanupPass / 3
        htFirstCleanupPass := some cleanupPass
        htSelectedSet := some 0
        numberOfCodingPasses := 1
        htTotalCodingPasses := totalAfter }
      let cleanup : Segment := ⟨0, possibleCleanupPasses, cleanupLength⟩
      if refinementPasses ≠ 0 then do
        let (refinementLength, r) ← readSegmentLength r cb.lBlock refinementPasses
        if refinementLength ≥ 2047 then .error "HT refinement segment length is invalid"
        else .ok ({ cb with numberOfCodingPasses := 1 + refinementPasses },
          [cleanup, ⟨1, refinementPasses, refinementLength⟩], r)
      else .ok (cb, [cleanup], r)

/-- What one turn of the loop makes of a length: the code block, and the segment that is
pushed. -/
def placeSegment (cb : CodeBlock) (setIndex passInSet contributionPasses length : ℕ) :
    Except String (CodeBlock × List Segment) :=
  if setIndex * 2 + 1 > 255 then .error "HT segment index overflows"
  else if passInSet = 0 then
    if length = 1 ∨ length ≥ 65535 then .error "HT cleanup segment length is invalid"
    else if length = 0 then .ok (cb, [])
    else match cb.htSelectedSet with
      | none => .error "HT selected-set state is inconsistent"
      | some previousSet =>
          if setIndex < previousSet then .error "HT selected-set order is invalid"
          else if cb.missingBitPlanes + (setIndex - previousSet) > 255 then
            .error "HT selected bit-plane count overflows"
          else .ok ({ cb with
            missingBitPlanes := cb.missingBitPlanes + (setIndex - previousSet)
            htSelectedSet := some setIndex
            numberOfCodingPasses := 1 }, [⟨setIndex * 2, contributionPasses, length⟩])
  else if length ≥ 2047 then .error "HT refinement segment length is invalid"
  else if cb.htSelectedSet = some setIndex then
    .ok ({ cb with numberOfCodingPasses := passInSet + contributionPasses },
      [⟨setIndex * 2 + 1, contributionPasses, length⟩])
  else if length ≠ 0 then .error "empty HT set has a non-zero refinement length"
  else .ok (cb, [])

/-- The loop of `parse_segment_lengths` behind the first cleanup segment. -/
def parseLaterSegments (firstCleanupPass : ℕ) : ℕ → ℕ → ℕ → CodeBlock → BitReader →
    Except String (CodeBlock × List Segment × BitReader)
  | 0, _, _, cb, r => .ok (cb, [], r)
  | turns + 1, nextPass, remaining, cb, r =>
      if remaining = 0 then .ok (cb, [], r)
      else if nextPass < firstCleanupPass then .error "HT pass precedes the first cleanup pass"
      else do
        let relativePass := nextPass - firstCleanupPass
        let passInSet := relativePass % 3
        let setIndex := relativePass / 3
        let availableInSegment := if passInSet = 1 then 2 else 1
        let contributionPasses := min remaining availableInSegment
        let (length, r) ← readSegmentLength r cb.lBlock contributionPasses
        let (cb, pushed) ← placeSegment cb setIndex passInSet contributionPasses length
        let (cb, segments, r) ← parseLaterSegments firstCleanupPass turns
          (nextPass + contributionPasses) (remaining - contributionPasses) cb r
        .ok (cb, pushed ++ segments, r)

/-- `parse_segment_lengths` behind the L-block. -/
def parseSegments (r : BitReader) (rawNumPasses totalAfter : ℕ) (cb : CodeBlock) :
    Except String (CodeBlock × List Segment × BitReader) :=
  match cb.htFirstCleanupPass with
  | none => parseFirstSegments r rawNumPasses totalAfter cb
  | some firstCleanupPass => do
      let (cb, segments, r) ← parseLaterSegments firstCleanupPass rawNumPasses
        cb.htTotalCodingPasses rawNumPasses cb r
      .ok ({ cb with htTotalCodingPasses := totalAfter }, segments, r)

/-- `parse_segment_lengths`, the segments it pushes beside the code block. -/
def parseSegmentLengths (r : BitReader) (rawNumPasses : ℕ) (cb : CodeBlock) :
    Except String (CodeBlock × List Segment × BitReader) :=
  let totalAfter := cb.htTotalCodingPasses + rawNumPasses
  if totalAfter > 255 then .error "HT cumulative coding-pass count overflows"
  else if totalAfter > maxCodingPasses then
    .error "HT cumulative coding-pass count exceeds the supported maximum"
  else do
    let (increment, r) ← orError (readLblockIncrement r) "HT Lblock increment is truncated"
    if cb.lBlock + increment ≥ 2 ^ 32 then .error "HT Lblock increment overflows"
    else parseSegments r rawNumPasses totalAfter { cb with lBlock := cb.lBlock + increment }

/-- No contribution has been parsed. -/
def CodeBlock.isFresh (cb : CodeBlock) : Bool :=
  cb.numberOfCodingPasses = 0 ∧ cb.htTotalCodingPasses = 0 ∧ cb.htFirstCleanupPass = none ∧
    cb.htSelectedSet = none ∧ cb.coding = none ∧ cb.nonEmptyLayerCount = 0

/-- What `resolve_segments` reads of an included code block behind its inclusion. -/
def parseContribution (includedFirstTime : Bool) (r : BitReader) (cb : CodeBlock) :
    Except String (CodeBlock × List Segment × BitReader) := do
  let (rawNumPasses, r) ← orError (decodeNumCodingPasses r)
    "HT coding-pass count is truncated or invalid"
  if rawNumPasses > maxCodingPasses then
    .error "HT coding-pass count exceeds the supported maximum"
  else if includedFirstTime ∧ ¬cb.isFresh then .error "first HT inclusion has stale coding-pass state"
  else do
    let (cb, segments, r) ← parseSegmentLengths r rawNumPasses cb
    if cb.nonEmptyLayerCount + 1 > 255 then .error "HT non-empty layer count overflows"
    else .ok ({ cb with nonEmptyLayerCount := cb.nonEmptyLayerCount + 1 }, segments, r)

end J2kNative.HtContributions
