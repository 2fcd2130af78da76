import J2kNative.PacketHeaderWriter
import J2kNative.HtContributions
import J2kNative.TagTreeEncoder

/-!
# Forming a packet header

The header is planned from the packet and its state, formed as a list of fields (a value and
its width) and written by the checked writer, whose buffer has the planned size. The plan
always suffices, so that it does not matter that all fields are formed before the first
is written.
-/
namespace J2kNative.PacketHeaders
open BitStuffing CodestreamWriter Fallible TagTrees PacketHeaderWriter
open HtContributions (growLBlock fieldWidth)

inductive BlockCodingMode where
  | classic
  | highThroughput
  deriving DecidableEq, Repr

/-- What the header reads of the contribution of a code block. -/
structure CodeBlockPacketData where
  dataLen : ℕ
  htCleanupLength : ℕ
  htRefinementLength : ℕ
  numCodingPasses : ℕ
  classicSegmentLengths : List ℕ
  numZeroBitplanes : ℕ
  blockCodingMode : BlockCodingMode
  deriving DecidableEq, Repr

structure SubbandPrecinct where
  codeBlocks : List CodeBlockPacketData
  numCbsX : ℕ
  numCbsY : ℕ
  deriving DecidableEq, Repr

structure PacketCodeBlockState where
  previouslyIncluded : Bool
  lBlock : ℕ
  deriving DecidableEq, Repr

structure PacketSubbandState where
  inclusionTree : TagTreeEncoder
  zeroBitplaneTree : TagTreeEncoder
  codeBlocks : List PacketCodeBlockState
  numCbsX : ℕ
  numCbsY : ℕ

/-! ## Lengths -/

def bitsForLength (lBlock numCodingPasses : ℕ) : ℕ :=
  lBlock + if numCodingPasses ≤ 1 then 0 else numCodingPasses.log2

def encodeNumCodingPasses (numPasses : ℕ) : Except EncodeError (List HeaderField) :=
  if numPasses = 1 then .ok [(0,1)]
  else if numPasses = 2 then .ok [(0b10,2)]
  else if numPasses = 3 then .ok [(0b1100,4)]
  else if numPasses = 4 then .ok [(0b1101,4)]
  else if numPasses = 5 then .ok [(0b1110,4)]
  else if 6 ≤ numPasses ∧ numPasses ≤ 36 then .ok [(0b1111,4),(numPasses - 6,5)]
  else if 37 ≤ numPasses ∧ numPasses ≤ 164 then .ok [(0b111111111,9),(numPasses - 37,7)]
  else .error (.invalidInput "JPEG 2000 packet contribution must contain 1..=164 coding passes")

def encodeLength (length lBlock numBits : ℕ) : Except EncodeError (List HeaderField × ℕ) := do
  let (fields,lBlock,numBits) ← growLBlock (fun _ numBits => valueFitsInBits length numBits)
    lBlock numBits
  let width ← fieldWidth numBits "packet length bit count exceeds u8"
  .ok (fields ++ [(length,width)],lBlock)

/-- The part of `encode_classic_segment_lengths_with_lblock` for segments. -/
def encodeSegmentLengths (lengths : List ℕ) (lBlock : ℕ) : Except EncodeError (List HeaderField × ℕ) := do
  let (fields,lBlock,_) ← growLBlock
    (fun lBlock _ => lengths.all fun length => valueFitsInBits length (bitsForLength lBlock 1))
    lBlock (bitsForLength lBlock 1)
  let width ← fieldWidth (bitsForLength lBlock 1) "classic segment length bit count exceeds u8"
  .ok (fields ++ lengths.map fun length => (length,width),lBlock)

def encodeClassicSegmentLengthsWithLblock (b : CodeBlockPacketData) (lBlock : ℕ) :
    Except EncodeError (List HeaderField × ℕ) :=
  if lBlock > 255 then .error (.invalidInput "classic packet L-block exceeds u8")
  else if b.classicSegmentLengths = [] then
    encodeLength b.dataLen lBlock (bitsForLength lBlock b.numCodingPasses)
  else if b.classicSegmentLengths.length ≠ b.numCodingPasses then
    .error (.invalidInput "classic pass-terminated contribution segment count mismatch")
  else if b.classicSegmentLengths.sum ≥ 2 ^ 32 then
    .error (.arithmeticOverflow "classic packet contribution segment length sum")
  else if b.classicSegmentLengths.sum ≠ b.dataLen then
    .error (.invalidInput "classic packet contribution segment length mismatch")
  else encodeSegmentLengths b.classicSegmentLengths lBlock

/-- What the segment lengths of an HT contribution are told from. -/
def CodeBlockPacketData.ht (b : CodeBlockPacketData) : HtContributions.Contribution :=
  ⟨b.numCodingPasses,b.dataLen,b.htCleanupLength,b.htRefinementLength⟩

/-- The passes and the lengths of a block that contributes. -/
def contributionFields (b : CodeBlockPacketData) (lBlock : ℕ) :
    Except EncodeError (List HeaderField × ℕ) :=
  if b.dataLen ≥ 2 ^ 32 then .error (.invalidInput "code-block payload length exceeds u32")
  else match b.blockCodingMode with
    | .classic => do
        let passes ← encodeNumCodingPasses b.numCodingPasses
        let (lengths,lBlock) ← encodeClassicSegmentLengthsWithLblock b lBlock
        .ok (passes ++ lengths,lBlock)
    | .highThroughput => HtContributions.contributionFields b.ht lBlock

/-! ## Plan -/

def maxLengthFieldBits : ℕ := 256

def maxLengthPrefixBits : ℕ := 33

def maxPassCountBits : ℕ := 16

def checkedAddBytes (left right : ℕ) (what : String) : Except EncodeError ℕ :=
  if left + right ≥ 2 ^ 64 then .error (.arithmeticOverflow what) else .ok (left + right)

def checkedMulBytes (left right : ℕ) (what : String) : Except EncodeError ℕ :=
  if left * right ≥ 2 ^ 64 then .error (.arithmeticOverflow what) else .ok (left * right)

/-- The loop of `tag_tree_levels`; edges of 32 bits are halved 32 times at most. -/
def levelsLoop : ℕ → ℕ → ℕ → ℕ
  | 0, _, _ => 1
  | turns + 1, width, height =>
      if width ≤ 1 ∧ height ≤ 1 then 1
      else levelsLoop turns (divCeil2 width) (divCeil2 height) + 1

def tagTreeLevels (width height : ℕ) : ℕ := levelsLoop 32 width height

def CodeBlockPacketData.segmentCount (b : CodeBlockPacketData) : ℕ :=
  match b.blockCodingMode with
  | .classic => max b.classicSegmentLengths.length 1
  | .highThroughput => 2

/-- Bits of the inclusion of a block. -/
def planInclusion (levels layer bits : ℕ) (b : CodeBlockPacketData) (s : PacketCodeBlockState) :
    Except EncodeError ℕ :=
  if s.previouslyIncluded then checkedAddBytes bits 1 "packet header bit bound"
  else do
    let inclusionBits ← checkedMulBytes levels (layer + 2) "packet inclusion tag-tree bit bound"
    let bits ← checkedAddBytes bits inclusionBits "packet header bit bound"
    if b.numCodingPasses > 0 then do
      let zeroBitplaneBits ← checkedMulBytes levels (b.numZeroBitplanes + 2)
        "packet zero-bitplane tag-tree bit bound"
      checkedAddBytes bits zeroBitplaneBits "packet header bit bound"
    else .ok bits

/-- Bits of the passes and the lengths of a block. -/
def planContribution (bits : ℕ) (b : CodeBlockPacketData) : Except EncodeError ℕ :=
  if b.numCodingPasses = 0 then .ok bits
  else if b.dataLen ≥ 2 ^ 32 then .error (.invalidInput "code-block payload length exceeds u32")
  else do
    let bits ← checkedAddBytes bits maxPassCountBits "packet header bit bound"
    let fieldBits ← checkedMulBytes b.segmentCount maxLengthFieldBits
      "packet segment-length bit bound"
    let lengthBits ← checkedAddBytes maxLengthPrefixBits fieldBits "packet segment-length bit bound"
    checkedAddBytes bits lengthBits "packet header bit bound"

def planBlock (levels layer bits : ℕ) (b : CodeBlockPacketData × PacketCodeBlockState) :
    Except EncodeError ℕ :=
  if b.1.numCodingPasses > 164 then
    .error (.invalidInput "JPEG 2000 packet contribution exceeds 164 coding passes")
  else do
    let bits ← planInclusion levels layer bits b.1 b.2
    planContribution bits b.1

def planSubband (layer bits : ℕ) (subband : SubbandPrecinct × PacketSubbandState) :
    Except EncodeError ℕ :=
  (subband.1.codeBlocks.zip subband.2.codeBlocks).foldlM
    (planBlock (tagTreeLevels subband.1.numCbsX subband.1.numCbsY) layer) bits

def plannedHeaderBytes (packet : List SubbandPrecinct) (state : List PacketSubbandState)
    (layer : ℕ) (writeEph : Bool) : Except EncodeError ℕ := do
  let bits ← (packet.zip state).foldlM (planSubband layer) 1
  checkedAddBytes ((bits + 6) / 7) (1 + writeEph.toNat * 2) "packet header byte bound"

/-! ## Fields -/

def validateStateLayout (packet : List SubbandPrecinct) (state : List PacketSubbandState) :
    Except EncodeError Unit :=
  if state.length ≠ packet.length ∨ (packet.zip state).any fun subband =>
      subband.1.numCbsX ≠ subband.2.numCbsX ∨ subband.1.numCbsY ≠ subband.2.numCbsY ∨
        subband.1.codeBlocks.length ≠ subband.2.codeBlocks.length then
    .error (.invalidInput "packet descriptor state layout mismatch")
  else .ok ()

/-- The fields of one block, and its trees and state behind them. -/
def formBlock (layer x y : ℕ) (b : CodeBlockPacketData) (inclusionTree zeroBitplaneTree : TagTreeEncoder)
    (s : PacketCodeBlockState) :
    Except EncodeError (List HeaderField × TagTreeEncoder × TagTreeEncoder × PacketCodeBlockState) :=
  if s.previouslyIncluded then
    if b.numCodingPasses > 0 then do
      let (fields,lBlock) ← contributionFields b s.lBlock
      .ok ((1,1) :: fields,inclusionTree,zeroBitplaneTree,⟨true,lBlock⟩)
    else .ok ([(0,1)],inclusionTree,zeroBitplaneTree,s)
  else do
    let (inclusionBits,inclusionTree) ← inclusionTree.encode x y (layer + 1)
    if b.numCodingPasses = 0 then .ok (bitFields inclusionBits,inclusionTree,zeroBitplaneTree,s)
    else do
      let (zeroBits,zeroBitplaneTree) ← zeroBitplaneTree.encode x y (b.numZeroBitplanes + 1)
      let (fields,lBlock) ← contributionFields b s.lBlock
      .ok (bitFields inclusionBits ++ bitFields zeroBits ++ fields,inclusionTree,zeroBitplaneTree,
        ⟨true,lBlock⟩)

/-- The blocks of a subband from an index on, with the length of the body. -/
def formBlocks (layer numCbsX : ℕ) : ℕ → List (CodeBlockPacketData × PacketCodeBlockState) →
    TagTreeEncoder → TagTreeEncoder → ℕ →
    Except EncodeError (List HeaderField × TagTreeEncoder × TagTreeEncoder × List PacketCodeBlockState × ℕ)
  | _, [], inclusionTree, zeroBitplaneTree, bodyLen =>
      .ok ([],inclusionTree,zeroBitplaneTree,[],bodyLen)
  | index, (b,s) :: blocks, inclusionTree, zeroBitplaneTree, bodyLen =>
      if index ≥ 2 ^ 32 then .error (.invalidInput "packet state code-block index exceeds u32")
      else do
        let (fields,inclusionTree,zeroBitplaneTree,s) ←
          formBlock layer (index % numCbsX) (index / numCbsX) b inclusionTree zeroBitplaneTree s
        let bodyLen ← checkedAddBytes bodyLen (if b.numCodingPasses > 0 then b.dataLen else 0)
          "packet body length"
        let (rest,inclusionTree,zeroBitplaneTree,states,bodyLen) ←
          formBlocks layer numCbsX (index + 1) blocks inclusionTree zeroBitplaneTree bodyLen
        .ok (fields ++ rest,inclusionTree,zeroBitplaneTree,s :: states,bodyLen)

def formSubbands (layer : ℕ) : List (SubbandPrecinct × PacketSubbandState) → ℕ →
    Except EncodeError (List HeaderField × List PacketSubbandState × ℕ)
  | [], bodyLen => .ok ([],[],bodyLen)
  | (packet,state) :: subbands, bodyLen => do
      let (fields,inclusionTree,zeroBitplaneTree,codeBlocks,bodyLen) ←
        formBlocks layer state.numCbsX 0 (packet.codeBlocks.zip state.codeBlocks)
          state.inclusionTree state.zeroBitplaneTree bodyLen
      let (rest,states,bodyLen) ← formSubbands layer subbands bodyLen
      .ok (fields ++ rest,{ state with inclusionTree, zeroBitplaneTree, codeBlocks } :: states,bodyLen)

def anyData (packet : List SubbandPrecinct) : Bool :=
  packet.any fun subband => subband.codeBlocks.any fun b => b.numCodingPasses > 0

structure HeaderFields where
  plannedBytes : ℕ
  fields : List HeaderField
  state : List PacketSubbandState
  bodyLen : ℕ

/-- Everything that `form_packet_header` checks and decides before a bit is written of it. -/
def formHeaderFields (packet : List SubbandPrecinct) (state : List PacketSubbandState) (layer : ℕ)
    (writeEph : Bool) : Except EncodeError HeaderFields := do
  validateStateLayout packet state
  let plannedBytes ← plannedHeaderBytes packet state layer writeEph
  if anyData packet then do
    let (fields,state,bodyLen) ← formSubbands layer (packet.zip state) 0
    .ok ⟨plannedBytes,(1,1) :: fields,state,bodyLen⟩
  else .ok ⟨plannedBytes,[(0,1)],state,0⟩

/-- `try_push` of a vector with a budget. -/
def budgetedPush (capacity : ℕ) (bytes : List ℕ) (byte : ℕ) : Except EncodeError (List ℕ) :=
  if bytes.length = capacity then .error (.internalInvariant "packet header capacity exhausted")
  else .ok (bytes ++ [byte])

/-- The bytes behind the fields. -/
def finishHeader (capacity : ℕ) (writeEph : Bool) (bytes : List ℕ) : Except EncodeError (List ℕ) := do
  let bytes ← if bytes.getLast? = some 0xFF then budgetedPush capacity bytes 0 else .ok bytes
  if writeEph then do
    let bytes ← budgetedPush capacity bytes 0xFF
    budgetedPush capacity bytes 0x92
  else .ok bytes

/-- The writer's part of `form_packet_header`, with the capacity that the allocation gives. -/
def writeHeader (capacity : ℕ) (writeEph : Bool) (header : HeaderFields) :
    Except EncodeError (List ℕ) := do
  let w ← writeFields (.tryWithCapacity header.plannedBytes capacity) header.fields
  let bytes ← w.tryFinish
  finishHeader capacity writeEph bytes

end J2kNative.PacketHeaders
