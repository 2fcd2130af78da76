import J2kNative.PacketHeaderForm

/-!
# Bounds of packet headers

No header outgrows its plan. What can go wrong is the width of a length: the L-block that
comes with the packet may make it wider than the number it is cut from.
-/
namespace J2kNative.PacketHeaders
open BitStuffing CodestreamWriter CountedLoops Fallible TagTrees PacketHeaderWriter
open HtContributions (growLBlock growLBlock_spec fieldWidth fieldWidth_ok htSegmentLengths
  bitsForHtCleanupLength bitsForHtRefinementOnlyLength refinementExtraBits refinementField
  encodeRefinementOnly encodeCleanupAndRefinement)

/-! ## Fields -/

/-- No field is wider than the number it is cut from, so that all shift amounts are below 32. -/
def Narrow (fields : List HeaderField) : Prop := ∀ field ∈ fields, field.2 ≤ 32

def bitCount (fields : List HeaderField) : ℕ := (fields.map Prod.snd).sum

theorem length_bitsOfFields (fields : List HeaderField) :
    (bitsOfFields fields).length = bitCount fields := by
  induction fields with
  | nil => rfl
  | cons field fields ih =>
      rw [bitsOfFields,List.flatMap_cons,List.length_append,length_fieldBits]
      exact congrArg (field.2 + ·) ih

@[simp] theorem bitCount_append (xs ys : List HeaderField) :
    bitCount (xs ++ ys) = bitCount xs + bitCount ys := by
  unfold bitCount
  rw [List.map_append,List.sum_append]

@[simp] theorem bitCount_cons (field : HeaderField) (fields : List HeaderField) :
    bitCount (field :: fields) = field.2 + bitCount fields := by
  unfold bitCount
  rw [List.map_cons,List.sum_cons]

@[simp] theorem bitCount_nil : bitCount [] = 0 := rfl

@[simp] theorem narrow_append {xs ys : List HeaderField} : Narrow (xs ++ ys) ↔ Narrow xs ∧ Narrow ys :=
  List.forall_mem_append

@[simp] theorem narrow_cons {field : HeaderField} {fields : List HeaderField} :
    Narrow (field :: fields) ↔ field.2 ≤ 32 ∧ Narrow fields := List.forall_mem_cons

@[simp] theorem narrow_nil : Narrow [] := nofun

@[simp] theorem bitCount_bitFields (bits : List Bool) : bitCount (bitFields bits) = bits.length := by
  induction bits with
  | nil => rfl
  | cons bit bits ih =>
      rw [bitFields,List.map_cons,bitCount_cons,List.length_cons,Nat.add_comm 1]
      exact congrArg (· + 1) ih

@[simp] theorem narrow_bitFields (bits : List Bool) : Narrow (bitFields bits) := by
  intro field hfield
  obtain ⟨bit,-,rfl⟩ := List.mem_map.mp hfield
  show 1 ≤ 32
  omega

/-- Every byte takes seven bits at least. -/
theorem writeBits_length (w : BitStuffing.BitWriter) (hw : w.bits.Unfilled) (bits : List Bool) :
    7 * (w.writeBits bits).data.length + (w.writeBits bits).bits.bitsInBuffer ≤
      7 * w.data.length + w.bits.bitsInBuffer + bits.length := by
  induction bits generalizing w with
  | nil => exact le_rfl
  | cons bit bits ih =>
      have hrest := ih (w.writeBit bit) (BitAccumulator.writeBit_unfilled hw bit)
      have hlimit := w.bits.limit_bounds
      have hstep : 7 * (w.writeBit bit).data.length + (w.writeBit bit).bits.bitsInBuffer ≤
          7 * w.data.length + w.bits.bitsInBuffer + 1 := by
        by_cases hfull : w.bits.bitsInBuffer + 1 = w.bits.limit
        · rw [BitStuffing.BitWriter.writeBit_full hw hfull]
          simp only [List.length_append,List.length_singleton]
          omega
        · rw [BitStuffing.BitWriter.writeBit_open hw hfull]
          dsimp only
          omega
      rw [List.length_cons]
      exact hrest.trans (by omega)

theorem length_written (bits : List Bool) : (written bits).length ≤ bits.length / 7 + 1 := by
  have h := writeBits_length .empty BitStuffing.BitWriter.empty_unfilled bits
  have hempty : 7 * BitStuffing.BitWriter.empty.data.length +
      BitStuffing.BitWriter.empty.bits.bitsInBuffer = 0 := rfl
  have hflush : (BitStuffing.BitWriter.empty.writeBits bits).bits.flush.toList.length ≤ 1 := by
    cases (BitStuffing.BitWriter.empty.writeBits bits).bits.flush <;> simp
  unfold written BitStuffing.BitWriter.finish
  rw [List.length_append]
  omega

/-! ## Lengths -/

theorem growLBlock_ok {fits : ℕ → ℕ → Bool} {lBlock lengthBits raised raisedBits : ℕ}
    {fields : List HeaderField} (h : growLBlock fits lBlock lengthBits = .ok (fields,raised,raisedBits)) :
    ∃ k, raised = lBlock + k ∧ raisedBits = lengthBits + k ∧ bitCount fields ≤ maxLengthPrefixBits ∧
      Narrow fields ∧ ∀ j < k, fits (lBlock + j) (lengthBits + j) = false := by
  obtain ⟨k,hk,rfl,hraised,hbits,-,hbefore⟩ := growLBlock_spec h
  refine ⟨k,hraised,hbits,?_,narrow_bitFields _,hbefore⟩
  rw [bitCount_bitFields]
  simp only [List.length_append,List.length_replicate,List.length_singleton,maxLengthPrefixBits]
  omega

theorem not_fits {value bits : ℕ} (h : valueFitsInBits value bits = false) :
    bits < 32 ∧ 2 ^ bits ≤ value := by
  unfold valueFitsInBits at h
  have := of_decide_eq_false h
  rw [Nat.one_shiftLeft] at this
  omega

/-- The bits of a contribution are within its part of the plan, and its fields are narrow under
this condition. -/
structure Bounded (fields : List HeaderField) (count : ℕ) (fit : Prop) : Prop where
  count : bitCount fields ≤ count
  narrow : Narrow fields ↔ fit

section
variable {lBlock lBlock' : ℕ} {fields : List HeaderField}

/-- A length behind the ones that make room for it. -/
theorem grown_bounded {length numBits raised raisedBits width : ℕ} {what : String}
    (hgrow : growLBlock (fun _ numBits => valueFitsInBits length numBits) lBlock numBits =
      .ok (fields,raised,raisedBits))
    (hwidth : fieldWidth raisedBits what = .ok width) :
    Bounded (fields ++ [(length,width)]) (maxLengthPrefixBits + maxLengthFieldBits)
      (numBits ≤ 32) := by
  obtain ⟨k,rfl,rfl,hcount,hnarrow,hbefore⟩ := growLBlock_ok hgrow
  obtain ⟨rfl,h255⟩ := fieldWidth_ok hwidth
  have hlast : k = 0 ∨ numBits + k ≤ 32 := by
    cases k with
    | zero => exact .inl rfl
    | succ k =>
        have := (not_fits (hbefore k (Nat.lt_succ_self k))).1
        exact .inr (by omega)
  refine ⟨?_,?_⟩
  · rw [bitCount_append,bitCount_cons,bitCount_nil]
    unfold maxLengthFieldBits
    dsimp only
    omega
  · rw [narrow_append,narrow_cons]
    dsimp only
    constructor
    · rintro ⟨-,hle,-⟩
      omega
    · exact fun hle => ⟨hnarrow,by omega,narrow_nil⟩

theorem encodeLength_bounded {length numBits : ℕ}
    (h : encodeLength length lBlock numBits = .ok (fields,lBlock')) :
    Bounded fields (maxLengthPrefixBits + maxLengthFieldBits) (numBits ≤ 32) := by
  obtain ⟨⟨ones,raised,raisedBits⟩,hgrow,h⟩ := bind_eq_ok.mp h
  obtain ⟨width,hwidth,h⟩ := bind_eq_ok.mp h
  cases h
  exact grown_bounded hgrow hwidth

theorem encodeRefinementOnly_bounded {refinementLength passes : ℕ}
    (h : encodeRefinementOnly refinementLength passes lBlock = .ok (fields,lBlock')) :
    Bounded fields (maxLengthPrefixBits + maxLengthFieldBits)
      (bitsForHtRefinementOnlyLength lBlock passes ≤ 32) := by
  obtain ⟨⟨ones,raised,raisedBits⟩,hgrow,h⟩ := bind_eq_ok.mp h
  obtain ⟨width,hwidth,h⟩ := bind_eq_ok.mp h
  cases h
  exact grown_bounded hgrow hwidth

theorem bitsForLength_one (lBlock : ℕ) : bitsForLength lBlock 1 = lBlock := rfl

theorem bitCount_lengths (lengths : List ℕ) (width : ℕ) :
    bitCount (lengths.map fun length => (length,width)) = lengths.length * width := by
  induction lengths with
  | nil => simp
  | cons length lengths ih =>
      rw [List.map_cons,bitCount_cons,ih,List.length_cons,Nat.succ_mul,Nat.add_comm]

theorem encodeSegmentLengths_bounded {lengths : List ℕ} (hne : lengths ≠ [])
    (h : encodeSegmentLengths lengths lBlock = .ok (fields,lBlock')) :
    Bounded fields (maxLengthPrefixBits + lengths.length * maxLengthFieldBits)
      (bitsForLength lBlock 1 ≤ 32) := by
  obtain ⟨⟨ones,raised,raisedBits⟩,hgrow,h⟩ := bind_eq_ok.mp h
  obtain ⟨width,hwidth,h⟩ := bind_eq_ok.mp h
  cases h
  obtain ⟨k,rfl,rfl,hcount,hnarrow,hbefore⟩ := growLBlock_ok hgrow
  obtain ⟨rfl,h255⟩ := fieldWidth_ok hwidth
  simp only [bitsForLength_one] at h255 hbefore ⊢
  have hlast : k = 0 ∨ lBlock + k ≤ 32 := by
    cases k with
    | zero => exact .inl rfl
    | succ k =>
        obtain ⟨length,-,hlength⟩ := List.all_eq_false.mp (hbefore k (Nat.lt_succ_self k))
        have := (not_fits (Bool.eq_false_iff.mpr hlength)).1
        exact .inr (by omega)
  refine ⟨?_,?_⟩
  · rw [bitCount_append,bitCount_lengths]
    exact Nat.add_le_add hcount (Nat.mul_le_mul_left _ (by unfold maxLengthFieldBits; omega))
  · rw [narrow_append]
    constructor
    · rintro ⟨-,hle⟩
      obtain ⟨length,hlength⟩ := List.exists_mem_of_ne_nil lengths hne
      have hle' : lBlock + k ≤ 32 := hle _ (List.mem_map_of_mem hlength)
      omega
    · refine fun hle => ⟨hnarrow,fun field hfield => ?_⟩
      obtain ⟨length,-,rfl⟩ := List.mem_map.mp hfield
      dsimp only
      omega

theorem encodeClassicSegmentLengths_bounded {b : CodeBlockPacketData}
    (h : encodeClassicSegmentLengthsWithLblock b lBlock = .ok (fields,lBlock')) :
    Bounded fields (maxLengthPrefixBits + max b.classicSegmentLengths.length 1 * maxLengthFieldBits)
      (bitsForLength lBlock (if b.classicSegmentLengths = [] then b.numCodingPasses else 1) ≤ 32) := by
  unfold encodeClassicSegmentLengthsWithLblock at h
  split_ifs at h with h255 hnil hcount hsum hlen
  · rw [if_pos hnil,hnil]
    exact encodeLength_bounded h
  · rw [if_neg hnil,Nat.max_eq_left (List.length_pos_iff.mpr hnil)]
    exact encodeSegmentLengths_bounded hnil h

/-- What the accepted segment lengths are below. -/
theorem htSegmentLengths_bounds {c : HtContributions.Contribution} {cleanup refinement : ℕ}
    (h : htSegmentLengths c = .ok (cleanup,refinement)) :
    (c.numCodingPasses > 1 → cleanup < 65535 ∧ refinement < 2047) ∧
      (cleanup = 0 ∧ refinement ≠ 0 ↔ c.htCleanupLength = 0 ∧ c.htRefinementLength ≠ 0) := by
  unfold htSegmentLengths at h
  dsimp only at h
  split_ifs at h
  all_goals
    obtain ⟨rfl,rfl⟩ := Prod.mk.inj (Except.ok.inj h)
    omega

/-- The placeholder passes add seven bits at most. -/
theorem bitsForHtCleanupLength_bounds {passes : ℕ} (h : passes ≤ 164) (lBlock : ℕ) :
    lBlock ≤ bitsForHtCleanupLength lBlock passes ∧
      bitsForHtCleanupLength lBlock passes ≤ lBlock + 7 := by
  unfold bitsForHtCleanupLength
  have : ((passes - 1) / 3 * 3 + 1).log2 < 8 := (Nat.log2_lt (by omega)).mpr (by omega)
  dsimp only
  omega

theorem refinementExtraBits_le (passes : ℕ) : refinementExtraBits passes ≤ 1 := by
  unfold refinementExtraBits
  split_ifs <;> omega

theorem lt_of_two_pow_le {bits value limit : ℕ} (h : 2 ^ bits ≤ value) (hv : value < 2 ^ limit) :
    bits < limit := (Nat.pow_lt_pow_iff_right (by decide)).mp (h.trans_lt hv)

theorem refinementField_ok {refinementLength passes lBlock : ℕ} {fields : List HeaderField}
    (h : refinementField refinementLength passes lBlock = .ok fields) :
    bitCount fields ≤ 255 ∧
      (Narrow fields ↔ (passes > 1 → lBlock + refinementExtraBits passes ≤ 32)) := by
  unfold refinementField at h
  split_ifs at h with hpasses
  · obtain ⟨width,hwidth,h⟩ := bind_eq_ok.mp h
    cases h
    obtain ⟨rfl,h255⟩ := fieldWidth_ok hwidth
    refine ⟨by rw [bitCount_cons,bitCount_nil]; exact h255,?_⟩
    rw [narrow_cons]
    exact ⟨fun h _ => h.1,fun h => ⟨h hpasses,narrow_nil⟩⟩
  · cases h
    exact ⟨Nat.zero_le _,fun _ h => absurd h hpasses,fun _ => narrow_nil⟩

theorem encodeCleanupAndRefinement_bounded {cleanup refinement passes : ℕ} (hpasses : passes ≤ 164)
    (hmany : passes > 1 → cleanup < 65535 ∧ refinement < 2047)
    (h : encodeCleanupAndRefinement cleanup refinement passes lBlock = .ok (fields,lBlock')) :
    Bounded fields (maxLengthPrefixBits + 2 * maxLengthFieldBits)
      (bitsForHtCleanupLength lBlock passes ≤ 32 ∧
        (passes > 1 → lBlock + refinementExtraBits passes ≤ 32)) := by
  obtain ⟨⟨ones,raised,raisedBits⟩,hgrow,h⟩ := bind_eq_ok.mp h
  obtain ⟨width,hwidth,h⟩ := bind_eq_ok.mp h
  obtain ⟨behind,hbehind,h⟩ := bind_eq_ok.mp h
  cases h
  obtain ⟨k,rfl,rfl,hcount,hnarrow,hbefore⟩ := growLBlock_ok hgrow
  obtain ⟨rfl,h255⟩ := fieldWidth_ok hwidth
  obtain ⟨hbits,hfield⟩ := refinementField_ok hbehind
  have hplace := bitsForHtCleanupLength_bounds hpasses lBlock
  have hextra := refinementExtraBits_le passes
  -- the last raise was for a number that the width before it was too small for
  have hlast : k = 0 ∨ (bitsForHtCleanupLength lBlock passes + k ≤ 32 ∧
      (passes > 1 → lBlock + k + refinementExtraBits passes ≤ 32)) := by
    cases k with
    | zero => exact .inl rfl
    | succ k =>
        have hraise := hbefore k (Nat.lt_succ_self k)
        by_cases hfits : valueFitsInBits cleanup (bitsForHtCleanupLength lBlock passes + k)
        · simp only [hfits,Bool.true_and,Bool.not_eq_false',Bool.and_eq_true,decide_eq_true_eq,
            Bool.not_eq_true'] at hraise
          have := @lt_of_two_pow_le _ _ 11 (not_fits hraise.2).2
            ((hmany hraise.1).2.trans (by decide))
          exact .inr ⟨by omega,fun _ => by omega⟩
        · obtain ⟨hlt,hpow⟩ := not_fits (Bool.eq_false_iff.mpr hfits)
          refine .inr ⟨by omega,fun hp => ?_⟩
          have := @lt_of_two_pow_le _ _ 16 hpow ((hmany hp).1.trans (by decide))
          omega
  refine ⟨?_,?_⟩
  · rw [bitCount_append,bitCount_append,bitCount_cons,bitCount_nil]
    unfold maxLengthFieldBits
    dsimp only
    omega
  · rw [narrow_append,narrow_append,narrow_cons,hfield]
    dsimp only
    constructor
    · rintro ⟨⟨-,hle,-⟩,hr⟩
      exact ⟨by omega,fun hp => by have := hr hp; omega⟩
    · rintro ⟨hle,hr⟩
      exact ⟨⟨hnarrow,by omega,narrow_nil⟩,fun hp => by have := hr hp; omega⟩

end

/-! ## Contributions -/

/-- No length of the contribution starts out wider than 32 bits. -/
def LengthFieldsFit (b : CodeBlockPacketData) (lBlock : ℕ) : Prop :=
  match b.blockCodingMode with
  | .classic =>
      bitsForLength lBlock (if b.classicSegmentLengths = [] then b.numCodingPasses else 1) ≤ 32
  | .highThroughput =>
      if b.htCleanupLength = 0 ∧ b.htRefinementLength ≠ 0 then
        bitsForHtRefinementOnlyLength lBlock b.numCodingPasses ≤ 32
      else bitsForHtCleanupLength lBlock b.numCodingPasses ≤ 32 ∧
        (b.numCodingPasses > 1 → lBlock + refinementExtraBits b.numCodingPasses ≤ 32)

instance (b : CodeBlockPacketData) (lBlock : ℕ) : Decidable (LengthFieldsFit b lBlock) := by
  unfold LengthFieldsFit
  cases b.blockCodingMode <;> dsimp only <;> infer_instance

section
variable {fields : List HeaderField} {b : CodeBlockPacketData} {lBlock lBlock' : ℕ}

theorem Bounded.mono {count count' : ℕ} {fit fit' : Prop} (h : Bounded fields count fit)
    (hcount : count ≤ count') (hfit : fit ↔ fit') : Bounded fields count' fit' :=
  ⟨h.count.trans hcount,h.narrow.trans hfit⟩

theorem encodeHtSegmentLengths_bounded (hpasses : 0 < b.numCodingPasses ∧ b.numCodingPasses ≤ 164)
    (hmode : b.blockCodingMode = .highThroughput)
    (h : HtContributions.encodeHtSegmentLengthsWithLblock b.ht lBlock = .ok (fields,lBlock')) :
    Bounded fields (maxLengthPrefixBits + 2 * maxLengthFieldBits) (LengthFieldsFit b lBlock) := by
  unfold HtContributions.encodeHtSegmentLengthsWithLblock at h
  split_ifs at h with h255
  obtain ⟨⟨cleanup,refinement⟩,hlengths,h⟩ := bind_eq_ok.mp h
  obtain ⟨hmany,honly⟩ := htSegmentLengths_bounds (mapError_eq_ok.mp hlengths)
  unfold LengthFieldsFit
  rw [hmode]
  dsimp only [CodeBlockPacketData.ht] at h honly ⊢
  by_cases hcase : cleanup = 0 ∧ refinement ≠ 0
  · rw [if_pos hcase] at h
    rw [if_pos (honly.mp hcase)]
    exact (encodeRefinementOnly_bounded h).mono (by decide) Iff.rfl
  · rw [if_neg hcase] at h
    rw [if_neg fun h => hcase (honly.mpr h)]
    exact encodeCleanupAndRefinement_bounded hpasses.2 hmany h

theorem encodeNumCodingPasses_bounded {passes : ℕ} (h : encodeNumCodingPasses passes = .ok fields) :
    bitCount fields ≤ maxPassCountBits ∧ Narrow fields ∧ 0 < passes ∧ passes ≤ 164 := by
  unfold encodeNumCodingPasses at h
  split_ifs at h <;> cases h <;> simp [maxPassCountBits] <;> omega

theorem encodeNumHtCodingPasses_bounded {passes : ℕ}
    (h : HtContributions.encodeNumHtCodingPasses passes = .ok fields) :
    bitCount fields ≤ maxPassCountBits ∧ Narrow fields ∧ 0 < passes ∧ passes ≤ 164 := by
  unfold HtContributions.encodeNumHtCodingPasses at h
  split_ifs at h <;> cases h <;> simp [maxPassCountBits] <;> omega

/-- The part of the plan for the passes and the lengths of a block. -/
def contributionBits (b : CodeBlockPacketData) : ℕ :=
  maxPassCountBits + (maxLengthPrefixBits + b.segmentCount * maxLengthFieldBits)

theorem Bounded.behind {passes : List HeaderField} {count : ℕ} {fit : Prop} (h : Bounded fields count fit)
    (hcount : bitCount passes ≤ maxPassCountBits) (hnarrow : Narrow passes) :
    Bounded (passes ++ fields) (maxPassCountBits + count) fit := by
  refine ⟨?_,?_⟩
  · rw [bitCount_append]
    exact Nat.add_le_add hcount h.count
  · rw [narrow_append,h.narrow]
    exact and_iff_right hnarrow

theorem contributionFields_bounded (h : contributionFields b lBlock = .ok (fields,lBlock')) :
    Bounded fields (contributionBits b) (LengthFieldsFit b lBlock) := by
  unfold contributionFields at h
  split_ifs at h with hdata
  unfold contributionBits CodeBlockPacketData.segmentCount
  cases hmode : b.blockCodingMode with
  | classic =>
      rw [hmode] at h
      obtain ⟨passes,hpasses,h⟩ := bind_eq_ok.mp h
      obtain ⟨⟨lengths,_⟩,hlengths,h⟩ := bind_eq_ok.mp h
      cases h
      obtain ⟨hcount,hnarrow,-⟩ := encodeNumCodingPasses_bounded hpasses
      refine ((encodeClassicSegmentLengths_bounded hlengths).behind hcount hnarrow).mono le_rfl ?_
      unfold LengthFieldsFit
      rw [hmode]
  | highThroughput =>
      rw [hmode] at h
      obtain ⟨passes,hpasses,h⟩ := bind_eq_ok.mp h
      obtain ⟨⟨lengths,_⟩,hlengths,h⟩ := bind_eq_ok.mp h
      cases h
      obtain ⟨hcount,hnarrow,hpos⟩ := encodeNumHtCodingPasses_bounded hpasses
      exact (encodeHtSegmentLengths_bounded hpos hmode hlengths).behind hcount hnarrow

end

/-! ## Tag trees -/

/-- As the packet state makes its trees. -/
structure Made (tree : TagTreeEncoder) (width height : ℕ) : Prop where
  sameWidth : tree.width = width
  sameHeight : tree.height = height
  levels : levelLoop maxTagTreeLevels width height 0 = .ok tree.levelOffsets

theorem levelsLoop_eq {turns w h totalNodes : ℕ} {offsets : List ℕ}
    (hok : levelLoop (turns + 1) w h totalNodes = .ok offsets) :
    levelsLoop turns w h = offsets.length := by
  induction turns generalizing w h totalNodes offsets with
  | zero =>
      unfold levelLoop at hok
      split_ifs at hok
      · cases hok
        rfl
      · obtain ⟨rest,hrest,-⟩ := bind_eq_ok.mp hok
        cases hrest
  | succ turns ih =>
      unfold levelLoop at hok
      unfold levelsLoop
      split_ifs at hok with h32 h64 hsmall
      · cases hok
        rw [if_pos hsmall]
        rfl
      · obtain ⟨rest,hrest,hok⟩ := bind_eq_ok.mp hok
        cases hok
        rw [if_neg hsmall,ih hrest,List.length_cons]

theorem Made.numLevels {tree : TagTreeEncoder} {width height : ℕ} (h : Made tree width height) :
    tagTreeLevels width height = tree.numLevels := levelsLoop_eq h.levels

theorem TagNode.encode_length (node : TagNode) (parentVal maxVal : ℕ) :
    (node.encode parentVal maxVal).1.length ≤ maxVal + 1 := by
  unfold TagNode.encode
  split_ifs <;>
    simp only [List.length_append,List.length_replicate,List.length_nil,List.length_singleton] <;>
    omega

theorem encodePath_length (tree : TagTreeEncoder) (x y maxVal level parentVal : ℕ)
    (nodes : Buffer TagNode) :
    (tree.encodePath x y maxVal level parentVal nodes).1.length ≤ level * (maxVal + 1) := by
  induction level generalizing parentVal nodes with
  | zero => exact Nat.zero_le _
  | succ level ih =>
      unfold TagTreeEncoder.encodePath
      dsimp only
      rw [List.length_append,Nat.add_one_mul,Nat.add_comm]
      exact Nat.add_le_add (ih _ _) (TagNode.encode_length _ _ _)

theorem Made.encode {tree tree' : TagTreeEncoder} {width height x y maxVal : ℕ} {bits : List Bool}
    (h : Made tree width height) (hok : tree.encode x y maxVal = .ok (bits,tree')) :
    bits.length ≤ tagTreeLevels width height * (maxVal + 1) ∧ Made tree' width height := by
  unfold TagTreeEncoder.encode at hok
  split_ifs at hok
  cases hok
  rw [h.numLevels]
  exact ⟨encodePath_length _ _ _ _ _ _ _,⟨h.sameWidth,h.sameHeight,h.levels⟩⟩

/-! ## Blocks -/

theorem checkedAddBytes_ok {left right n : ℕ} {what : String}
    (h : checkedAddBytes left right what = .ok n) : n = left + right := by
  unfold checkedAddBytes at h
  split_ifs at h
  cases h
  rfl

theorem checkedMulBytes_ok {left right n : ℕ} {what : String}
    (h : checkedMulBytes left right what = .ok n) : n = left * right := by
  unfold checkedMulBytes at h
  split_ifs at h
  cases h
  rfl

/-- The part of the plan for the inclusion of a block. -/
def inclusionBits (levels layer : ℕ) (b : CodeBlockPacketData) (s : PacketCodeBlockState) : ℕ :=
  if s.previouslyIncluded then 1
  else levels * (layer + 2) + if b.numCodingPasses > 0 then levels * (b.numZeroBitplanes + 2) else 0

theorem planInclusion_ok {levels layer bits bits' : ℕ} {b : CodeBlockPacketData}
    {s : PacketCodeBlockState} (h : planInclusion levels layer bits b s = .ok bits') :
    bits' = bits + inclusionBits levels layer b s := by
  unfold planInclusion at h
  unfold inclusionBits
  split_ifs at h ⊢ with hincluded hpasses
  · exact checkedAddBytes_ok h
  · obtain ⟨inclusion,hinclusion,h⟩ := bind_eq_ok.mp h
    obtain ⟨sum,hsum,h⟩ := bind_eq_ok.mp h
    obtain ⟨zeroBitplanes,hzero,h⟩ := bind_eq_ok.mp h
    rw [checkedAddBytes_ok h,checkedAddBytes_ok hsum,checkedMulBytes_ok hzero,
      checkedMulBytes_ok hinclusion,Nat.add_assoc]
  · obtain ⟨inclusion,hinclusion,h⟩ := bind_eq_ok.mp h
    obtain ⟨sum,hsum,h⟩ := bind_eq_ok.mp h
    cases h
    rw [checkedAddBytes_ok hsum,checkedMulBytes_ok hinclusion]
    rfl

theorem planContribution_ok {bits bits' : ℕ} {b : CodeBlockPacketData}
    (h : planContribution bits b = .ok bits') :
    bits' = bits + if b.numCodingPasses = 0 then 0 else contributionBits b := by
  unfold planContribution at h
  split_ifs at h ⊢ with hpasses
  · cases h
    rfl
  · obtain ⟨sum,hsum,h⟩ := bind_eq_ok.mp h
    obtain ⟨fieldBits,hfieldBits,h⟩ := bind_eq_ok.mp h
    obtain ⟨lengthBits,hlengthBits,h⟩ := bind_eq_ok.mp h
    rw [checkedAddBytes_ok h,checkedAddBytes_ok hlengthBits,checkedMulBytes_ok hfieldBits,
      checkedAddBytes_ok hsum,Nat.add_assoc]
    rfl

theorem planBlock_ok {levels layer bits bits' : ℕ} {b : CodeBlockPacketData × PacketCodeBlockState}
    (h : planBlock levels layer bits b = .ok bits') :
    bits' = bits + (inclusionBits levels layer b.1 b.2 +
      if b.1.numCodingPasses = 0 then 0 else contributionBits b.1) := by
  unfold planBlock at h
  split_ifs at h
  obtain ⟨inclusion,hinclusion,h⟩ := bind_eq_ok.mp h
  rw [planContribution_ok h,planInclusion_ok hinclusion,Nat.add_assoc]

/-- The lengths of the blocks that contribute. -/
def BlocksFit (blocks : List (CodeBlockPacketData × PacketCodeBlockState)) : Prop :=
  ∀ b ∈ blocks, 0 < b.1.numCodingPasses → LengthFieldsFit b.1 b.2.lBlock

instance (blocks : List (CodeBlockPacketData × PacketCodeBlockState)) :
    Decidable (BlocksFit blocks) := by
  unfold BlocksFit
  infer_instance

section
variable {layer width height : ℕ} {inclusionTree inclusionTree' zeroBitplaneTree zeroBitplaneTree' :
  TagTreeEncoder} {fields : List HeaderField}

/-- Step lemma: a block keeps to its part of the plan, and the trees to their geometry. -/
theorem formBlock_bounded {x y : ℕ} {b : CodeBlockPacketData} {s s' : PacketCodeBlockState}
    (hinclusion : Made inclusionTree width height) (hzero : Made zeroBitplaneTree width height)
    (h : formBlock layer x y b inclusionTree zeroBitplaneTree s =
      .ok (fields,inclusionTree',zeroBitplaneTree',s')) :
    Bounded fields (inclusionBits (tagTreeLevels width height) layer b s +
        if b.numCodingPasses = 0 then 0 else contributionBits b)
      (0 < b.numCodingPasses → LengthFieldsFit b s.lBlock) ∧
    Made inclusionTree' width height ∧ Made zeroBitplaneTree' width height := by
  unfold formBlock at h
  unfold inclusionBits
  by_cases hincluded : s.previouslyIncluded
  · rw [if_pos hincluded] at h ⊢
    by_cases hpasses : b.numCodingPasses > 0
    · rw [if_pos hpasses] at h
      rw [if_neg (by omega)]
      obtain ⟨⟨contribution,lBlock⟩,hcontribution,h⟩ := bind_eq_ok.mp h
      cases h
      have hb := contributionFields_bounded hcontribution
      refine ⟨⟨?_,?_⟩,hinclusion,hzero⟩
      · rw [bitCount_cons]
        exact Nat.add_le_add_left hb.count _
      · rw [narrow_cons,hb.narrow]
        exact ⟨fun h _ => h.2,fun h => ⟨by decide,h hpasses⟩⟩
    · rw [if_neg hpasses] at h
      cases h
      refine ⟨⟨?_,?_⟩,hinclusion,hzero⟩
      · rw [bitCount_cons,bitCount_nil]
        exact Nat.le_add_right _ _
      · rw [narrow_cons]
        exact ⟨fun _ h => absurd h hpasses,fun _ => ⟨by decide,narrow_nil⟩⟩
  · rw [if_neg hincluded] at h ⊢
    obtain ⟨⟨bits,tree⟩,hbits,h⟩ := bind_eq_ok.mp h
    obtain ⟨hcount,hinclusion'⟩ := hinclusion.encode hbits
    by_cases hpasses : b.numCodingPasses = 0
    · dsimp only at h
      rw [if_pos hpasses] at h
      cases h
      refine ⟨⟨?_,?_⟩,hinclusion',hzero⟩
      · rw [bitCount_bitFields]
        exact hcount.trans ((Nat.le_add_right _ _).trans (Nat.le_add_right _ _))
      · exact ⟨fun _ h => absurd h (by omega),fun _ => narrow_bitFields _⟩
    · dsimp only at h
      rw [if_neg hpasses] at h
      obtain ⟨⟨zeroBits,zeroTree⟩,hzeroBits,h⟩ := bind_eq_ok.mp h
      obtain ⟨hzeroCount,hzero'⟩ := hzero.encode hzeroBits
      obtain ⟨⟨contribution,lBlock⟩,hcontribution,h⟩ := bind_eq_ok.mp h
      cases h
      have hb := contributionFields_bounded hcontribution
      rw [if_neg hpasses,if_pos (Nat.pos_of_ne_zero hpasses)]
      refine ⟨⟨?_,?_⟩,hinclusion',hzero'⟩
      · rw [bitCount_append,bitCount_append,bitCount_bitFields,bitCount_bitFields]
        exact Nat.add_le_add (Nat.add_le_add hcount hzeroCount) hb.count
      · rw [narrow_append,narrow_append,hb.narrow]
        exact ⟨fun h _ => h.2,fun h => ⟨⟨narrow_bitFields _,narrow_bitFields _⟩,
          h (Nat.pos_of_ne_zero hpasses)⟩⟩

/-- Run lemma over the blocks of a subband. -/
theorem formBlocks_bounded {numCbsX index bodyLen bodyLen' bits bits' : ℕ}
    {blocks : List (CodeBlockPacketData × PacketCodeBlockState)} {states : List PacketCodeBlockState}
    (hinclusion : Made inclusionTree width height) (hzero : Made zeroBitplaneTree width height)
    (hplan : blocks.foldlM (planBlock (tagTreeLevels width height) layer) bits = .ok bits')
    (h : formBlocks layer numCbsX index blocks inclusionTree zeroBitplaneTree bodyLen =
      .ok (fields,inclusionTree',zeroBitplaneTree',states,bodyLen')) :
    bits + bitCount fields ≤ bits' ∧ (Narrow fields ↔ BlocksFit blocks) ∧
      Made inclusionTree' width height ∧ Made zeroBitplaneTree' width height ∧
      states.length = blocks.length := by
  induction blocks generalizing index inclusionTree zeroBitplaneTree bodyLen bits fields states with
  | nil =>
      cases hplan
      cases h
      exact ⟨le_rfl,⟨fun _ => nofun,fun _ => narrow_nil⟩,hinclusion,hzero,rfl⟩
  | cons b blocks ih =>
      unfold formBlocks at h
      by_cases hindex : index ≥ 2 ^ 32
      · rw [if_pos hindex] at h
        cases h
      rw [if_neg hindex] at h
      obtain ⟨⟨blockFields,inclusion,zeroBitplane,s⟩,hblock,h⟩ := bind_eq_ok.mp h
      obtain ⟨body,hbody,h⟩ := bind_eq_ok.mp h
      obtain ⟨⟨rest,_,_,restStates,_⟩,hrest,h⟩ := bind_eq_ok.mp h
      cases h
      rw [List.foldlM_cons] at hplan
      obtain ⟨mid,hmid,hplan⟩ := bind_eq_ok.mp hplan
      obtain ⟨hbounded,hinclusion',hzero'⟩ := formBlock_bounded hinclusion hzero hblock
      obtain ⟨hcount,hnarrow,hi,hz,hlength⟩ := ih hinclusion' hzero' hplan hrest
      refine ⟨?_,?_,hi,hz,congrArg (· + 1) hlength⟩
      · have := hbounded.count
        have := planBlock_ok hmid
        rw [bitCount_append]
        omega
      · rw [narrow_append,hbounded.narrow,hnarrow]
        unfold BlocksFit
        rw [List.forall_mem_cons]

end

/-! ## Headers -/

/-- A state as the packet state is built: trees for the grid of code blocks, and a code block for
each of its places. -/
structure Built (state : PacketSubbandState) : Prop where
  inclusion : Made state.inclusionTree state.numCbsX state.numCbsY
  zeroBitplanes : Made state.zeroBitplaneTree state.numCbsX state.numCbsY
  blocks : state.codeBlocks.length = state.numCbsX * state.numCbsY

/-- The layouts of a packet and its state agree. -/
def SameLayout (subband : SubbandPrecinct × PacketSubbandState) : Prop :=
  subband.1.numCbsX = subband.2.numCbsX ∧ subband.1.numCbsY = subband.2.numCbsY ∧
    subband.1.codeBlocks.length = subband.2.codeBlocks.length

theorem validateStateLayout_ok {packet : List SubbandPrecinct} {state : List PacketSubbandState}
    {u : Unit} (h : validateStateLayout packet state = .ok u) :
    packet.length = state.length ∧ ∀ subband ∈ packet.zip state, SameLayout subband := by
  unfold validateStateLayout at h
  split_ifs at h with hlayout
  rw [not_or,not_not,Bool.not_eq_true,List.any_eq_false] at hlayout
  refine ⟨hlayout.1.symm,fun subband hsubband => ?_⟩
  have := hlayout.2 subband hsubband
  simp only [decide_eq_true_eq,not_or,not_not] at this
  exact this

/-- The blocks of all subbands, each with its state. -/
def HeaderFits (packet : List SubbandPrecinct) (state : List PacketSubbandState) : Prop :=
  ∀ subband ∈ packet.zip state, BlocksFit (subband.1.codeBlocks.zip subband.2.codeBlocks)

instance (packet : List SubbandPrecinct) (state : List PacketSubbandState) :
    Decidable (HeaderFits packet state) := by
  unfold HeaderFits
  infer_instance

/-- Run lemma over the subbands. -/
theorem formSubbands_bounded {layer bodyLen bodyLen' bits bits' : ℕ}
    {subbands : List (SubbandPrecinct × PacketSubbandState)} {fields : List HeaderField}
    {states : List PacketSubbandState}
    (hbuilt : ∀ subband ∈ subbands, SameLayout subband ∧ Built subband.2)
    (hplan : subbands.foldlM (planSubband layer) bits = .ok bits')
    (h : formSubbands layer subbands bodyLen = .ok (fields,states,bodyLen')) :
    bits + bitCount fields ≤ bits' ∧
      (Narrow fields ↔
        ∀ subband ∈ subbands, BlocksFit (subband.1.codeBlocks.zip subband.2.codeBlocks)) ∧
      ∀ state ∈ states, Built state := by
  induction subbands generalizing bodyLen bits fields states with
  | nil =>
      cases hplan
      cases h
      exact ⟨le_rfl,⟨fun _ => nofun,fun _ => narrow_nil⟩,nofun⟩
  | cons subband subbands ih =>
      obtain ⟨packet,state⟩ := subband
      obtain ⟨⟨⟨hx,hy,hlength⟩,hmade⟩,hrestBuilt⟩ := List.forall_mem_cons.mp hbuilt
      obtain ⟨⟨blockFields,inclusion,zeroBitplane,codeBlocks,_⟩,hblocks,h⟩ := bind_eq_ok.mp h
      obtain ⟨⟨rest,restStates,_⟩,hrest,h⟩ := bind_eq_ok.mp h
      cases h
      rw [List.foldlM_cons] at hplan
      obtain ⟨mid,hmid,hplan⟩ := bind_eq_ok.mp hplan
      unfold planSubband at hmid
      dsimp only at hx hy hlength hmade hmid
      rw [hx,hy] at hmid
      obtain ⟨hcount,hnarrow,hi,hz,hstates⟩ :=
        formBlocks_bounded hmade.inclusion hmade.zeroBitplanes hmid hblocks
      obtain ⟨hrestCount,hrestNarrow,hrestMade⟩ := ih hrestBuilt hplan hrest
      refine ⟨?_,?_,?_⟩
      · rw [bitCount_append]
        omega
      · rw [narrow_append,hnarrow,hrestNarrow,List.forall_mem_cons]
      · refine List.forall_mem_cons.mpr ⟨⟨hi,hz,?_⟩,hrestMade⟩
        dsimp only
        rw [hstates,List.length_zip,hlength,Nat.min_self]
        exact hmade.blocks

theorem not_anyData {packet : List SubbandPrecinct} {state : List PacketSubbandState}
    (h : anyData packet = false) : HeaderFits packet state := by
  intro subband hsubband b hb hpasses
  have hall := List.any_eq_false.mp h subband.1 (List.of_mem_zip hsubband).1
  have hnone := List.any_eq_false.mp (Bool.eq_false_iff.mpr hall) b.1 (List.of_mem_zip hb).1
  exact absurd (decide_eq_true hpasses) hnone

/-- The fields of an accepted header are within its plan, and the state behind it is again as
the packet state is built. -/
theorem formHeaderFields_bounded {packet : List SubbandPrecinct} {state : List PacketSubbandState}
    {layer : ℕ} {writeEph : Bool} {header : HeaderFields} (hbuilt : ∀ s ∈ state, Built s)
    (h : formHeaderFields packet state layer writeEph = .ok header) :
    bitCount header.fields / 7 + 1 + writeEph.toNat * 2 ≤ header.plannedBytes ∧
      (Narrow header.fields ↔ HeaderFits packet state) ∧ ∀ s ∈ header.state, Built s := by
  obtain ⟨_,hlayout,h⟩ := bind_eq_ok.mp h
  obtain ⟨planned,hplanned,h⟩ := bind_eq_ok.mp h
  obtain ⟨-,hsame⟩ := validateStateLayout_ok hlayout
  obtain ⟨bits,hbits,hplanned⟩ := bind_eq_ok.mp hplanned
  have hbytes := checkedAddBytes_ok hplanned
  by_cases hany : anyData packet
  · rw [if_pos hany] at h
    obtain ⟨⟨fields,states,bodyLen⟩,hsubbands,h⟩ := bind_eq_ok.mp h
    cases h
    obtain ⟨hcount,hnarrow,hstates⟩ := formSubbands_bounded
      (fun subband hsubband => ⟨hsame subband hsubband,
        hbuilt subband.2 (List.of_mem_zip hsubband).2⟩) hbits hsubbands
    refine ⟨?_,?_,hstates⟩
    · rw [bitCount_cons]
      dsimp only at hbytes ⊢
      omega
    · rw [narrow_cons,hnarrow]
      exact and_iff_right (by decide)
  · rw [if_neg hany] at h
    cases h
    refine ⟨?_,?_,hbuilt⟩
    · rw [bitCount_cons,bitCount_nil]
      dsimp only at hbytes ⊢
      omega
    · exact ⟨fun _ => not_anyData (Bool.eq_false_iff.mpr hany),
        fun _ => narrow_cons.mpr ⟨by decide,narrow_nil⟩⟩

/-- Fields that are within the plan are written, with room for the marker behind them. -/
theorem writeHeader_ok {header : HeaderFields} {capacity : ℕ} {writeEph : Bool}
    (hplan : bitCount header.fields / 7 + 1 + writeEph.toNat * 2 ≤ header.plannedBytes)
    (hcapacity : header.plannedBytes ≤ capacity) :
    ∃ bytes, writeHeader capacity writeEph header = .ok bytes ∧
      bytes.length ≤ header.plannedBytes := by
  have hlength := length_written (bitsOfFields header.fields)
  rw [length_bitsOfFields] at hlength
  obtain ⟨-,hlast,-⟩ := markerFree_written (bitsOfFields header.fields)
  have hwritten := header_iff.mpr ⟨(show (written (bitsOfFields header.fields)).length ≤
    min header.plannedBytes capacity by omega),rfl⟩
  rw [← writeFields_eq] at hwritten
  obtain ⟨w,hw,hfinish⟩ := bind_eq_ok.mp hwritten
  have hwrite : writeHeader capacity writeEph header =
      finishHeader capacity writeEph (written (bitsOfFields header.fields)) := by
    unfold writeHeader
    rw [hw,ok_bind,hfinish,ok_bind]
  rw [hwrite]
  unfold finishHeader
  rw [if_neg hlast,ok_bind]
  cases writeEph with
  | false =>
      refine ⟨_,rfl,?_⟩
      rw [Bool.toNat_false] at hplan
      omega
  | true =>
      rw [Bool.toNat_true] at hplan
      have hpush : ∀ bytes : List ℕ, ∀ byte, bytes.length < capacity →
          budgetedPush capacity bytes byte = .ok (bytes ++ [byte]) :=
        fun bytes byte hlt => if_neg (Nat.ne_of_lt hlt)
      have hsecond : (written (bitsOfFields header.fields) ++ [0xFF]).length < capacity := by
        rw [List.length_append,List.length_singleton]
        omega
      dsimp only
      rw [if_pos rfl,hpush _ _ (by omega),ok_bind,hpush _ _ hsecond]
      refine ⟨_,rfl,?_⟩
      simp only [List.length_append,List.length_singleton]
      omega

/-- No index of a code block is divided by zero. -/
def Divisible (state : List PacketSubbandState) : Prop :=
  ∀ s ∈ state, s.codeBlocks ≠ [] → s.numCbsX ≠ 0

/-- An accepted header is written within its plan. It is written without a shift beyond the
width of its number exactly if the L-block of no contributing block makes its length too wide. -/
theorem header_bounds {packet : List SubbandPrecinct} {state : List PacketSubbandState}
    {layer capacity : ℕ} {writeEph : Bool} {header : HeaderFields} (hbuilt : ∀ s ∈ state, Built s)
    (hcapacity : header.plannedBytes ≤ capacity)
    (h : formHeaderFields packet state layer writeEph = .ok header) :
    ((∃ bytes, writeHeader capacity writeEph header = .ok bytes ∧
        bytes.length ≤ header.plannedBytes) ∧
      Narrow header.fields ∧ Divisible state) ↔ HeaderFits packet state := by
  obtain ⟨hplan,hnarrow,-⟩ := formHeaderFields_bounded hbuilt h
  rw [hnarrow]
  refine ⟨fun h => h.2.1,fun hfits => ⟨writeHeader_ok hplan hcapacity,hfits,
    fun s hs hne hzero => ?_⟩⟩
  have := (hbuilt s hs).blocks
  rw [hzero,Nat.zero_mul] at this
  exact hne (List.length_eq_zero_iff.mp this)

/-- A subband of one classic block with this L-block and data of this length. -/
def oneBlock (dataLen lBlock : ℕ) : SubbandPrecinct × PacketSubbandState :=
  let tree : TagTreeEncoder := ⟨fun _ => ⟨0,0,false⟩,1,1,[0]⟩
  (⟨[⟨dataLen,0,0,1,[],0,.classic⟩],1,1⟩,⟨tree,tree,[⟨false,lBlock⟩],1,1⟩)

theorem built_oneBlock (dataLen lBlock : ℕ) : Built (oneBlock dataLen lBlock).2 :=
  ⟨⟨rfl,rfl,rfl⟩,⟨rfl,rfl,rfl⟩,rfl⟩

/-- Two bytes of data behind the usual L-block. -/
theorem header_bounds_written : ∃ header,
    formHeaderFields [(oneBlock 2 3).1] [(oneBlock 2 3).2] 0 true = .ok header ∧
      (∃ bytes, writeHeader header.plannedBytes true header = .ok bytes ∧
        bytes.length ≤ header.plannedBytes) ∧
      Narrow header.fields ∧ Divisible [(oneBlock 2 3).2] := by
  obtain ⟨header,h⟩ : ∃ header,
      formHeaderFields [(oneBlock 2 3).1] [(oneBlock 2 3).2] 0 true = .ok header := ⟨_,rfl⟩
  have hbuilt : ∀ s ∈ [(oneBlock 2 3).2], Built s :=
    List.forall_mem_singleton.mpr (built_oneBlock 2 3)
  exact ⟨header,h,(header_bounds hbuilt le_rfl h).mpr (by decide)⟩

/-- With an L-block of 40 the header is accepted, and a length of 40 bits is cut from a number
of 32. -/
theorem wide_length_field : Built (oneBlock 2 40).2 ∧ ∃ header,
    formHeaderFields [(oneBlock 2 40).1] [(oneBlock 2 40).2] 0 true = .ok header ∧
      (2,40) ∈ header.fields ∧ ¬Narrow header.fields :=
  ⟨built_oneBlock 2 40,_,rfl,by decide,fun h => absurd (h (2,40) (by decide)) (by decide)⟩

end J2kNative.PacketHeaders
