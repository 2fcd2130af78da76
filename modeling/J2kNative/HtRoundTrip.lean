import J2kNative.HtContributions
import Mathlib.Tactic.IntervalCases

/-!
# Round trip of high-throughput contributions

The parser reads back what the header writer wrote of a contribution. The two derive the
width of the refinement length in different ways: the writer takes two refinement passes
for granted where there are more than two passes, the parser takes the passes beyond the
last complete set of three.
-/
namespace J2kNative.HtRoundTrip
open BitStuffing BitReader Fallible HtContributions

/-! ## Numbers in front of the reader -/

section
variable {r r' r₁ : BitReader} {bits xs ys : List Bool}

theorem readBits_of_presents (h : Presents r bits r') :
    r.readBitsWithStuffing bits.length = some (numberOf 0 bits, r') := h.readLoop 0

theorem readBits_field {value count : ℕ} (h : Presents r (fieldBits value count) r')
    (hvalue : value < 2 ^ 32) (hfits : valueFitsInBits value count) :
    r.readBitsWithStuffing count = some (value, r') := by
  have hread := readBits_of_presents h
  rwa [length_fieldBits, numberOf_field hvalue hfits] at hread

theorem numberOf_top {start k : ℕ} (hstart : start < 2 ^ k) (hlen : k + bits.length ≤ 32) :
    numberOf start bits / 2 ^ bits.length = start := by
  induction bits generalizing start k with
  | nil => exact Nat.div_one _
  | cons b bits ih =>
      rw [List.length_cons] at hlen ⊢
      have hb := b.toNat_lt
      have hlt : start * 2 + b.toNat < 2 ^ (k + 1) := by
        rw [Nat.pow_succ]
        omega
      have hmod : (start * 2 + b.toNat) % 2 ^ 32 = start * 2 + b.toNat :=
        Nat.mod_eq_of_lt (hlt.trans_le (Nat.pow_le_pow_right (by decide) (by omega)))
      have htop := @ih (start * 2 + b.toNat) (k + 1) hlt (by omega)
      change numberOf ((start * 2 + b.toNat) % 2 ^ 32) bits / 2 ^ (bits.length + 1) = start
      rw [hmod, Nat.pow_succ, ← Nat.div_div_eq_div_mul, htop]
      omega

theorem numberOf_lt_two_pow {start k : ℕ} (hstart : start < 2 ^ k) (hlen : k + bits.length ≤ 32) :
    numberOf start bits < 2 ^ (k + bits.length) := by
  have htop := numberOf_top hstart hlen
  rw [Nat.div_eq_iff (Nat.two_pow_pos _)] at htop
  have hmul : (start + 1) * 2 ^ bits.length ≤ 2 ^ k * 2 ^ bits.length :=
    Nat.mul_le_mul_right _ hstart
  rw [Nat.pow_add]
  have := Nat.two_pow_pos bits.length
  rw [Nat.succ_mul] at hmul
  omega

/-- A wider peek has what is presented on top. -/
theorem peak_top {n v : ℕ} (h : Presents r xs r₁) (hle : xs.length ≤ n) (hn : n ≤ 32)
    (hv : r.peakBitsWithStuffing n = some v) : v / 2 ^ (n - xs.length) = numberOf 0 xs := by
  obtain ⟨⟨_, r₂⟩, hread, rfl⟩ := Option.map_eq_some_iff.mp hv
  obtain ⟨bits, rfl, hbits, rfl⟩ := readLoop_presents hread
  obtain ⟨ys, rfl, -⟩ := h.eq_append hbits hle
  rw [List.length_append] at hn
  have hnumber : numberOf 0 (xs ++ ys) = numberOf (numberOf 0 xs) ys := List.foldl_append
  have hlt : numberOf 0 xs < 2 ^ (0 + xs.length) := numberOf_lt_two_pow (by decide) (by omega)
  rw [hnumber, List.length_append, Nat.add_sub_cancel_left]
  exact numberOf_top hlt (by omega)

theorem peak_eq (h : Presents r xs r₁) : r.peakBitsWithStuffing xs.length = some (numberOf 0 xs) := by
  unfold peakBitsWithStuffing
  rw [readBits_of_presents h]
  rfl

theorem peak_ne {n v : ℕ} (h : Presents r xs r₁) (hle : xs.length ≤ n) (hn : n ≤ 32)
    (hv : v / 2 ^ (n - xs.length) ≠ numberOf 0 xs) : r.peakBitsWithStuffing n ≠ some v :=
  fun hpeak => hv (peak_top h hle hn hpeak)

end

/-! ## Coding passes -/

section
variable {r r' : BitReader} {numPasses : ℕ} {bits : List Bool}

/-- The codewords of one and two passes, and of three to five. -/
theorem decodeNumCodingPasses_short (hr : Presents r bits r')
    (h : numPasses = 1 ∧ bits = [false] ∨ numPasses = 2 ∧ bits = fieldBits 0b10 2 ∨
      (3 ≤ numPasses ∧ numPasses ≤ 5) ∧ bits = fieldBits 0b11 2 ++ fieldBits (numPasses - 3) 2) :
    decodeNumCodingPasses r = some (numPasses, r') := by
  unfold decodeNumCodingPasses
  rcases h with ⟨rfl, rfl⟩ | ⟨rfl, rfl⟩ | ⟨⟨h3, h5⟩, rfl⟩
  · have h9 := @peak_ne _ _ _ 9 0x1ff hr (by decide) (by decide) (by decide)
    have h15 := @peak_ne _ _ _ 4 0x0f hr (by decide) (by decide) (by decide)
    have h14 := @peak_ne _ _ _ 4 0b1110 hr (by decide) (by decide) (by decide)
    have h13 := @peak_ne _ _ _ 4 0b1101 hr (by decide) (by decide) (by decide)
    have h12 := @peak_ne _ _ _ 4 0b1100 hr (by decide) (by decide) (by decide)
    have h2 := @peak_ne _ _ _ 2 0b10 hr (by decide) (by decide) (by decide)
    have h1 : r.peakBitsWithStuffing 1 = some 0 := peak_eq hr
    have hread : r.readBitsWithStuffing 1 = some (0, r') := readBits_of_presents hr
    rw [if_neg h9, if_neg h15, if_neg h14, if_neg h13, if_neg h12, if_neg h2, if_pos h1, hread]
    rfl
  · have h9 := @peak_ne _ _ _ 9 0x1ff hr (by decide) (by decide) (by decide)
    have h15 := @peak_ne _ _ _ 4 0x0f hr (by decide) (by decide) (by decide)
    have h14 := @peak_ne _ _ _ 4 0b1110 hr (by decide) (by decide) (by decide)
    have h13 := @peak_ne _ _ _ 4 0b1101 hr (by decide) (by decide) (by decide)
    have h12 := @peak_ne _ _ _ 4 0b1100 hr (by decide) (by decide) (by decide)
    have h2 : r.peakBitsWithStuffing 2 = some 0b10 := peak_eq hr
    have hread : r.readBitsWithStuffing 2 = some (0b10, r') := readBits_of_presents hr
    rw [if_neg h9, if_neg h15, if_neg h14, if_neg h13, if_neg h12, if_pos h2, hread]
    rfl
  · have hvalue : numberOf 0 (fieldBits 0b11 2 ++ fieldBits (numPasses - 3) 2) = numPasses + 9 := by
      interval_cases numPasses <;> rfl
    have hne : (0x1ff : ℕ) / 2 ^ (9 - 4) ≠ numPasses + 9 := by omega
    have h9 := @peak_ne _ _ _ 9 0x1ff hr (by simp) (by decide) (by simpa [hvalue] using hne)
    have h4 : r.peakBitsWithStuffing 4 = some (numPasses + 9) := hvalue ▸ peak_eq hr
    have hread : r.readBitsWithStuffing 4 = some (numPasses + 9, r') :=
      hvalue ▸ readBits_of_presents hr
    rw [if_neg h9, h4, hread]
    interval_cases numPasses <;> rfl

/-- The number of coding passes is read back. -/
theorem decodeNumCodingPasses_spec {fields : List HeaderField}
    (h : encodeNumHtCodingPasses numPasses = .ok fields)
    (hr : Presents r (bitsOfFields fields) r') :
    decodeNumCodingPasses r = some (numPasses, r') := by
  unfold encodeNumHtCodingPasses at h
  split_ifs at h with h1 h2 h3 h4 h5
  all_goals
    cases h
    simp only [bitsOfFields_cons, bitsOfFields_nil, List.append_nil, ← List.append_assoc] at hr
  · exact decodeNumCodingPasses_short hr (Or.inl ⟨h1, rfl⟩)
  · exact decodeNumCodingPasses_short hr (Or.inr (Or.inl ⟨h2, rfl⟩))
  · exact decodeNumCodingPasses_short hr (Or.inr (Or.inr ⟨h3, rfl⟩))
  · obtain ⟨r₁, hprefix, hfield⟩ := presents_append.mp hr
    have hfits : valueFitsInBits (numPasses - 6) 5 := by
      simp only [valueFitsInBits, decide_eq_true_eq]
      exact Or.inr (by change numPasses - 6 < 32; omega)
    have hread4 : r.readBitsWithStuffing 4 = some (0x0f, r₁) := readBits_of_presents hprefix
    have hread5 := readBits_field hfield (by omega) hfits
    have hpeak4 : r.peakBitsWithStuffing 4 = some 0x0f := peak_eq hprefix
    have hpeak9 : r.peakBitsWithStuffing 9 ≠ some 0x1ff := by
      have hnumber : numberOf 0x0f (fieldBits (numPasses - 6) 5) % 2 ^ 32 =
          (0x0f * 2 ^ 5 + (numPasses - 6) % 2 ^ 5) % 2 ^ 32 :=
        numberOf_fieldBits 0x0f (by decide)
      have hpeak : r.peakBitsWithStuffing 9 = some (numberOf 0x0f (fieldBits (numPasses - 6) 5)) := by
        have hpeak := peak_eq hr
        rwa [List.length_append, length_fieldBits,
          show numberOf 0 (fieldBits 0b11 2 ++ fieldBits 0b11 2 ++ fieldBits (numPasses - 6) 5) =
            numberOf 0x0f (fieldBits (numPasses - 6) 5) from List.foldl_append] at hpeak
      intro h9
      rw [Option.some.inj (hpeak.symm.trans h9)] at hnumber
      omega
    unfold decodeNumCodingPasses
    rw [if_neg hpeak9, if_pos hpeak4, hread4]
    simp only [Option.bind_eq_bind, Option.bind_some, hread5, Nat.sub_add_cancel h4.1]
  · obtain ⟨r₁, hprefix, hfield⟩ := presents_append.mp hr
    have hfits : valueFitsInBits (numPasses - 37) 7 := by
      simp only [valueFitsInBits, decide_eq_true_eq]
      exact Or.inr (by change numPasses - 37 < 128; omega)
    have hread9 : r.readBitsWithStuffing 9 = some (0x1ff, r₁) := readBits_of_presents hprefix
    have hread7 := readBits_field hfield (by omega) hfits
    have hpeak9 : r.peakBitsWithStuffing 9 = some 0x1ff := peak_eq hprefix
    unfold decodeNumCodingPasses
    rw [if_pos hpeak9, hread9]
    simp only [Option.bind_eq_bind, Option.bind_some, hread7, Nat.sub_add_cancel h5.1]

end

/-! ## L-block -/

section
variable {r r' : BitReader}

theorem readIncrementLoop_spec {k turns : ℕ} (increment : ℕ) (hturns : k < turns)
    (h : Presents r (List.replicate k true ++ [false]) r') :
    readIncrementLoop turns increment r = some (increment + k, r') := by
  induction k generalizing r turns increment with
  | zero =>
      obtain ⟨turns, rfl⟩ := Nat.exists_eq_succ_of_ne_zero hturns.ne'
      have hread : r.readBitsWithStuffing 1 = some (0, r') := readBits_of_presents h
      unfold readIncrementLoop
      rw [hread]
      rfl
  | succ k ih =>
      obtain ⟨turns, rfl⟩ := Nat.exists_eq_succ_of_ne_zero (Nat.ne_zero_of_lt hturns)
      rw [List.replicate_succ, List.cons_append] at h
      obtain ⟨r₁, hr, h⟩ := h
      have hread : r.readBitsWithStuffing 1 = some (1, r₁) :=
        @readBits_of_presents r r₁ [true] ⟨r₁, hr, rfl⟩
      unfold readIncrementLoop
      rw [hread, Option.bind_eq_bind, Option.bind_some]
      dsimp only
      rw [if_pos rfl, ih (increment + 1) (Nat.lt_of_succ_lt_succ hturns) h]
      congr 2
      omega

/-- The raise of the L-block is read back. -/
theorem readLblockIncrement_spec {k : ℕ} (h : Presents r (List.replicate k true ++ [false]) r') :
    readLblockIncrement r = some (k, r') := by
  have hlen := h.length_le (by simp)
  rw [List.length_append, List.length_replicate, List.length_singleton] at hlen
  have hspec := readIncrementLoop_spec 0 (by omega : k < 8 * r.data.length + 1) h
  rwa [Nat.zero_add] at hspec

end

/-! ## Lengths -/

section
variable {c : Contribution} {cleanup refinement : ℕ}

/-- The three kinds of contributions that the writer accepts. -/
inductive Kind (c : Contribution) : ℕ → ℕ → Prop
  | refinementOnly : c.htCleanupLength = 0 → c.htRefinementLength ≠ 0 →
      c.htRefinementLength < 2047 → Kind c 0 c.htRefinementLength
  | singlePass : c.numCodingPasses = 1 → c.htRefinementLength = 0 → c.dataLen < 2 ^ 32 →
      Kind c c.dataLen 0
  | multiPass : 1 < c.numCodingPasses → 2 ≤ c.htCleanupLength → c.htCleanupLength < 65535 →
      c.htRefinementLength ≠ 0 → c.htRefinementLength < 2047 →
      Kind c c.htCleanupLength c.htRefinementLength

theorem htSegmentLengths_kind (hpasses : c.numCodingPasses ≠ 0)
    (h : htSegmentLengths c = .ok (cleanup, refinement)) : Kind c cleanup refinement := by
  unfold htSegmentLengths at h
  dsimp only at h
  split_ifs at h
  · contradiction
  · rename_i hlength hkind _ hsmall
    cases h
    exact .refinementOnly hkind.1 hkind.2 (Nat.not_le.mp hsmall)
  · rename_i hlength _ hsingle hnone _ _
    cases h
    exact .singlePass hsingle (not_not.mp hnone) (Nat.not_le.mp hlength)
  · rename_i hlength _ hsingle hnone _ hsame
    cases h
    rw [not_not.mp hsame]
    exact .singlePass hsingle (not_not.mp hnone) (Nat.not_le.mp hlength)
  · rename_i _ hsingle hboth _ _ hcleanup hsmall
    cases h
    rw [not_or] at hboth
    exact .multiPass (by omega) hcleanup.1 hcleanup.2 hboth.2 (Nat.not_le.mp hsmall)

/-- The width in which the writer writes the refinement length behind a cleanup length. -/
def refinementBits (lBlock numCodingPasses : ℕ) : ℕ :=
  lBlock + refinementExtraBits numCodingPasses

variable {lBlock lBlock' : ℕ} {fields : List HeaderField}

theorem encodeLengths_refinementOnly (hlengths : htSegmentLengths c = .ok (0, refinement))
    (hne : refinement ≠ 0)
    (h : encodeHtSegmentLengthsWithLblock c lBlock = .ok (fields, lBlock')) :
    ∃ k, lBlock' = lBlock + k ∧
      bitsOfFields fields = List.replicate k true ++ [false] ++
        fieldBits refinement (bitsForHtRefinementOnlyLength lBlock' c.numCodingPasses) ∧
      valueFitsInBits refinement (bitsForHtRefinementOnlyLength lBlock' c.numCodingPasses) ∧
      bitsForHtRefinementOnlyLength lBlock' c.numCodingPasses ≤ 255 := by
  unfold encodeHtSegmentLengthsWithLblock at h
  have hnarrow : ¬lBlock > 255 := fun hwide => by rw [if_pos hwide] at h; cases h
  rw [if_neg hnarrow, hlengths] at h
  change (if 0 = 0 ∧ refinement ≠ 0 then _ else _) = _ at h
  rw [if_pos ⟨rfl, hne⟩] at h
  obtain ⟨⟨ones, raised, raisedBits⟩, hgrow, h⟩ := bind_eq_ok.mp h
  obtain ⟨width, hnarrowed, h⟩ := bind_eq_ok.mp h
  obtain ⟨k, -, rfl, rfl, rfl, hfits, -⟩ := growLBlock_spec hgrow
  obtain ⟨rfl, hle⟩ := fieldWidth_ok hnarrowed
  cases h
  have hwidth : bitsForHtRefinementOnlyLength lBlock c.numCodingPasses + k =
      bitsForHtRefinementOnlyLength (lBlock + k) c.numCodingPasses := by
    unfold bitsForHtRefinementOnlyLength
    omega
  rw [hwidth] at hfits hle ⊢
  refine ⟨k, rfl, ?_, hfits, hle⟩
  rw [bitsOfFields_append, bitsOfFields_bitFields, bitsOfFields_cons, bitsOfFields_nil,
    List.append_nil]

/-- The refinement behind a cleanup, written where there is more than one pass. -/
theorem refinementField_spec {numCodingPasses : ℕ}
    (h : refinementField refinement numCodingPasses lBlock = .ok fields) :
    bitsOfFields fields = (if numCodingPasses > 1 then
        fieldBits refinement (refinementBits lBlock numCodingPasses) else []) ∧
      (numCodingPasses > 1 → refinementBits lBlock numCodingPasses ≤ 255) := by
  unfold refinementField at h
  split_ifs at h with hmulti
  · obtain ⟨width, hwidth, h⟩ := bind_eq_ok.mp h
    obtain ⟨rfl, hle⟩ := fieldWidth_ok hwidth
    cases h
    refine ⟨?_, fun _ => hle⟩
    rw [if_pos hmulti, bitsOfFields_cons, bitsOfFields_nil, List.append_nil]
    rfl
  · cases h
    exact ⟨(if_neg hmulti).symm, fun hm => absurd hm hmulti⟩

theorem encodeLengths_cleanup (hlengths : htSegmentLengths c = .ok (cleanup, refinement))
    (hkind : ¬(cleanup = 0 ∧ refinement ≠ 0))
    (h : encodeHtSegmentLengthsWithLblock c lBlock = .ok (fields, lBlock')) :
    ∃ k, lBlock' = lBlock + k ∧
      bitsOfFields fields = List.replicate k true ++ [false] ++
        fieldBits cleanup (bitsForHtCleanupLength lBlock' c.numCodingPasses) ++
        (if c.numCodingPasses > 1 then
          fieldBits refinement (refinementBits lBlock' c.numCodingPasses) else []) ∧
      valueFitsInBits cleanup (bitsForHtCleanupLength lBlock' c.numCodingPasses) ∧
      bitsForHtCleanupLength lBlock' c.numCodingPasses ≤ 255 ∧
      (c.numCodingPasses > 1 →
        valueFitsInBits refinement (refinementBits lBlock' c.numCodingPasses) ∧
          refinementBits lBlock' c.numCodingPasses ≤ 255) := by
  unfold encodeHtSegmentLengthsWithLblock at h
  have hnarrow : ¬lBlock > 255 := fun hwide => by rw [if_pos hwide] at h; cases h
  rw [if_neg hnarrow, hlengths] at h
  change (if cleanup = 0 ∧ refinement ≠ 0 then _ else _) = _ at h
  rw [if_neg hkind] at h
  obtain ⟨⟨ones, raised, raisedBits⟩, hgrow, h⟩ := bind_eq_ok.mp h
  obtain ⟨width, hnarrowed, h⟩ := bind_eq_ok.mp h
  obtain ⟨behind, hbehind, h⟩ := bind_eq_ok.mp h
  obtain ⟨k, -, rfl, rfl, rfl, hfits, -⟩ := growLBlock_spec hgrow
  obtain ⟨rfl, hle⟩ := fieldWidth_ok hnarrowed
  obtain ⟨hbits, hle₂⟩ := refinementField_spec hbehind
  cases h
  have hwidth : bitsForHtCleanupLength lBlock c.numCodingPasses + k =
      bitsForHtCleanupLength (lBlock + k) c.numCodingPasses := by
    unfold bitsForHtCleanupLength
    dsimp only
    omega
  rw [hwidth] at hfits hle ⊢
  rw [Bool.and_eq_true] at hfits
  refine ⟨k, rfl, ?_, hfits.1, hle, fun hmulti => ⟨?_, hle₂ hmulti⟩⟩
  · rw [bitsOfFields_append, bitsOfFields_append, bitsOfFields_bitFields, bitsOfFields_cons,
      bitsOfFields_nil, List.append_nil, hbits]
  · simpa [hmulti, refinementBits] using hfits.2

end

/-! ## Parsed lengths -/

section
variable {r r' r₁ r₂ : BitReader} {lBlock codingPasses value : ℕ}

theorem readSegmentLength_spec (h : Presents r (fieldBits value (lBlock + codingPasses.log2)) r')
    (hvalue : value < 2 ^ 32) (hfits : valueFitsInBits value (lBlock + codingPasses.log2))
    (hle : lBlock + codingPasses.log2 ≤ 255) :
    readSegmentLength r lBlock codingPasses = .ok (value, r') := by
  unfold readSegmentLength
  dsimp only
  rw [if_neg (by omega), if_neg (Nat.not_lt.mpr hle), readBits_field h hvalue hfits]
  rfl

theorem orError_ok {α : Type} {x : Option α} {what : String} {a : α} :
    orError x what = .ok a ↔ x = some a := by
  cases x <;> simp [orError]

theorem readSegmentLength_presents
    (h : readSegmentLength r lBlock codingPasses = .ok (value, r')) :
    ∃ bits, bits.length = lBlock + codingPasses.log2 ∧ Presents r bits r' := by
  unfold readSegmentLength at h
  dsimp only at h
  split_ifs at h
  obtain ⟨bits, hlen, hbits, -⟩ := readLoop_presents (orError_ok.mp h)
  exact ⟨bits, hlen, hbits⟩

variable {includedFirstTime : Bool} {cb cb' : CodeBlock} {segments : List Segment}
variable {numPasses k : ℕ} {passes : List HeaderField}

/-- The code block with its L-block raised. -/
def raised (cb : CodeBlock) (k : ℕ) : CodeBlock := { cb with lBlock := cb.lBlock + k }

@[simp] theorem raised_total (cb : CodeBlock) (k : ℕ) :
    (raised cb k).htTotalCodingPasses = cb.htTotalCodingPasses := rfl

theorem parseSegmentLengths_eq (h : Presents r (List.replicate k true ++ [false]) r')
    (htotal : cb.htTotalCodingPasses + numPasses ≤ maxCodingPasses)
    (hlBlock : cb.lBlock + k < 2 ^ 32) :
    parseSegmentLengths r numPasses cb = parseSegments r' numPasses
      (cb.htTotalCodingPasses + numPasses) (raised cb k) := by
  have hmax : maxCodingPasses ≤ 255 := by decide
  unfold parseSegmentLengths
  dsimp only
  rw [if_neg (by omega), if_neg (by omega), readLblockIncrement_spec h]
  exact if_neg (Nat.not_le.mpr hlBlock)

theorem parseContribution_eq (hpasses : encodeNumHtCodingPasses numPasses = .ok passes)
    (hr₁ : Presents r (bitsOfFields passes) r₁) (hr₂ : Presents r₁ (List.replicate k true ++ [false]) r₂)
    (hnum : numPasses ≤ maxCodingPasses) (hfirst : includedFirstTime → cb.isFresh)
    (htotal : cb.htTotalCodingPasses + numPasses ≤ maxCodingPasses)
    (hlBlock : cb.lBlock + k < 2 ^ 32) :
    parseContribution includedFirstTime r cb = (do
      let (cb, segments, r) ← parseSegments r₂ numPasses (cb.htTotalCodingPasses + numPasses)
        (raised cb k)
      if cb.nonEmptyLayerCount + 1 > 255 then .error "HT non-empty layer count overflows"
      else .ok ({ cb with nonEmptyLayerCount := cb.nonEmptyLayerCount + 1 }, segments, r)) := by
  unfold parseContribution
  rw [decodeNumCodingPasses_spec hpasses hr₁, ← parseSegmentLengths_eq hr₂ htotal hlBlock]
  change (if numPasses > maxCodingPasses then _ else _) = _
  rw [if_neg (Nat.not_lt.mpr hnum), if_neg (fun h => h.2 (hfirst h.1))]

/-- A contribution that is parsed does not exceed the passes of a code block. -/
theorem total_le_of_parse (hpasses : encodeNumHtCodingPasses numPasses = .ok passes)
    (hr₁ : Presents r (bitsOfFields passes) r₁)
    (h : parseContribution includedFirstTime r cb = .ok (cb', segments, r')) :
    cb.htTotalCodingPasses + numPasses ≤ maxCodingPasses := by
  unfold parseContribution at h
  rw [decodeNumCodingPasses_spec hpasses hr₁] at h
  by_contra hlarge
  have herror : ∃ e, parseSegmentLengths r₁ numPasses cb = .error e := by
    unfold parseSegmentLengths
    dsimp only
    split_ifs
    · exact ⟨_, rfl⟩
    · exact ⟨_, rfl⟩
    · omega
  obtain ⟨e, herror⟩ := herror
  change (if numPasses > maxCodingPasses then _ else _) = _ at h
  split_ifs at h
  rw [herror] at h
  cases h

end

/-- What the parse of segments leaves of a code block; the first cleanup pass is among the
passes parsed. -/
structure Kept (total : ℕ) (cb cb' : CodeBlock) : Prop where
  lBlock : cb'.lBlock = cb.lBlock
  layers : cb'.nonEmptyLayerCount = cb.nonEmptyLayerCount
  planes : cb.missingBitPlanes ≤ 255 → cb'.missingBitPlanes ≤ 255
  past : ∀ pass, cb'.htFirstCleanupPass = some pass →
    cb.htFirstCleanupPass = some pass ∨ pass < total

theorem Kept.refl (total : ℕ) (cb : CodeBlock) : Kept total cb cb :=
  ⟨rfl, rfl, id, fun _ h => Or.inl h⟩

theorem Kept.trans {total : ℕ} {cb cb₁ cb₂ : CodeBlock} (h₁ : Kept total cb cb₁)
    (h₂ : Kept total cb₁ cb₂) : Kept total cb cb₂ where
  lBlock := h₂.lBlock.trans h₁.lBlock
  layers := h₂.layers.trans h₁.layers
  planes h := h₂.planes (h₁.planes h)
  past pass h := (h₂.past pass h).elim (h₁.past pass) Or.inr

/-! ## The first cleanup segment -/

/-- The passes of the length that is read first. -/
def firstPasses (rawNumPasses totalAfter : ℕ) : ℕ :=
  if rawNumPasses - (totalAfter - 1) % 3 = 0 then rawNumPasses
  else rawNumPasses - (totalAfter - 1) % 3

/-- The cleanup pass that the parser computes starts a set, and its bit planes fit. -/
structure Aligned (rawNumPasses totalAfter : ℕ) (cb : CodeBlock) : Prop where
  pos : 0 < cb.htTotalCodingPasses + (rawNumPasses - (totalAfter - 1) % 3)
  le : cb.htTotalCodingPasses + (rawNumPasses - (totalAfter - 1) % 3) ≤ 255
  set : (cb.htTotalCodingPasses + (rawNumPasses - (totalAfter - 1) % 3) - 1) % 3 = 0
  planes : cb.missingBitPlanes +
    (cb.htTotalCodingPasses + (rawNumPasses - (totalAfter - 1) % 3) - 1) / 3 ≤ 255

/-- What the parser can make of a contribution while there is no cleanup segment. -/
inductive FirstSegments (r : BitReader) (rawNumPasses totalAfter : ℕ) (cb : CodeBlock) :
    List Segment → BitReader → Prop
  | placeholder (r₁ r₂ : BitReader) :
      readSegmentLength r cb.lBlock (firstPasses rawNumPasses totalAfter) = .ok (0, r₁) →
      r₁.readBitsWithStuffing (if firstPasses rawNumPasses totalAfter < rawNumPasses then
        rawNumPasses.log2 - (firstPasses rawNumPasses totalAfter).log2 else 0) = some (0, r₂) →
      FirstSegments r rawNumPasses totalAfter cb [] r₂
  | cleanup (length : ℕ) (r₁ : BitReader) :
      readSegmentLength r cb.lBlock (firstPasses rawNumPasses totalAfter) = .ok (length, r₁) →
      2 ≤ length ∧ length < 65535 →
      Aligned rawNumPasses totalAfter cb → (totalAfter - 1) % 3 = 0 →
      FirstSegments r rawNumPasses totalAfter cb
        [⟨0, rawNumPasses - (totalAfter - 1) % 3, length⟩] r₁
  | both (length refinementLength : ℕ) (r₁ r₂ : BitReader) :
      readSegmentLength r cb.lBlock (firstPasses rawNumPasses totalAfter) = .ok (length, r₁) →
      2 ≤ length ∧ length < 65535 →
      Aligned rawNumPasses totalAfter cb → (totalAfter - 1) % 3 ≠ 0 →
      readSegmentLength r₁ cb.lBlock ((totalAfter - 1) % 3) = .ok (refinementLength, r₂) →
      refinementLength < 2047 →
      FirstSegments r rawNumPasses totalAfter cb
        [⟨0, rawNumPasses - (totalAfter - 1) % 3, length⟩,
          ⟨1, (totalAfter - 1) % 3, refinementLength⟩] r₂

section
variable {r r' : BitReader} {rawNumPasses totalAfter : ℕ} {cb cb' : CodeBlock}
variable {segments : List Segment}

theorem Aligned.kept (h : Aligned rawNumPasses totalAfter cb)
    (htotal : totalAfter = cb.htTotalCodingPasses + rawNumPasses) {numberOfCodingPasses : ℕ}
    (hcb' : cb' = { cb with
      coding := some .highThroughput
      missingBitPlanes := cb.missingBitPlanes +
        (cb.htTotalCodingPasses + (rawNumPasses - (totalAfter - 1) % 3) - 1) / 3
      htFirstCleanupPass :=
        some (cb.htTotalCodingPasses + (rawNumPasses - (totalAfter - 1) % 3) - 1)
      htSelectedSet := some 0
      numberOfCodingPasses := numberOfCodingPasses
      htTotalCodingPasses := totalAfter }) : Kept totalAfter cb cb' := by
  subst hcb'
  refine ⟨rfl, rfl, fun _ => h.planes, fun pass hpass => Or.inr ?_⟩
  have hpos := h.pos
  cases hpass
  omega

theorem firstSegments_of_parse (htotal : totalAfter = cb.htTotalCodingPasses + rawNumPasses)
    (h : parseFirstSegments r rawNumPasses totalAfter cb = .ok (cb', segments, r')) :
    FirstSegments r rawNumPasses totalAfter cb segments r' ∧ Kept totalAfter cb cb' ∧
      cb'.htTotalCodingPasses = totalAfter := by
  unfold parseFirstSegments at h
  obtain ⟨⟨length, r₁⟩, hread, h⟩ := bind_eq_ok.mp h
  dsimp only at h
  by_cases hzero : length = 0
  · rw [if_pos hzero] at h
    obtain ⟨⟨extra, r₂⟩, hextra, h⟩ := bind_eq_ok.mp h
    dsimp only at h
    split_ifs at h with hextra'
    cases h
    rw [hzero] at hread
    rw [not_not.mp hextra'] at hextra
    exact ⟨.placeholder r₁ _ hread (orError_ok.mp hextra),
      ⟨rfl, rfl, id, fun _ h => Or.inl h⟩, rfl⟩
  · rw [if_neg hzero] at h
    split_ifs at h with hrange hsum hset hplanes hrefinement
    · rw [not_or, Nat.not_lt] at hsum
      have haligned : Aligned rawNumPasses totalAfter cb :=
        ⟨Nat.pos_of_ne_zero hsum.2, hsum.1, not_not.mp hset, Nat.not_lt.mp hplanes⟩
      obtain ⟨⟨refinementLength, r₂⟩, hread₂, h⟩ := bind_eq_ok.mp h
      dsimp only at h
      split_ifs at h with hlarge
      cases h
      exact ⟨.both length refinementLength r₁ _ hread hrange haligned hrefinement hread₂
        (Nat.not_le.mp hlarge), haligned.kept htotal rfl, rfl⟩
    · rw [not_or, Nat.not_lt] at hsum
      have haligned : Aligned rawNumPasses totalAfter cb :=
        ⟨Nat.pos_of_ne_zero hsum.2, hsum.1, not_not.mp hset, Nat.not_lt.mp hplanes⟩
      cases h
      exact ⟨.cleanup length _ hread hrange haligned (not_not.mp hrefinement),
        haligned.kept htotal rfl, rfl⟩

theorem parse_of_firstSegments (h : FirstSegments r rawNumPasses totalAfter cb segments r') :
    ∃ cb', parseFirstSegments r rawNumPasses totalAfter cb = .ok (cb', segments, r') ∧
      cb'.lBlock = cb.lBlock ∧ cb'.nonEmptyLayerCount = cb.nonEmptyLayerCount := by
  unfold parseFirstSegments
  dsimp only
  cases h with
  | placeholder r₁ r₂ hread hextra =>
      unfold firstPasses at hread hextra
      rw [hread, ok_bind]
      dsimp only
      rw [if_pos rfl, hextra]
      exact ⟨_, rfl, rfl, rfl⟩
  | cleanup length r₁ hread hrange haligned hrefinement =>
      obtain ⟨hpos, hle, hset, hplanes⟩ := haligned
      unfold firstPasses at hread
      rw [hread, ok_bind]
      dsimp only
      rw [if_neg (by omega), if_neg (not_not.mpr hrange), if_neg (by omega),
        if_neg (not_not.mpr hset), if_neg (Nat.not_lt.mpr hplanes), if_neg (not_not.mpr hrefinement)]
      exact ⟨_, rfl, rfl, rfl⟩
  | both length refinementLength r₁ r₂ hread hrange haligned hrefinement hread₂ hsmall =>
      obtain ⟨hpos, hle, hset, hplanes⟩ := haligned
      unfold firstPasses at hread
      rw [hread, ok_bind]
      dsimp only
      rw [if_neg (by omega), if_neg (not_not.mpr hrange), if_neg (by omega),
        if_neg (not_not.mpr hset), if_neg (Nat.not_lt.mpr hplanes), if_pos hrefinement, hread₂, ok_bind]
      dsimp only
      rw [if_neg (Nat.not_le.mpr hsmall)]
      exact ⟨_, rfl, rfl, rfl⟩

end

/-! ## Later segments -/

section
variable {r r' r₁ : BitReader} {firstCleanupPass turns nextPass remaining : ℕ}
variable {cb cb' : CodeBlock} {segments : List Segment}

theorem parseLaterSegments_done :
    parseLaterSegments firstCleanupPass turns nextPass 0 cb r = .ok (cb, [], r) := by
  cases turns with
  | zero => rfl
  | succ turns => exact if_pos rfl

theorem placeSegment_kept {setIndex passInSet contributionPasses length : ℕ} (total : ℕ)
    (h : placeSegment cb setIndex passInSet contributionPasses length = .ok (cb', segments)) :
    Kept total cb cb' := by
  unfold placeSegment at h
  split_ifs at h
  · cases h
    exact Kept.refl _ _
  · cases hset : cb.htSelectedSet with
    | none => rw [hset] at h; cases h
    | some previousSet =>
        rw [hset] at h
        dsimp only at h
        split_ifs at h with _ hplanes
        cases h
        exact ⟨rfl, rfl, fun _ => Nat.not_lt.mp hplanes, fun _ hpass => Or.inl hpass⟩
  · cases h
    exact ⟨rfl, rfl, id, fun _ hpass => Or.inl hpass⟩
  · cases h
    exact Kept.refl _ _

/-- What one turn with passes left reads and places. -/
theorem parseLaterSegments_turn (hremaining : remaining ≠ 0)
    (h : parseLaterSegments firstCleanupPass (turns + 1) nextPass remaining cb r =
      .ok (cb', segments, r')) :
    ∃ relativePass passes length r₁ cb₁ pushed rest, firstCleanupPass + relativePass = nextPass ∧
      passes = min remaining (if relativePass % 3 = 1 then 2 else 1) ∧
      readSegmentLength r cb.lBlock passes = .ok (length, r₁) ∧
      placeSegment cb (relativePass / 3) (relativePass % 3) passes length = .ok (cb₁, pushed) ∧
      parseLaterSegments firstCleanupPass turns (nextPass + passes) (remaining - passes) cb₁ r₁ =
        .ok (cb', rest, r') ∧ segments = pushed ++ rest := by
  unfold parseLaterSegments at h
  rw [if_neg hremaining] at h
  split_ifs at h with hpast
  obtain ⟨⟨length, r₁⟩, hread, h⟩ := bind_eq_ok.mp h
  obtain ⟨⟨cb₁, pushed⟩, hplace, h⟩ := bind_eq_ok.mp h
  obtain ⟨⟨cb₂, rest, r₂⟩, hrest, h⟩ := bind_eq_ok.mp h
  cases h
  exact ⟨nextPass - firstCleanupPass, _, length, r₁, cb₁, pushed, rest, by omega, rfl, hread,
    hplace, hrest, rfl⟩

/-- The loop reads as many bits as the L-block in each turn. -/
theorem parseLaterSegments_reads (total : ℕ)
    (h : parseLaterSegments firstCleanupPass turns nextPass remaining cb r =
      .ok (cb', segments, r')) :
    Kept total cb cb' ∧
      ∃ bits, Presents r bits r' ∧ (remaining ≠ 0 → turns ≠ 0 → cb.lBlock ≤ bits.length) := by
  induction turns generalizing nextPass remaining cb r segments with
  | zero =>
      cases h
      exact ⟨Kept.refl _ _, [], rfl, fun _ h => absurd rfl h⟩
  | succ turns ih =>
      by_cases hremaining : remaining = 0
      · rw [hremaining, parseLaterSegments_done] at h
        cases h
        exact ⟨Kept.refl _ _, [], rfl, fun h => absurd hremaining h⟩
      · obtain ⟨_, _, _, r₁, cb₁, _, _, -, -, hread, hplace, hrest, -⟩ :=
          parseLaterSegments_turn hremaining h
        obtain ⟨bits, hlen, hbits⟩ := readSegmentLength_presents hread
        obtain ⟨hkept, rest, hrest, -⟩ := ih hrest
        refine ⟨(placeSegment_kept total hplace).trans hkept, bits ++ rest,
          presents_append.mpr ⟨r₁, hbits, hrest⟩, fun _ _ => ?_⟩
        rw [List.length_append, hlen]
        omega

end

/-! ## Round trip -/

/-- The data lengths of the segments with even or odd indices. -/
def lengthsOf (parity : ℕ) (segments : List Segment) : List ℕ :=
  (segments.filter fun s => s.idx % 2 = parity).map Segment.dataLength

/-- A length of zero stands for no segment. -/
def segmentOf (length : ℕ) : List ℕ := if length = 0 then [] else [length]

/-- The segments have these cleanup and refinement lengths. -/
structure Carries (segments : List Segment) (cleanup refinement : ℕ) : Prop where
  cleanup : lengthsOf 0 segments = segmentOf cleanup
  refinement : lengthsOf 1 segments = segmentOf refinement

theorem Carries.not_of_even {s : Segment} {segments : List Segment} {refinement : ℕ}
    (hs : s.idx % 2 = 0) : ¬Carries (s :: segments) 0 refinement := by
  intro h
  have := h.cleanup
  simp [lengthsOf, segmentOf, hs] at this

theorem Carries.not_nil {refinement : ℕ} (h : refinement ≠ 0) : ¬Carries [] 0 refinement := by
  intro hc
  have := hc.refinement
  simp [lengthsOf, segmentOf, h] at this

/-- When a first contribution is read as it was written. -/
def FirstAgrees (c : Contribution) (cb : CodeBlock) : Prop :=
  (c.numCodingPasses = 1 ∧ c.htRefinementLength = 0 ∧ c.dataLen ≠ 1 ∧ c.dataLen < 65535) ∨
    (c.htCleanupLength ≠ 0 ∧ (c.numCodingPasses = 2 ∨ c.numCodingPasses % 3 = 0) ∧
      cb.missingBitPlanes + (c.numCodingPasses - 1) / 3 ≤ 255)

/-- When a contribution of refinement passes alone is. -/
def LaterAgrees (c : Contribution) (cb : CodeBlock) : Prop :=
  ∃ relativePass, cb.htFirstCleanupPass.map (· + relativePass) = some cb.htTotalCodingPasses ∧
    cb.htSelectedSet = some (relativePass / 3) ∧
    cb.htTotalCodingPasses + c.numCodingPasses ≤ maxCodingPasses ∧
    (relativePass % 3 = 1 ∧ c.numCodingPasses ≤ 2 ∨ relativePass % 3 = 2 ∧ c.numCodingPasses = 1)

section
variable {r r' : BitReader} {c : Contribution} {cb : CodeBlock} {lBlock cleanup refinement : ℕ}

theorem firstPasses_eq {p : ℕ} (hp : 0 < p) : firstPasses p p = (p - 1) / 3 * 3 + 1 := by
  unfold firstPasses
  rw [if_neg (by omega)]
  omega

theorem aligned_iff (htotal : cb.htTotalCodingPasses = 0) {p : ℕ} (hp : 0 < p) (hp' : p ≤ 164) :
    Aligned p p cb ↔ cb.missingBitPlanes + (p - 1) / 3 ≤ 255 := by
  have hplanes : (cb.htTotalCodingPasses + (p - (p - 1) % 3) - 1) / 3 = (p - 1) / 3 := by omega
  constructor
  · intro h
    have := h.planes
    rwa [hplanes] at this
  · intro h
    exact ⟨by omega, by omega, by omega, by rwa [hplanes]⟩

theorem firstSegments_refinementOnly (hrefinement : refinement ≠ 0) {p total : ℕ} :
    ¬∃ segments, FirstSegments r p total cb segments r' ∧ Carries segments 0 refinement := by
  rintro ⟨segments, hsegments, hcarries⟩
  cases hsegments with
  | placeholder => exact Carries.not_nil hrefinement hcarries
  | cleanup => exact Carries.not_of_even rfl hcarries
  | both => exact Carries.not_of_even rfl hcarries

theorem firstSegments_singlePass (htotal : cb.htTotalCodingPasses = 0)
    (hplanes : cb.missingBitPlanes ≤ 255)
    (hread : readSegmentLength r cb.lBlock 1 = .ok (cleanup, r')) :
    (∃ segments, FirstSegments r 1 1 cb segments r' ∧ Carries segments cleanup 0) ↔
      cleanup ≠ 1 ∧ cleanup < 65535 := by
  constructor
  · rintro ⟨segments, hsegments, -⟩
    cases hsegments with
    | placeholder r₁ _ hread₁ =>
        cases hread.symm.trans hread₁
        decide
    | cleanup length _ hread₁ hrange =>
        cases hread.symm.trans hread₁
        omega
    | both _ _ _ _ _ _ _ hrefinement => exact absurd rfl hrefinement
  · rintro ⟨hone, hhigh⟩
    by_cases hzero : cleanup = 0
    · rw [hzero] at hread ⊢
      exact ⟨[], .placeholder r' r' hread rfl, rfl, rfl⟩
    · have haligned := (aligned_iff htotal Nat.one_pos (by decide)).mpr hplanes
      exact ⟨_, .cleanup cleanup r' hread (by omega) haligned rfl,
        by simp [lengthsOf, segmentOf, hzero], by simp [lengthsOf, segmentOf]⟩

theorem firstSegments_multiPass {p : ℕ} {r₁ : BitReader} (hp : 1 < p ∧ p ≤ 164)
    (hlBlock : 3 ≤ cb.lBlock) (htotal : cb.htTotalCodingPasses = 0)
    (hread : readSegmentLength r cb.lBlock (firstPasses p p) = .ok (cleanup, r₁))
    (hcleanup : 2 ≤ cleanup ∧ cleanup < 65535) (hrefinement : refinement ≠ 0 ∧ refinement < 2047)
    (htail : Presents r₁ (fieldBits refinement (refinementBits cb.lBlock p)) r')
    (hfits : valueFitsInBits refinement (refinementBits cb.lBlock p))
    (hle : refinementBits cb.lBlock p ≤ 255) :
    (∃ segments, FirstSegments r p p cb segments r' ∧ Carries segments cleanup refinement) ↔
      (p = 2 ∨ p % 3 = 0) ∧ cb.missingBitPlanes + (p - 1) / 3 ≤ 255 := by
  have hpos : 0 < p := by omega
  constructor
  · rintro ⟨segments, hsegments, -⟩
    cases hsegments with
    | placeholder _ _ hread₁ =>
        cases hread.symm.trans hread₁
        omega
    | cleanup _ _ hread₁ =>
        -- the refinement length is left in front of the reader
        cases hread.symm.trans hread₁
        have := htail.curPos
        rw [length_fieldBits, refinementBits, refinementExtraBits] at this
        omega
    | both _ _ _ _ hread₁ _ haligned hpasses hread₂ =>
        cases hread.symm.trans hread₁
        refine ⟨?_, (aligned_iff htotal hpos hp.2).mp haligned⟩
        -- as many bits are read as were written
        obtain ⟨bits, hlen, hbits⟩ := readSegmentLength_presents hread₂
        rw [hbits.eq_of_eq htail, length_fieldBits, refinementBits, refinementExtraBits] at hlen
        rcases (by omega : (p - 1) % 3 = 1 ∨ (p - 1) % 3 = 2) with hone | htwo
        · rw [hone, show Nat.log2 1 = 0 from rfl] at hlen
          split_ifs at hlen <;> omega
        · omega
  · rintro ⟨hpasses, hplanes⟩
    have haligned := (aligned_iff htotal hpos hp.2).mpr hplanes
    have hbits : refinementBits cb.lBlock p = cb.lBlock + ((p - 1) % 3).log2 := by
      unfold refinementBits refinementExtraBits
      rcases hpasses with rfl | hthree
      · rfl
      · rw [if_pos (by omega), show (p - 1) % 3 = 2 by omega]
        rfl
    rw [hbits] at htail hfits hle
    have hread₂ := readSegmentLength_spec htail (by omega) hfits hle
    refine ⟨_, .both cleanup refinement r₁ r' hread hcleanup haligned (by omega) hread₂
      hrefinement.2, ?_, ?_⟩
    · simp [lengthsOf, segmentOf, show cleanup ≠ 0 by omega]
    · simp [lengthsOf, segmentOf, hrefinement.1]

end

/-! ## Refinement passes alone -/

section
variable {r r' : BitReader} {cb : CodeBlock} {refinement p firstCleanupPass : ℕ}

theorem placeSegment_cleanup {cb' : CodeBlock} {setIndex contributionPasses length : ℕ}
    {pushed : List Segment} (hlength : length ≠ 0)
    (h : placeSegment cb setIndex 0 contributionPasses length = .ok (cb', pushed)) :
    pushed = [⟨setIndex * 2, contributionPasses, length⟩] := by
  unfold placeSegment at h
  rw [if_pos rfl, if_neg hlength] at h
  cases hset : cb.htSelectedSet with
  | none =>
      rw [hset] at h
      dsimp only at h
      split_ifs at h
  | some previousSet =>
      rw [hset] at h
      dsimp only at h
      split_ifs at h
      cases h
      rfl

theorem placeSegment_refinement {cb' : CodeBlock}
    {setIndex passInSet contributionPasses length : ℕ} {pushed : List Segment}
    (hlength : length ≠ 0) (hpass : passInSet ≠ 0)
    (h : placeSegment cb setIndex passInSet contributionPasses length = .ok (cb', pushed)) :
    cb.htSelectedSet = some setIndex := by
  unfold placeSegment at h
  rw [if_neg hpass] at h
  split_ifs at h
  assumption

theorem refinementOnly_bits {l passes : ℕ} (hpos : 0 < passes) (hle : passes ≤ 2) :
    bitsForHtRefinementOnlyLength l passes = l + passes.log2 := by
  interval_cases passes <;> rfl

/-- A contribution of refinement passes behind the first cleanup segment. -/
theorem laterSegments_agree_iff (hlBlock : 3 ≤ cb.lBlock) (hp : 0 < p)
    (hrefinement : refinement ≠ 0 ∧ refinement < 2047)
    (hpast : firstCleanupPass < cb.htTotalCodingPasses)
    (htotal : cb.htTotalCodingPasses + p ≤ maxCodingPasses)
    (htail : Presents r (fieldBits refinement (bitsForHtRefinementOnlyLength cb.lBlock p)) r')
    (hfits : valueFitsInBits refinement (bitsForHtRefinementOnlyLength cb.lBlock p))
    (hle : bitsForHtRefinementOnlyLength cb.lBlock p ≤ 255) :
    (∃ cb' segments, parseLaterSegments firstCleanupPass p cb.htTotalCodingPasses p cb r =
        .ok (cb', segments, r') ∧ Carries segments 0 refinement) ↔
      cb.htSelectedSet = some ((cb.htTotalCodingPasses - firstCleanupPass) / 3) ∧
        ((cb.htTotalCodingPasses - firstCleanupPass) % 3 = 1 ∧ p ≤ 2 ∨
          (cb.htTotalCodingPasses - firstCleanupPass) % 3 = 2 ∧ p = 1) := by
  obtain ⟨turns, rfl⟩ := Nat.exists_eq_succ_of_ne_zero hp.ne'
  have hread (hsmall : turns + 1 ≤ 2) :
      readSegmentLength r cb.lBlock (turns + 1) = .ok (refinement, r') := by
    rw [refinementOnly_bits hp hsmall] at htail hfits hle
    exact readSegmentLength_spec htail (by omega) hfits hle
  constructor
  · rintro ⟨cb', segments, h, hcarries⟩
    obtain ⟨relativePass, passes, length, r₁, cb₁, pushed, rest, hrelative, hpasses, hread₁, hplace,
      hrest, rfl⟩ := parseLaterSegments_turn (Nat.succ_ne_zero turns) h
    have hall : passes = turns + 1 := by
      -- another turn would read more bits than were written
      obtain ⟨bits, hlen, hbits⟩ := readSegmentLength_presents hread₁
      obtain ⟨-, more, hmore, hleft⟩ := parseLaterSegments_reads 0 hrest
      have hlength := congrArg List.length
        ((presents_append.mpr ⟨r₁, hbits, hmore⟩).eq_of_eq htail)
      rw [List.length_append, length_fieldBits, hlen, bitsForHtRefinementOnlyLength] at hlength
      by_contra hne
      have hpos : 0 < passes := by
        rw [hpasses]
        split_ifs <;> omega
      have := hleft (by omega) (by omega)
      rw [(placeSegment_kept 0 hplace).lBlock] at this
      split_ifs at hlength <;> omega
    have hsmall : turns + 1 ≤ if relativePass % 3 = 1 then 2 else 1 := by omega
    rw [hall] at hread₁ hplace hrest
    have hlength : length = refinement := by
      have heq := hread₁.symm.trans (hread (by split_ifs at hsmall <;> omega))
      cases heq
      rfl
    rw [hlength] at hplace
    rw [show cb.htTotalCodingPasses - firstCleanupPass = relativePass by omega]
    by_cases hcleanup : relativePass % 3 = 0
    · rw [hcleanup] at hplace
      rw [placeSegment_cleanup hrefinement.1 hplace] at hcarries
      exact absurd hcarries (Carries.not_of_even (Nat.mul_mod_left _ 2))
    · refine ⟨placeSegment_refinement hrefinement.1 hcleanup hplace, ?_⟩
      split_ifs at hsmall <;> omega
  · rintro ⟨hset, hpasses⟩
    have hmax : maxCodingPasses = 187 := rfl
    have hmin : min (turns + 1)
        (if (cb.htTotalCodingPasses - firstCleanupPass) % 3 = 1 then 2 else 1) = turns + 1 := by
      split_ifs <;> omega
    unfold parseLaterSegments
    rw [if_neg (Nat.succ_ne_zero turns), if_neg (by omega)]
    dsimp only
    rw [hmin, hread (by omega), ok_bind]
    dsimp only
    unfold placeSegment
    rw [if_neg (by omega), if_neg (by omega), if_neg (by omega), if_pos hset, ok_bind]
    dsimp only
    rw [Nat.sub_self, parseLaterSegments_done]
    refine ⟨_, _, rfl, ?_, ?_⟩
    · simp [lengthsOf, segmentOf]
    · simp [lengthsOf, segmentOf, hrefinement.1]

end

/-! ## Contributions -/

section
variable {r r' r₁ r₂ : BitReader} {c : Contribution} {cb cb' : CodeBlock}
variable {segments : List Segment} {fields passes : List HeaderField} {includedFirstTime : Bool}
variable {lBlock lBlock' p total : ℕ}

theorem numPasses_bounds (h : encodeNumHtCodingPasses p = .ok passes) : 0 < p ∧ p ≤ 164 := by
  unfold encodeNumHtCodingPasses at h
  split_ifs at h <;> omega

theorem lengths_of_encode (h : encodeHtSegmentLengthsWithLblock c lBlock = .ok (fields, lBlock')) :
    ∃ lengths, htSegmentLengths c = .ok lengths := by
  unfold encodeHtSegmentLengthsWithLblock at h
  cases hlengths : htSegmentLengths c with
  | error e =>
      rw [hlengths] at h
      split_ifs at h
      cases h
  | ok lengths => exact ⟨lengths, rfl⟩

theorem parseSegments_kept (htotal : total = cb.htTotalCodingPasses + p)
    (h : parseSegments r p total cb = .ok (cb', segments, r')) :
    Kept total cb cb' ∧ cb'.htTotalCodingPasses = total := by
  unfold parseSegments at h
  cases hfirst : cb.htFirstCleanupPass with
  | none =>
      rw [hfirst] at h
      exact (firstSegments_of_parse htotal h).2
  | some firstCleanupPass =>
      rw [hfirst] at h
      obtain ⟨⟨cb₁, segments₁, r₁⟩, hparse, h⟩ := bind_eq_ok.mp h
      obtain ⟨hkept, -⟩ := parseLaterSegments_reads total hparse
      cases h
      exact ⟨⟨hkept.lBlock, hkept.layers, hkept.planes, hkept.past⟩, rfl⟩

/-- The parse of a contribution is that of its segments. -/
theorem parseContribution_iff {k : ℕ} {P : List Segment → Prop}
    (hpasses : encodeNumHtCodingPasses p = .ok passes)
    (hr₁ : Presents r (bitsOfFields passes) r₁) (hr₂ : Presents r₁ (List.replicate k true ++ [false]) r₂)
    (hfirst : includedFirstTime → cb.isFresh)
    (htotal : cb.htTotalCodingPasses + p ≤ maxCodingPasses)
    (hlBlock : cb.lBlock + k ≤ 255) (hlayers : cb.nonEmptyLayerCount < 32) :
    (∃ cb' segments, parseContribution includedFirstTime r cb = .ok (cb', segments, r') ∧
      cb'.lBlock = cb.lBlock + k ∧ P segments) ↔
    ∃ cb' segments, parseSegments r₂ p ((raised cb k).htTotalCodingPasses + p) (raised cb k) =
      .ok (cb', segments, r') ∧ P segments := by
  rw [parseContribution_eq hpasses hr₁ hr₂ (by omega) hfirst htotal (by omega)]
  constructor
  · rintro ⟨cb', segments, h, -, hP⟩
    obtain ⟨⟨cb₁, segments₁, r₃⟩, hparse, h⟩ := bind_eq_ok.mp h
    dsimp only at h
    split_ifs at h
    cases h
    exact ⟨cb₁, segments, hparse, hP⟩
  · rintro ⟨cb', segments, h, hP⟩
    have hkept := (parseSegments_kept rfl h).1
    have hlayers' : cb'.nonEmptyLayerCount = cb.nonEmptyLayerCount := hkept.layers
    rw [show cb.htTotalCodingPasses = (raised cb k).htTotalCodingPasses from rfl, h, ok_bind]
    dsimp only
    rw [if_neg (by omega)]
    exact ⟨_, segments, rfl, hkept.lBlock, hP⟩

end

/-! ## Reached states -/

/-- The code blocks that the parser comes to. -/
inductive Reached : CodeBlock → Prop
  | included (missingBitPlanes : ℕ) : missingBitPlanes ≤ 255 →
      Reached ⟨missingBitPlanes, 0, 0, none, none, none, 3, 0⟩
  | parsed {cb cb' : CodeBlock} {includedFirstTime : Bool} {r r' : BitReader}
      {segments : List Segment} : Reached cb →
      parseContribution includedFirstTime r cb = .ok (cb', segments, r') → Reached cb'

/-- What holds of them. -/
structure Sound (cb : CodeBlock) : Prop where
  missingBitPlanes : cb.missingBitPlanes ≤ 255
  lBlock : 3 ≤ cb.lBlock
  past : ∀ firstCleanupPass, cb.htFirstCleanupPass = some firstCleanupPass →
    firstCleanupPass < cb.htTotalCodingPasses

theorem parseContribution_cases {includedFirstTime : Bool} {r r' : BitReader} {cb cb' : CodeBlock}
    {segments : List Segment}
    (h : parseContribution includedFirstTime r cb = .ok (cb', segments, r')) :
    ∃ p k r₁ cb₁, parseSegments r₁ p (cb.htTotalCodingPasses + p)
        { cb with lBlock := cb.lBlock + k } = .ok (cb₁, segments, r') ∧
      cb' = { cb₁ with nonEmptyLayerCount := cb₁.nonEmptyLayerCount + 1 } := by
  unfold parseContribution at h
  obtain ⟨⟨p, r₁⟩, -, h⟩ := bind_eq_ok.mp h
  dsimp only at h
  split_ifs at h
  obtain ⟨⟨cb₁, segments₁, r₂⟩, hparse, h⟩ := bind_eq_ok.mp h
  dsimp only at h
  split_ifs at h
  cases h
  unfold parseSegmentLengths at hparse
  dsimp only at hparse
  split_ifs at hparse
  obtain ⟨⟨k, r₃⟩, -, hparse⟩ := bind_eq_ok.mp hparse
  dsimp only at hparse
  split_ifs at hparse
  exact ⟨p, k, r₃, cb₁, hparse, rfl⟩

theorem sound_of_reached {cb : CodeBlock} (h : Reached cb) : Sound cb := by
  induction h with
  | included missingBitPlanes hplanes => exact ⟨hplanes, le_rfl, fun _ hpass => by cases hpass⟩
  | parsed _ hparse ih =>
      obtain ⟨p, k, r₁, cb₁, hsegments, rfl⟩ := parseContribution_cases hparse
      obtain ⟨hkept, htotal⟩ := parseSegments_kept rfl hsegments
      refine ⟨hkept.planes ih.missingBitPlanes, ?_, fun pass hpass => ?_⟩
      · have := hkept.lBlock
        have := ih.lBlock
        dsimp only at *
        omega
      · change pass < cb₁.htTotalCodingPasses
        rw [htotal]
        rcases hkept.past pass hpass with hold | hnew
        · exact (ih.past pass hold).trans_le (Nat.le_add_right _ _)
        · exact hnew

/-! ## The header bits of a contribution -/

/-- The parser reads back what was written of a contribution, wherever it stands in a packet
header: the lengths, the L-block, and no bit too few or too many. -/
def RoundTrips (includedFirstTime : Bool) (c : Contribution) (cb : CodeBlock) (bits : List Bool)
    (lBlock' : ℕ) : Prop :=
  ∃ cleanup refinement, htSegmentLengths c = .ok (cleanup, refinement) ∧
    ∀ pre post, ∃ cb' segments,
      parseContribution includedFirstTime ⟨written (pre ++ bits ++ post), placeAfter pre⟩ cb =
        .ok (cb', segments, ⟨written (pre ++ bits ++ post), placeAfter (pre ++ bits)⟩) ∧
      cb'.lBlock = lBlock' ∧ Carries segments cleanup refinement

/-- The condition on a contribution and the state of its code block. -/
def Agrees (includedFirstTime : Bool) (c : Contribution) (cb : CodeBlock) : Prop :=
  if includedFirstTime then FirstAgrees c cb else LaterAgrees c cb

section
variable {r r' r₁ r₂ : BitReader} {c : Contribution} {cb : CodeBlock}
variable {bits : List Bool} {passes : List HeaderField} {includedFirstTime : Bool}
variable {lBlock' cleanup refinement p total k : ℕ}

theorem parseSegments_first_iff {P : List Segment → Prop} (hnone : cb.htFirstCleanupPass = none)
    (htotal : total = cb.htTotalCodingPasses + p) :
    (∃ cb' segments, parseSegments r p total cb = .ok (cb', segments, r') ∧ P segments) ↔
      ∃ segments, FirstSegments r p total cb segments r' ∧ P segments := by
  unfold parseSegments
  rw [hnone]
  constructor
  · rintro ⟨cb', segments, h, hP⟩
    exact ⟨segments, (firstSegments_of_parse htotal h).1, hP⟩
  · rintro ⟨segments, h, hP⟩
    obtain ⟨cb', hparse, -⟩ := parse_of_firstSegments h
    exact ⟨cb', segments, hparse, hP⟩

theorem parseSegments_later_iff {P : List Segment → Prop} {firstCleanupPass : ℕ}
    (hsome : cb.htFirstCleanupPass = some firstCleanupPass) :
    (∃ cb' segments, parseSegments r p total cb = .ok (cb', segments, r') ∧ P segments) ↔
      ∃ cb' segments, parseLaterSegments firstCleanupPass p cb.htTotalCodingPasses p cb r =
        .ok (cb', segments, r') ∧ P segments := by
  unfold parseSegments
  rw [hsome]
  constructor
  · rintro ⟨cb', segments, h, hP⟩
    obtain ⟨⟨cb₁, segments₁, r₁⟩, hparse, h⟩ := bind_eq_ok.mp h
    cases h
    exact ⟨cb₁, segments, hparse, hP⟩
  · rintro ⟨cb', segments, h, hP⟩
    exact ⟨_, segments, bind_eq_ok.mpr ⟨_, h, rfl⟩, hP⟩

theorem fresh_spec (h : cb.isFresh) :
    cb.htTotalCodingPasses = 0 ∧ cb.htFirstCleanupPass = none := by
  simp only [CodeBlock.isFresh, decide_eq_true_eq] at h
  exact ⟨h.2.1, h.2.2.1⟩

/-- A contribution of refinement passes alone. -/
theorem refinementOnly_read_iff (hsound : Sound cb) (hlayers : cb.nonEmptyLayerCount < 32)
    (hfirst : includedFirstTime → cb.isFresh)
    (hpasses : encodeNumHtCodingPasses c.numCodingPasses = .ok passes)
    (hkind : c.htCleanupLength = 0 ∧ c.htRefinementLength ≠ 0 ∧ c.htRefinementLength < 2047)
    (hr₁ : Presents r (bitsOfFields passes) r₁) (hr₂ : Presents r₁ (List.replicate k true ++ [false]) r₂)
    (htail : Presents r₂ (fieldBits c.htRefinementLength
      (bitsForHtRefinementOnlyLength (cb.lBlock + k) c.numCodingPasses)) r')
    (hfits : valueFitsInBits c.htRefinementLength
      (bitsForHtRefinementOnlyLength (cb.lBlock + k) c.numCodingPasses))
    (hle : bitsForHtRefinementOnlyLength (cb.lBlock + k) c.numCodingPasses ≤ 255) :
    (∃ cb' segments, parseContribution includedFirstTime r cb = .ok (cb', segments, r') ∧
      cb'.lBlock = cb.lBlock + k ∧ Carries segments 0 c.htRefinementLength) ↔
      Agrees includedFirstTime c cb := by
  have hp := numPasses_bounds hpasses
  have hlBlock : cb.lBlock + k ≤ 255 := (Nat.le_add_right _ _).trans hle
  have hl := hsound.lBlock
  have hnotFirst : ¬FirstAgrees c cb := by
    rintro (⟨-, hnone, -⟩ | ⟨hsome, -⟩)
    · exact hkind.2.1 hnone
    · exact hsome hkind.1
  by_cases htotal : cb.htTotalCodingPasses + c.numCodingPasses ≤ maxCodingPasses
  · rw [parseContribution_iff hpasses hr₁ hr₂ hfirst htotal hlBlock hlayers]
    obtain hpass | ⟨firstCleanupPass, hpass⟩ := Option.eq_none_or_eq_some cb.htFirstCleanupPass
    · rw [parseSegments_first_iff (show (raised cb k).htFirstCleanupPass = none from hpass) rfl]
      refine iff_of_false (firstSegments_refinementOnly hkind.2.1) ?_
      unfold Agrees
      split_ifs
      · exact hnotFirst
      · rintro ⟨_, hmap, -⟩
        rw [hpass] at hmap
        cases hmap
    · have hpast := hsound.past firstCleanupPass hpass
      have hnotFresh : includedFirstTime = false := by
        cases includedFirstTime with
        | false => rfl
        | true => cases (fresh_spec (hfirst rfl)).2.symm.trans hpass
      rw [parseSegments_later_iff
        (show (raised cb k).htFirstCleanupPass = some firstCleanupPass from hpass)]
      refine (@laterSegments_agree_iff r₂ r' (raised cb k)
        c.htRefinementLength c.numCodingPasses firstCleanupPass
        (show 3 ≤ cb.lBlock + k by omega) hp.1 hkind.2 hpast htotal htail hfits hle).trans ?_
      unfold Agrees LaterAgrees
      rw [hnotFresh, hpass, if_neg Bool.false_ne_true]
      constructor
      · rintro ⟨hset, hrelative⟩
        exact ⟨cb.htTotalCodingPasses - firstCleanupPass,
          congrArg some (Nat.add_sub_cancel' hpast.le), hset, htotal, hrelative⟩
      · rintro ⟨relativePass, hmap, hset, -, hrelative⟩
        have heq : firstCleanupPass + relativePass = cb.htTotalCodingPasses := Option.some.inj hmap
        rw [raised_total, show cb.htTotalCodingPasses - firstCleanupPass = relativePass by omega]
        exact ⟨hset, hrelative⟩
  · refine iff_of_false ?_ ?_
    · rintro ⟨cb', segments, h, -⟩
      exact htotal (total_le_of_parse hpasses hr₁ h)
    · unfold Agrees
      split_ifs
      · exact hnotFirst
      · rintro ⟨_, -, -, hle, -⟩
        exact htotal hle

/-- A first contribution with a cleanup segment. -/
theorem cleanup_read_iff (hsound : Sound cb) (hlayers : cb.nonEmptyLayerCount < 32)
    (hfresh : cb.isFresh) (hpasses : encodeNumHtCodingPasses c.numCodingPasses = .ok passes)
    (hlengths : Kind c cleanup refinement) (hkind : ¬(cleanup = 0 ∧ refinement ≠ 0))
    (hr₁ : Presents r (bitsOfFields passes) r₁) (hr₂ : Presents r₁ (List.replicate k true ++ [false]) r₂)
    (htail : Presents r₂ (fieldBits cleanup
        (bitsForHtCleanupLength (cb.lBlock + k) c.numCodingPasses) ++
      (if c.numCodingPasses > 1 then
        fieldBits refinement (refinementBits (cb.lBlock + k) c.numCodingPasses) else [])) r')
    (hfits : valueFitsInBits cleanup (bitsForHtCleanupLength (cb.lBlock + k) c.numCodingPasses))
    (hle : bitsForHtCleanupLength (cb.lBlock + k) c.numCodingPasses ≤ 255)
    (hmore : c.numCodingPasses > 1 →
      valueFitsInBits refinement (refinementBits (cb.lBlock + k) c.numCodingPasses) ∧
        refinementBits (cb.lBlock + k) c.numCodingPasses ≤ 255) :
    (∃ cb' segments, parseContribution true r cb = .ok (cb', segments, r') ∧
      cb'.lBlock = cb.lBlock + k ∧ Carries segments cleanup refinement) ↔ FirstAgrees c cb := by
  have hp := numPasses_bounds hpasses
  obtain ⟨hzero, hnone⟩ := fresh_spec hfresh
  have hl := hsound.lBlock
  have hlBlock : cb.lBlock + k ≤ 255 := (Nat.le_add_right _ _).trans hle
  have htotal : cb.htTotalCodingPasses + c.numCodingPasses ≤ maxCodingPasses := by
    rw [hzero, Nat.zero_add]
    exact hp.2.trans (by decide)
  rw [parseContribution_iff hpasses hr₁ hr₂ (fun _ => hfresh) htotal hlBlock hlayers,
    parseSegments_first_iff (show (raised cb k).htFirstCleanupPass = none from hnone) rfl,
    raised_total, hzero, Nat.zero_add]
  obtain ⟨r₃, hfield, hrest⟩ := presents_append.mp htail
  have hwidth : bitsForHtCleanupLength (cb.lBlock + k) c.numCodingPasses =
      cb.lBlock + k + (firstPasses c.numCodingPasses c.numCodingPasses).log2 := by
    rw [firstPasses_eq hp.1]
    rfl
  rw [hwidth] at hfield hfits hle
  cases hlengths with
  | refinementOnly _ hrefinement _ => exact absurd ⟨rfl, hrefinement⟩ hkind
  | singlePass hsingle hnone hlen =>
      have hread := readSegmentLength_spec hfield hlen hfits hle
      rw [hsingle] at hrest hread ⊢
      rw [if_neg (lt_irrefl 1)] at hrest
      rw [show r₃ = r' from hrest] at hread
      refine (@firstSegments_singlePass r₂ r' (raised cb k) c.dataLen hzero
        hsound.missingBitPlanes hread).trans ?_
      unfold FirstAgrees
      rw [hsingle]
      constructor
      · exact fun h => Or.inl ⟨rfl, hnone, h⟩
      · rintro (⟨-, -, h⟩ | ⟨-, htwo | hthree, -⟩)
        · exact h
        · cases htwo
        · cases hthree
  | multiPass hmulti hlow hhigh hrefinement hsmall =>
      have hread := readSegmentLength_spec hfield (by omega) hfits hle
      obtain ⟨hfits₂, hle₂⟩ := hmore hmulti
      rw [if_pos hmulti] at hrest
      refine (@firstSegments_multiPass r₂ r' (raised cb k) c.htCleanupLength
        c.htRefinementLength c.numCodingPasses r₃ ⟨hmulti, hp.2⟩ (show 3 ≤ cb.lBlock + k by omega)
        hzero hread ⟨hlow, hhigh⟩ ⟨hrefinement, hsmall⟩ hrest hfits₂ hle₂).trans ?_
      unfold FirstAgrees
      constructor
      · exact fun h => Or.inr ⟨by omega, h⟩
      · rintro (⟨hsingle, -⟩ | ⟨-, h⟩)
        · omega
        · exact h

/-- What any reader makes of the bits of a contribution. -/
theorem contribution_read_iff (hwrite : encodeContribution c cb.lBlock = .ok (bits, lBlock'))
    (hlengths : htSegmentLengths c = .ok (cleanup, refinement)) (hsound : Sound cb)
    (hlayers : cb.nonEmptyLayerCount < 32) (hfirst : includedFirstTime → cb.isFresh)
    (hlater : ¬includedFirstTime → c.htCleanupLength = 0 ∧ c.htRefinementLength ≠ 0)
    (hr : Presents r bits r') :
    (∃ cb' segments, parseContribution includedFirstTime r cb = .ok (cb', segments, r') ∧
      cb'.lBlock = lBlock' ∧ Carries segments cleanup refinement) ↔
      Agrees includedFirstTime c cb := by
  obtain ⟨⟨fields, _⟩, hfields, hwrite⟩ := bind_eq_ok.mp hwrite
  cases hwrite
  obtain ⟨passes, hpasses, hfields⟩ := bind_eq_ok.mp hfields
  obtain ⟨⟨lengths, raisedLBlock⟩, hwritten, hfields⟩ := bind_eq_ok.mp hfields
  cases hfields
  rw [bitsOfFields_append] at hr
  obtain ⟨r₁, hr₁, hr⟩ := presents_append.mp hr
  have hkind := htSegmentLengths_kind (numPasses_bounds hpasses).1.ne' hlengths
  by_cases honly : cleanup = 0 ∧ refinement ≠ 0
  · obtain ⟨rfl, hne⟩ := honly
    obtain ⟨k, rfl, hbits, hfits, hle⟩ := encodeLengths_refinementOnly hlengths hne hwritten
    rw [hbits] at hr
    obtain ⟨r₂, hr₂, htail⟩ := presents_append.mp hr
    generalize hzero : 0 = cleanup at hkind
    cases hkind with
    | refinementOnly hcleanup hrefinement hsmall =>
        exact refinementOnly_read_iff hsound hlayers hfirst hpasses ⟨hcleanup, hrefinement, hsmall⟩
          hr₁ hr₂ htail hfits hle
    | singlePass => exact absurd rfl hne
    | multiPass _ hlow => omega
  · obtain ⟨k, rfl, hbits, hfits, hle, hmore⟩ := encodeLengths_cleanup hlengths honly hwritten
    rw [hbits, List.append_assoc] at hr
    obtain ⟨r₂, hr₂, htail⟩ := presents_append.mp hr
    have hfirstTime : includedFirstTime = true := by
      by_contra hnot
      obtain ⟨hcleanup, hrefinement⟩ := hlater hnot
      cases hkind with
      | refinementOnly => exact honly ⟨rfl, hrefinement⟩
      | singlePass _ hnone => exact hrefinement hnone
      | multiPass _ hlow => omega
    rw [hfirstTime]
    exact cleanup_read_iff hsound hlayers (hfirst hfirstTime) hpasses hkind honly hr₁ hr₂ htail hfits
      hle hmore

/-- A contribution that the writer accepts is read back exactly when the passes behind its last
complete set are those for which the writer chose the width of the refinement length. -/
theorem ht_contribution_round_trip_iff
    (hwrite : encodeContribution c cb.lBlock = .ok (bits, lBlock')) (hreached : Reached cb)
    (hlayers : cb.nonEmptyLayerCount < 32) (hfirst : includedFirstTime → cb.isFresh)
    (hlater : ¬includedFirstTime → c.htCleanupLength = 0 ∧ c.htRefinementLength ≠ 0) :
    RoundTrips includedFirstTime c cb bits lBlock' ↔ Agrees includedFirstTime c cb := by
  have hsound := sound_of_reached hreached
  constructor
  · rintro ⟨cleanup, refinement, hlengths, hread⟩
    exact (contribution_read_iff hwrite hlengths hsound hlayers hfirst hlater
      (presents_written [] bits [])).mp (hread [] [])
  · intro hagrees
    obtain ⟨_, hfields, -⟩ := bind_eq_ok.mp hwrite
    obtain ⟨passes, hpasses, hrest⟩ := bind_eq_ok.mp hfields
    obtain ⟨⟨lengths, _⟩, hwritten, -⟩ := bind_eq_ok.mp hrest
    obtain ⟨⟨cleanup, refinement⟩, hlengths⟩ := lengths_of_encode hwritten
    exact ⟨cleanup, refinement, hlengths, fun pre post =>
      (contribution_read_iff hwrite hlengths hsound hlayers hfirst hlater
        (presents_written pre bits post)).mpr hagrees⟩

end

/-- A code block before its first contribution, without missing bit planes. -/
def newBlock : CodeBlock := ⟨0, 0, 0, none, none, none, 3, 0⟩

/-- A cleanup pass and two refinement passes. -/
theorem ht_contribution_round_trip_three_passes :
    RoundTrips true ⟨3, 15, 10, 5⟩ newBlock
      [true, true, false, false, true, false, true, false, true, false, false, false, true, false,
        true] 4 :=
  (ht_contribution_round_trip_iff rfl (.included 0 (by decide)) (by decide) (fun _ => rfl)
    (fun h => absurd rfl h)).mpr (Or.inr ⟨by decide, Or.inr rfl, by decide⟩)

/-- Of five passes, one behind the last complete set, the writer writes the refinement length
with a bit more than the parser reads, which takes 5 for 2. -/
theorem ht_contribution_misread : ∃ bits cb' segments r',
    encodeContribution ⟨5, 15, 10, 5⟩ newBlock.lBlock = .ok (bits, 3) ∧
    parseContribution true ⟨written bits, 0⟩ newBlock = .ok (cb', segments, r') ∧
    lengthsOf 1 segments = [2] ∧ r'.curPos < placeAfter bits :=
  ⟨[true, true, true, false, false, false, true, false, true, false, false, true, false, true],
    _, _, _, rfl, rfl, by decide, by decide⟩

end J2kNative.HtRoundTrip
