import J2kNative.EncodeBudget

/-!
# Chunks joined are the serial bytes

A segment's emission is the same in any writer, but for the padding of the bits
before it. A chunk's own padding at its end is the padding that the serial writer
puts before the next marker. The planned capacity bounds every chunk because a
block takes at most 1985 bits.
-/
namespace J2kNative

open Emission

/-! ## Cost of emissions -/

/-- What a writer may have pending: less than a byte, and nothing odd when nothing. -/
def PendingBits (current used : ℕ) : Prop := used < 8 ∧ (used = 0 → current = 0)

/-- The emission keeps pending bits in order; counting eight for a byte and two for a
pending bit it adds at most `n`. -/
def Emission.Costs (e : Emission) (n : ℕ) : Prop :=
  ∀ current used, PendingBits current used →
    PendingBits (e current used).2.1 (e current used).2.2 ∧
      8*(e current used).1.length+2*(e current used).2.2 ≤ 2*used+n

theorem Emission.Costs.mono {e : Emission} {m n : ℕ} (h : e.Costs m) (hmn : m ≤ n) : e.Costs n :=
  fun current used hp => ⟨(h current used hp).1,by have := (h current used hp).2; omega⟩

theorem Emission.Costs.andThen {e f : Emission} {m n : ℕ} (he : e.Costs m) (hf : f.Costs n) :
    (e.andThen f).Costs (m+n) := by
  intro current used hp
  obtain ⟨hp1,h1⟩ := he current used hp
  obtain ⟨hp2,h2⟩ := hf _ _ hp1
  refine ⟨hp2,?_⟩
  simp only [Emission.andThen,List.length_append]
  omega

theorem costs_nothing : nothing.Costs 0 := fun _ _ hp => ⟨hp,by simp [nothing]⟩

theorem costs_raw (bytes : List ℕ) : (raw bytes).Costs (8*bytes.length) :=
  fun _ _ hp => ⟨hp,by simp only [raw]; omega⟩

theorem length_stuffed (byte : ℕ) : (stuffed byte).length ≤ 2 := by
  unfold stuffed
  split_ifs <;> simp

theorem costs_bit (b : ℕ) : (bit b).Costs 2 := by
  intro current used hp
  unfold bit
  have hlen := length_stuffed (current*2 % 256+b)
  split_ifs with h
  · exact ⟨⟨by simp,fun _ => rfl⟩,by dsimp only; omega⟩
  · have := hp.1
    exact ⟨⟨by dsimp only; omega,by simp⟩,by simp only [List.length_nil]; omega⟩

theorem costs_bits (l : List ℕ) : (bits l).Costs (2*l.length) := by
  induction l with
  | nil => exact costs_nothing
  | cons b l ih => exact ((costs_bit b).andThen ih).mono (by rw [List.length_cons]; omega)

theorem costs_align : align.Costs 14 := by
  intro current used hp
  unfold align
  split_ifs with h
  · exact ⟨hp,by simp⟩
  · have hlen := length_stuffed (current*2^(8-used) % 256+(2^(8-used)-1))
    exact ⟨⟨by simp,fun _ => rfl⟩,by dsimp only; omega⟩

/-- A step that, where it emits, emits within the cost and yields a value in `I`. -/
def BoundedBy {α : Type} (m : Write α) (n : ℕ) (I : α → Prop) : Prop :=
  ∃ r, Realizes m r ∧ ∀ a e, r = some (a,e) → e.Costs n ∧ I a

section
variable {α β γ : Type} {I : α → Prop} {J : β → Prop}

theorem BoundedBy.mono {m : Write α} {n k : ℕ} (h : BoundedBy m n I) (hnk : n ≤ k) :
    BoundedBy m k I := by
  obtain ⟨r,hr,hcost⟩ := h
  exact ⟨r,hr,fun a e he => ⟨(hcost a e he).1.mono hnk,(hcost a e he).2⟩⟩

theorem boundedBy_pure {a : α} (ha : I a) : BoundedBy (pure a : Write α) 0 I :=
  ⟨_,realizes_pure a,fun _ _ h => by cases h; exact ⟨costs_nothing,ha⟩⟩

theorem boundedBy_throw (error : JpegEncodeError) (n : ℕ) :
    BoundedBy (throw error : Write α) n I :=
  ⟨none,fun _ _ => ⟨_,rfl⟩,nofun⟩

theorem BoundedBy.bind {m : Write α} {f : α → Write β} {n k : ℕ} (hm : BoundedBy m n I)
    (hf : ∀ a, I a → BoundedBy (f a) k J) : BoundedBy (m >>= f) (n+k) J := by
  obtain ⟨r,hr,hcost⟩ := hm
  cases r with
  | none => exact ⟨none,hr.none_bind,nofun⟩
  | some p =>
      obtain ⟨r',hr',hcost'⟩ := hf p.1 (hcost _ _ rfl).2
      cases r' with
      | none => exact ⟨none,Realizes.bind_none hr hr',nofun⟩
      | some q =>
          refine ⟨some (q.1,p.2.andThen q.2),Realizes.bind hr hr',fun a e h => ?_⟩
          cases h
          exact ⟨(hcost _ _ rfl).1.andThen (hcost' _ _ rfl).1,(hcost' _ _ rfl).2⟩

theorem boundedBy_foldlM {f : β → γ → Write β} {n : ℕ} (h : ∀ b c, J b → BoundedBy (f b c) n J)
    (l : List γ) {b : β} (hb : J b) : BoundedBy (l.foldlM f b) (n*l.length) J := by
  induction l generalizing b with
  | nil => exact boundedBy_pure hb
  | cons c l ih =>
      rw [List.foldlM_cons]
      exact ((h b c hb).bind fun b hb => ih hb).mono (by rw [List.length_cons,Nat.mul_succ]; omega)

end

/-! ## A block takes at most 1985 bits -/

theorem size_magnitude {value : ℤ} {n : ℕ} (h : value.natAbs < 2^n) : (magnitude value).1 ≤ n := by
  unfold magnitude
  by_cases hv : value = 0
  · rw [if_pos hv]
    exact Nat.zero_le n
  · rw [if_neg hv]
    exact Nat.size_le.mpr h

theorem length_symbolBits {table : JpegBaselineHuffmanTable} {symbol : ℕ} {l : List ℕ}
    (h : symbolBits table symbol = some l) : l.length ≤ 16 := by
  unfold symbolBits at h
  split_ifs at h
  cases h
  rw [length_codeBits]
  exact table.lens_le symbol

theorem length_valueBits {value : ℤ} {n : ℕ} (h : value.natAbs < 2^n) :
    (valueBits value).length ≤ n := by
  rw [valueBits,length_codeBits]
  exact size_magnitude h

theorem length_zeroRunBits {table : JpegBaselineHuffmanTable} {n : ℕ} {l : List ℕ}
    (h : zeroRunBits table n = some l) : l.length ≤ 16*n := by
  induction n generalizing l with
  | zero =>
      cases h
      simp
  | succ n ih =>
      obtain ⟨first,hfirst,h⟩ := Option.bind_eq_some_iff.mp h
      obtain ⟨rest,hrest,h⟩ := Option.bind_eq_some_iff.mp h
      cases h
      have h1 := length_symbolBits hfirst
      have h2 := ih hrest
      rw [List.length_append]
      omega

theorem length_acSymbolBits {table : JpegBaselineHuffmanTable} {zeroRun : ℕ} {coeff : ℤ}
    {l : List ℕ} (hcoeff : coeff.natAbs < 2^15) (h : acSymbolBits table zeroRun coeff = some l) :
    l.length ≤ zeroRun+31 := by
  obtain ⟨runs,hruns,h⟩ := Option.bind_eq_some_iff.mp h
  obtain ⟨symbol,hsymbol,h⟩ := Option.bind_eq_some_iff.mp h
  cases h
  have h1 := length_zeroRunBits hruns
  have h2 := length_symbolBits hsymbol
  have h3 := length_valueBits hcoeff
  rw [List.length_append,List.length_append]
  omega

/-- Every coefficient pays for 31 bits; those of a run wait until its end. -/
theorem length_acBits {table : JpegBaselineHuffmanTable} {coeffs : List ℤ} {zeroRun : ℕ}
    {l : List ℕ} (hcoeffs : ∀ c ∈ coeffs, c.natAbs < 2^15)
    (h : acBits table zeroRun coeffs = some l) : l.length ≤ 31*(zeroRun+coeffs.length) := by
  induction coeffs generalizing zeroRun l with
  | nil =>
      rw [acBits] at h
      split_ifs at h
      · have := length_symbolBits h
        omega
      · cases h
        simp
  | cons coeff coeffs ih =>
      rw [acBits] at h
      rw [List.length_cons]
      split_ifs at h
      · have := ih (fun c hc => hcoeffs c (List.mem_cons_of_mem _ hc)) h
        omega
      · obtain ⟨first,hfirst,h⟩ := Option.bind_eq_some_iff.mp h
        obtain ⟨rest,hrest,h⟩ := Option.bind_eq_some_iff.mp h
        cases h
        have h1 := length_acSymbolBits (hcoeffs coeff (by simp)) hfirst
        have h2 := ih (fun c hc => hcoeffs c (List.mem_cons_of_mem _ hc)) hrest
        rw [List.length_append]
        omega

theorem length_blockBits {block : QuantizedBlock} {prevDc : ℤ}
    {dcTable acTable : JpegBaselineHuffmanTable} {l : List ℕ} (hprev : prevDc.natAbs < 2^15)
    (h : blockBits block prevDc dcTable acTable = some l) : l.length ≤ 1985 := by
  obtain ⟨dc,hdc,h⟩ := Option.bind_eq_some_iff.mp h
  obtain ⟨ac,hac,h⟩ := Option.bind_eq_some_iff.mp h
  cases h
  have h1 := length_symbolBits hdc
  have h2 : (valueBits (block.coeff 0-prevDc)).length ≤ 16 := by
    refine length_valueBits ?_
    have := block.bounded 0
    omega
  have hacs : ∀ c ∈ block.acs, c.natAbs < 2^15 := by
    intro c hc
    obtain ⟨k,-,rfl⟩ := List.mem_map.mp hc
    exact block.bounded _
  have h3 := length_acBits hacs hac
  simp only [QuantizedBlock.acs,List.length_map,List.length_range'] at h3
  rw [List.length_append,List.length_append]
  omega

/-! ## Segments -/

theorem boundedBy_encodeBlock {block : QuantizedBlock} {prevDc : ℤ}
    {dcTable acTable : JpegBaselineHuffmanTable} (hprev : prevDc.natAbs < 2^15) :
    BoundedBy (encodeBlock block prevDc dcTable acTable) 3970 fun dc => dc.natAbs < 2^15 := by
  refine ⟨_,writesBits_encodeBlock block prevDc dcTable acTable,fun a e h => ?_⟩
  obtain ⟨l,hl,h⟩ := Option.map_eq_some_iff.mp h
  cases h
  have hlen := length_blockBits hprev hl
  exact ⟨(costs_bits l).mono (by omega),block.bounded 0⟩

namespace EntropyInput
variable {input : EntropyInput} {mcusPerRow totalMcus restartInterval : ℕ}

theorem length_mcuBlockOrder (sampling : JpegBaselineSampling) :
    (mcuBlockOrder sampling).length = blocksPerMcu sampling := by
  have h (l : List (ℕ × ℕ)) (n : ℕ) : ((l.zipIdx n).flatMap fun p =>
      (List.range p.1.2).flatMap fun blockY =>
        (List.range p.1.1).map fun blockX => (p.2,blockX,blockY)).length =
      (l.map fun factor => factor.1*factor.2).sum := by
    induction l generalizing n with
    | nil => rfl
    | cons factor l ih =>
        rw [List.zipIdx_cons,List.flatMap_cons,List.length_append,ih]
        simp [List.length_flatMap,Nat.mul_comm]
  exact h _ 0

theorem boundedBy_encodeMcu {prevDc : ℕ → ℤ} {mcuIndex : ℕ}
    (hprev : ∀ c, (prevDc c).natAbs < 2^15) :
    BoundedBy (encodeMcu input mcusPerRow prevDc mcuIndex) (3970*blocksPerMcu input.sampling)
      fun prevDc => ∀ c, (prevDc c).natAbs < 2^15 := by
  rw [← length_mcuBlockOrder]
  refine boundedBy_foldlM (fun prevDc place hprev => ?_) _ hprev
  unfold encodeMcuBlock
  refine BoundedBy.bind (n := 3970) (k := 0) (boundedBy_encodeBlock (hprev _)) fun dc hdc =>
    boundedBy_pure fun c => ?_
  by_cases hc : c = place.1
  · rw [hc,Function.update_self]
    exact hdc
  · rw [Function.update_of_ne hc]
    exact hprev c

theorem boundedBy_encodeRange (startMcu endMcu : ℕ) :
    BoundedBy (encodeEntropyMcuRangeInto input mcusPerRow startMcu endMcu)
      (3970*blocksPerMcu input.sampling*(endMcu-startMcu)) fun _ => True := by
  have h := boundedBy_foldlM (J := fun prevDc : ℕ → ℤ => ∀ c, (prevDc c).natAbs < 2^15)
    (fun prevDc mcuIndex hprev => @boundedBy_encodeMcu input mcusPerRow prevDc mcuIndex hprev)
    (List.range' startMcu (endMcu-startMcu)) (b := fun _ => 0) (by simp)
  rw [List.length_range'] at h
  exact h.bind fun _ _ => boundedBy_pure trivial

/-- The MCUs of a segment, and nothing where an offset overflows. -/
theorem boundedBy_segmentMcus (segmentIndex : ℕ) :
    BoundedBy (encodeSegmentMcus input mcusPerRow totalMcus restartInterval segmentIndex)
      (3970*blocksPerMcu input.sampling*
        (min (segmentIndex*restartInterval+restartInterval) totalMcus-segmentIndex*restartInterval))
      fun _ => True := by
  unfold encodeSegmentMcus
  dsimp only
  split_ifs
  · exact boundedBy_throw _ _
  · exact boundedBy_throw _ _
  · exact boundedBy_encodeRange _ _

/-- What a segment emits after the padding that its marker asks for. -/
def markerEmission (segmentIndex : ℕ) : Emission :=
  if 0 < segmentIndex then raw [0xFF,0xD0+(segmentIndex-1) % 8] else nothing

def paddingEmission (segmentIndex : ℕ) : Emission := if 0 < segmentIndex then align else nothing

theorem realizes_segmentMarker (segmentIndex : ℕ) : Realizes (writeSegmentMarker segmentIndex)
    (some ((),(paddingEmission segmentIndex).andThen (markerEmission segmentIndex))) := by
  unfold writeSegmentMarker paddingEmission markerEmission
  split_ifs
  · exact realizes_restartMarker _
  · rw [andThen_nothing]
    exact realizes_pure ()

/-! ## Cutting a run of segments -/

/-- The bytes of a fresh writer that emits and is padded. -/
def finish (e : Emission) : List ℕ := ((e.andThen align) 0 0).1

/-- The emission of the segment with the MCU emission `e`. -/
def segmentEmission (e : ℕ → Emission) (segmentIndex : ℕ) : Emission :=
  (paddingEmission segmentIndex).andThen ((markerEmission segmentIndex).andThen (e segmentIndex))

def segmentsEmission (e : ℕ → Emission) (first last : ℕ) : Emission :=
  (List.range' first (last-first)).foldr (fun i rest => (segmentEmission e i).andThen rest) nothing

theorem align_pending {current used : ℕ} (h : PendingBits current used) :
    (align current used).2 = (0,0) := by
  unfold align
  split_ifs with hu
  · rw [h.2 hu,hu]
  · rfl

theorem finish_andThen_align {e : Emission} {n : ℕ} (he : e.Costs n) (f : Emission) :
    finish (e.andThen (align.andThen f)) = finish e ++ finish (align.andThen f) := by
  have hpending := align_pending (he 0 0 ⟨by decide,fun _ => rfl⟩).1
  simp only [finish,Emission.andThen,hpending]
  simp [align]

theorem segmentsEmission_self (e : ℕ → Emission) (first : ℕ) :
    segmentsEmission e first first = nothing := by
  simp [segmentsEmission]

theorem foldr_andThen_append (f : ℕ → Emission) (l l' : List ℕ) :
    (l ++ l').foldr (fun i rest => (f i).andThen rest) nothing =
      (l.foldr (fun i rest => (f i).andThen rest) nothing).andThen
        (l'.foldr (fun i rest => (f i).andThen rest) nothing) := by
  induction l with
  | nil => simp
  | cons i l ih => rw [List.cons_append,List.foldr_cons,ih,List.foldr_cons,andThen_assoc]

theorem segmentsEmission_append (e : ℕ → Emission) {first middle last : ℕ}
    (h1 : first ≤ middle) (h2 : middle ≤ last) :
    segmentsEmission e first last =
      (segmentsEmission e first middle).andThen (segmentsEmission e middle last) := by
  unfold segmentsEmission
  rw [← foldr_andThen_append]
  congr 1
  rw [show last-first = (middle-first)+(last-middle) by omega,← List.range'_append,
    show first+1*(middle-first) = middle by omega]

theorem segmentsEmission_of_pos (e : ℕ → Emission) {first last : ℕ} (hpos : 0 < first)
    (h : first < last) : ∃ f, segmentsEmission e first last = align.andThen f := by
  unfold segmentsEmission
  rw [show last-first = (last-first-1)+1 by omega,List.range'_succ,List.foldr_cons,segmentEmission,
    paddingEmission,if_pos hpos,andThen_assoc]
  exact ⟨_,rfl⟩

/-- What a run of segments costs, its markers and the padding before them included. -/
theorem costs_segments {e : ℕ → Emission} {blocks last : ℕ}
    (he : ∀ i < last, (e i).Costs (3970*blocks*
      (min (i*restartInterval+restartInterval) totalMcus-i*restartInterval)))
    (htotal : ∀ i < last, i*restartInterval < totalMcus) {first : ℕ} (hfirst : first ≤ last) :
    (segmentsEmission e first last).Costs (3970*blocks*
      (min (last*restartInterval) totalMcus-first*restartInterval)+
        30*(last-first-(if first = 0 then 1 else 0))) := by
  induction last with
  | zero =>
      rw [show first = 0 by omega,segmentsEmission_self]
      exact costs_nothing.mono (Nat.zero_le _)
  | succ last ih =>
      by_cases heq : first = last+1
      · rw [heq,segmentsEmission_self]
        exact costs_nothing.mono (Nat.zero_le _)
      have hle : first ≤ last := by omega
      rw [segmentsEmission_append e hle (Nat.le_succ last)]
      have hone : segmentsEmission e last (last+1) = segmentEmission e last := by
        simp [segmentsEmission]
      have hlast : (segmentEmission e last).Costs (30*(if last = 0 then 0 else 1)+
          3970*blocks*(min (last*restartInterval+restartInterval) totalMcus-
            last*restartInterval)) := by
        unfold segmentEmission paddingEmission markerEmission
        by_cases hzero : last = 0
        · rw [if_neg (by omega),if_neg (by omega),if_pos hzero,nothing_andThen,nothing_andThen]
          exact (he last (by omega)).mono (by omega)
        · rw [if_pos (by omega),if_pos (by omega),if_neg hzero]
          exact (costs_align.andThen ((costs_raw _).andThen (he last (by omega)))).mono
            (by simp only [List.length_cons,List.length_nil]; omega)
      rw [hone]
      refine ((ih (fun i hi => he i (by omega)) (fun i hi => htotal i (by omega)) hle).andThen
        hlast).mono ?_
      have hlt := htotal last (by omega)
      have hmono : first*restartInterval ≤ last*restartInterval :=
        Nat.mul_le_mul_right restartInterval hle
      have hsum : min ((last+1)*restartInterval) totalMcus-first*restartInterval =
          (min (last*restartInterval) totalMcus-first*restartInterval)+
            (min (last*restartInterval+restartInterval) totalMcus-last*restartInterval) := by
        rw [Nat.succ_mul]
        omega
      rw [hsum,Nat.mul_add]
      have hmarkers : last-first-(if first = 0 then 1 else 0)+(if last = 0 then 0 else 1) ≤
          last+1-first-(if first = 0 then 1 else 0) := by
        split_ifs <;> omega
      omega

/-- The planned capacity holds the bytes of a chunk. -/
theorem length_finish_le {e : ℕ → Emission} {first last : ℕ} (hinterval : 0 < restartInterval)
    (he : ∀ i < last, (e i).Costs (3970*blocksPerMcu input.sampling*
      (min (i*restartInterval+restartInterval) totalMcus-i*restartInterval)))
    (htotal : ∀ i < last, i*restartInterval < totalMcus) (hfirst : first ≤ last) :
    (finish (segmentsEmission e first last)).length ≤
      restartChunkEntropyCapacity totalMcus restartInterval first last input.sampling := by
  rcases Nat.eq_or_lt_of_le hfirst with rfl | hlt
  · rw [segmentsEmission_self]
    simp [finish,align]
  have hcost := ((costs_segments he htotal hfirst).andThen costs_align) 0 0
    ⟨by decide,fun _ => rfl⟩
  have hcost := hcost.2
  have hpos := input.sampling.blocks_pos
  have hlast := htotal (last-1) (by omega)
  have hsplit : last*restartInterval = (last-1)*restartInterval+restartInterval := by
    rw [← Nat.succ_mul,Nat.succ_eq_add_one,Nat.sub_add_cancel (by omega)]
  have hchunk : (last-1)*restartInterval = first*restartInterval+(last-1-first)*restartInterval := by
    rw [← Nat.add_mul]
    congr 1
    omega
  have hone : last-1-first ≤ (last-1-first)*restartInterval := Nat.le_mul_of_pos_right _ hinterval
  have hmcus : last-first ≤ min (last*restartInterval) totalMcus-first*restartInterval := by omega
  unfold restartChunkEntropyCapacity entropyCapacityForMcus
  generalize min (last*restartInterval) totalMcus-first*restartInterval = mcus at hcost hmcus ⊢
  have hmarkers : last-first-(if first = 0 then 1 else 0) ≤ last-first := Nat.sub_le ..
  generalize last-first-(if first = 0 then 1 else 0) = markers at hcost hmarkers ⊢
  have hprod : mcus ≤ mcus*blocksPerMcu input.sampling := Nat.le_mul_of_pos_right _ hpos
  rw [Nat.mul_assoc,Nat.mul_comm (blocksPerMcu input.sampling)] at hcost
  generalize mcus*blocksPerMcu input.sampling = blocks at hcost hprod ⊢
  change 8*(finish (segmentsEmission e first last)).length+_ ≤ _ at hcost
  omega

/-! ## Chunks and the serial run -/

/-- A chunk whose segments all emit: its bytes, or an error where they do not fit. -/
theorem encodeChunk_of_some {e : ℕ → Emission} {first last maxBytes : ℕ}
    (he : ∀ i, first ≤ i → i < last → Realizes
      (encodeSegmentMcus input mcusPerRow totalMcus restartInterval i) (some ((),e i))) :
    ((finish (segmentsEmission e first last)).length ≤ maxBytes →
      restartChunkBytes input mcusPerRow totalMcus restartInterval first last maxBytes =
        .ok (finish (segmentsEmission e first last))) ∧
    (maxBytes < (finish (segmentsEmission e first last)).length → ∃ error,
      restartChunkBytes input mcusPerRow totalMcus restartInterval first last maxBytes =
        .error error) := by
  have hchunk : Realizes (encodeEntropyRestartChunkInto input mcusPerRow totalMcus restartInterval
      first last) (some ((),segmentsEmission e first last)) := by
    refine realizes_forM fun i hi => ?_
    rw [List.mem_range'_1] at hi
    rw [segmentEmission,← andThen_assoc]
    exact (realizes_segmentMarker i).seq (he i hi.1 (by omega))
  have hfresh : (BitWriter.withMaxBytes maxBytes).bytes.length ≤
      (BitWriter.withMaxBytes maxBytes).maxLen := Nat.zero_le _
  have hrun := hchunk _ hfresh
  generalize hE : segmentsEmission e first last = E at hrun ⊢
  have hbytes : (align.apply (E.apply (BitWriter.withMaxBytes maxBytes))).bytes = finish E := by
    rw [← apply_andThen]
    simp [Emission.apply,finish,BitWriter.withMaxBytes]
  have hle : (E.apply (BitWriter.withMaxBytes maxBytes)).bytes.length ≤ (finish E).length := by
    have h := length_apply_le E align (BitWriter.withMaxBytes maxBytes)
    rwa [apply_andThen,hbytes] at h
  have hmax : (BitWriter.withMaxBytes maxBytes).maxLen = maxBytes := rfl
  unfold restartChunkBytes
  by_cases hfit : (E.apply (BitWriter.withMaxBytes maxBytes)).bytes.length ≤ maxBytes
  · rw [hrun.1 hfit]
    have hinto := intoBytes_ok (w := E.apply (BitWriter.withMaxBytes maxBytes)) hfit
    rw [hbytes] at hinto
    exact hinto
  · obtain ⟨error,herror⟩ := hrun.2 (by omega)
    rw [herror]
    exact ⟨fun h => absurd h (by omega),fun _ => ⟨error,rfl⟩⟩

/-- A chunk with a segment that does not emit fails. -/
theorem encodeChunk_of_none {r : ℕ → Option (Unit × Emission)} {first last maxBytes i : ℕ}
    (hr : ∀ i, Realizes (encodeSegmentMcus input mcusPerRow totalMcus restartInterval i) (r i))
    (hfirst : first ≤ i) (hlast : i < last) (hi : r i = none) : ∃ error,
      restartChunkBytes input mcusPerRow totalMcus restartInterval first last maxBytes =
        .error error := by
  have hsegment (i : ℕ) : ∃ q, Realizes
      (encodeSegment input mcusPerRow totalMcus restartInterval i) q ∧ (r i = none → q = none) := by
    have hi := hr i
    cases hri : r i with
    | none =>
        rw [hri] at hi
        exact ⟨none,Realizes.bind_none (f := fun _ => encodeSegmentMcus input mcusPerRow totalMcus
          restartInterval i) (realizes_segmentMarker i) hi,fun _ => rfl⟩
    | some p =>
        rw [hri] at hi
        exact ⟨_,(realizes_segmentMarker i).seq hi,nofun⟩
  choose q hq hnone using hsegment
  have hmem : i ∈ List.range' first (last-first) := List.mem_range'_1.mpr (by omega)
  obtain ⟨error,herror⟩ := realizes_forM_none hq hmem (hnone i hi)
    (BitWriter.withMaxBytes maxBytes) (Nat.zero_le _)
  refine ⟨error,?_⟩
  unfold restartChunkBytes encodeEntropyRestartChunkInto
  rw [herror]
  rfl

/-- Where a chunk begins among `n` segments cut into `k` chunks. -/
def chunkStart (n k j : ℕ) : ℕ := n*j/k

theorem chunkStart_mono (n k : ℕ) {i j : ℕ} (h : i ≤ j) : chunkStart n k i ≤ chunkStart n k j :=
  Nat.div_le_div_right (Nat.mul_le_mul_left n h)

theorem chunkStart_le {n k j : ℕ} (hk : 0 < k) (hj : j ≤ k) : chunkStart n k j ≤ n := by
  have h := chunkStart_mono n k hj
  rwa [show chunkStart n k k = n from Nat.mul_div_cancel n hk] at h

/-- Every segment lies in exactly one chunk. -/
theorem existsUnique_chunk {n k i : ℕ} (hk : 0 < k) (hi : i < n) :
    ∃! j, j < k ∧ chunkStart n k j ≤ i ∧ i < chunkStart n k (j+1) := by
  have hexists : ∀ m, i < chunkStart n k m →
      ∃ j < m, chunkStart n k j ≤ i ∧ i < chunkStart n k (j+1) := by
    intro m
    induction m with
    | zero => intro h; simp [chunkStart] at h
    | succ m ih =>
        intro h
        by_cases hm : i < chunkStart n k m
        · obtain ⟨j,hj,hrest⟩ := ih hm
          exact ⟨j,by omega,hrest⟩
        · exact ⟨m,Nat.lt_succ_self m,by omega,h⟩
  obtain ⟨j,hj,hlo,hhi⟩ := hexists k (by rwa [show chunkStart n k k = n from Nat.mul_div_cancel n hk])
  refine ⟨j,⟨hj,hlo,hhi⟩,?_⟩
  rintro j' ⟨-,hlo',hhi'⟩
  by_contra hne
  rcases Nat.lt_or_gt_of_ne hne with h | h
  · have := chunkStart_mono n k (show j'+1 ≤ j from h)
    omega
  · have := chunkStart_mono n k (show j+1 ≤ j' from h)
    omega

/-- The bytes up to a cut and the bytes after it. -/
theorem finish_split {e : ℕ → Emission} {blocks middle last : ℕ}
    (he : ∀ i < last, (e i).Costs (3970*blocks*
      (min (i*restartInterval+restartInterval) totalMcus-i*restartInterval)))
    (htotal : ∀ i < last, i*restartInterval < totalMcus) (h : middle ≤ last) :
    finish (segmentsEmission e 0 last) =
      finish (segmentsEmission e 0 middle) ++ finish (segmentsEmission e middle last) := by
  rcases Nat.eq_or_lt_of_le h with rfl | hlt
  · rw [segmentsEmission_self e middle]
    simp [finish,align]
  rcases Nat.eq_zero_or_pos middle with rfl | hpos
  · rw [segmentsEmission_self e 0]
    simp [finish,align]
  · rw [segmentsEmission_append e (Nat.zero_le _) h]
    obtain ⟨f,hf⟩ := segmentsEmission_of_pos e hpos hlt
    rw [hf]
    exact finish_andThen_align (costs_segments (fun i hi => he i (by omega))
      (fun i hi => htotal i (by omega)) (Nat.zero_le _)) f

section Join
variable {n k : ℕ}

/-- What the chunks before `j` join to, when every segment emits. -/
theorem join_of_some {e : ℕ → Emission} {entropyCapacity : ℕ} (hk : 0 < k)
    (hinterval : 0 < restartInterval)
    (he : ∀ i < n, Realizes (encodeSegmentMcus input mcusPerRow totalMcus restartInterval i)
      (some ((),e i)))
    (hcost : ∀ i < n, (e i).Costs (3970*blocksPerMcu input.sampling*
      (min (i*restartInterval+restartInterval) totalMcus-i*restartInterval)))
    (htotal : ∀ i < n, i*restartInterval < totalMcus) {j : ℕ} (hj : j ≤ k) :
    let run := (List.range j).foldlM (fun out chunkIndex => do
      let chunk ← runRestartJob input mcusPerRow totalMcus restartInterval n k chunkIndex
      extendFromSlice entropyCapacity out chunk) []
    ((finish (segmentsEmission e 0 (chunkStart n k j))).length ≤ entropyCapacity →
        run = .ok (finish (segmentsEmission e 0 (chunkStart n k j)))) ∧
      (entropyCapacity < (finish (segmentsEmission e 0 (chunkStart n k j))).length →
        ∃ error, run = .error error) := by
  induction j with
  | zero => simp [chunkStart,segmentsEmission,finish,align]; rfl
  | succ j ih =>
      have hmono : chunkStart n k j ≤ chunkStart n k (j+1) := chunkStart_mono n k (by omega)
      have hle := chunkStart_le (n := n) hk hj
      have hsplit := finish_split (fun i hi => hcost i (by omega)) (fun i hi => htotal i (by omega))
        hmono
      have hjob : runRestartJob input mcusPerRow totalMcus restartInterval n k j =
          .ok (finish (segmentsEmission e (chunkStart n k j) (chunkStart n k (j+1)))) :=
        (encodeChunk_of_some fun i _ hi => he i (Nat.lt_of_lt_of_le hi hle)).1
          (length_finish_le hinterval (fun i hi => hcost i (by omega))
            (fun i hi => htotal i (by omega)) hmono)
      dsimp only at ih ⊢
      rw [hsplit,List.length_append,List.range_succ,List.foldlM_append]
      obtain ⟨hok,herr⟩ := ih (by omega)
      by_cases hfit : (finish (segmentsEmission e 0 (chunkStart n k j))).length ≤ entropyCapacity
      · rw [hok hfit]
        simp only [List.foldlM_cons,List.foldlM_nil,hjob,Fallible.ok_bind,extendFromSlice]
        constructor
        · intro h
          rw [if_neg (by omega)]
          rfl
        · intro h
          rw [if_pos (by omega)]
          exact ⟨_,rfl⟩
      · obtain ⟨error,herror⟩ := herr (by omega)
        rw [herror]
        exact ⟨fun h => absurd h (by omega),fun _ => ⟨error,rfl⟩⟩

theorem job_ok_of_join_ok {entropyCapacity j : ℕ} {start out : List ℕ}
    (h : (List.range j).foldlM (fun out chunkIndex => do
      let chunk ← runRestartJob input mcusPerRow totalMcus restartInterval n k chunkIndex
      extendFromSlice entropyCapacity out chunk) start = .ok out) {i : ℕ} (hi : i < j) :
    ∃ chunk, runRestartJob input mcusPerRow totalMcus restartInterval n k i = .ok chunk := by
  induction j generalizing out with
  | zero => omega
  | succ j ih =>
      rw [List.range_succ,List.foldlM_append] at h
      obtain ⟨middle,hmiddle,h⟩ := Fallible.bind_eq_ok.mp h
      rcases Nat.lt_succ_iff_lt_or_eq.mp hi with hi | rfl
      · exact ih hmiddle hi
      · rw [List.foldlM_cons] at h
        obtain ⟨_,hstep,-⟩ := Fallible.bind_eq_ok.mp h
        obtain ⟨chunk,hchunk,-⟩ := Fallible.bind_eq_ok.mp hstep
        exact ⟨chunk,hchunk⟩

theorem flatten_chunks {e : ℕ → Emission} {blocks : ℕ} (hk : 0 < k)
    (he : ∀ i < n, (e i).Costs (3970*blocks*
      (min (i*restartInterval+restartInterval) totalMcus-i*restartInterval)))
    (htotal : ∀ i < n, i*restartInterval < totalMcus) {j : ℕ} (hj : j ≤ k) :
    ((List.range j).map fun j =>
        finish (segmentsEmission e (chunkStart n k j) (chunkStart n k (j+1)))).flatten =
      finish (segmentsEmission e 0 (chunkStart n k j)) := by
  induction j with
  | zero => simp [chunkStart,segmentsEmission,finish,align]
  | succ j ih =>
      have hle := chunkStart_le (n := n) hk hj
      have hmono : chunkStart n k j ≤ chunkStart n k (j+1) := chunkStart_mono n k (by omega)
      rw [List.range_succ,List.map_append,List.flatten_append,ih (by omega),
        finish_split (fun i hi => he i (by omega)) (fun i hi => htotal i (by omega)) hmono]
      simp

/-- Every MCU lies in exactly one chunk. -/
theorem existsUnique_chunk_mcu (hk : 0 < k) (hinterval : 0 < restartInterval)
    (hn : n = TileGeometry.divCeil totalMcus restartInterval) {mcu : ℕ} (hmcu : mcu < totalMcus) :
    ∃! j, j < k ∧ ∃ i, (restartChunkSegmentBounds n j k).1 ≤ i ∧
      i < (restartChunkSegmentBounds n j k).2 ∧ i*restartInterval ≤ mcu ∧
      mcu < min (i*restartInterval+restartInterval) totalMcus := by
  have hsegment (i : ℕ) (hlo : i*restartInterval ≤ mcu)
      (hhi : mcu < min (i*restartInterval+restartInterval) totalMcus) :
      i = mcu/restartInterval := by
    refine (Nat.div_eq_of_lt_le hlo ?_).symm
    rw [Nat.succ_mul]
    omega
  have hlt : mcu/restartInterval < n := by
    rw [hn]
    refine (TileGeometry.lt_divCeil_iff hinterval).mpr ?_
    exact Nat.lt_of_le_of_lt (Nat.div_mul_le_self ..) hmcu
  obtain ⟨j,⟨hj,hlo,hhi⟩,hunique⟩ := existsUnique_chunk hk hlt
  refine ⟨j,⟨hj,mcu/restartInterval,hlo,hhi,Nat.div_mul_le_self ..,?_⟩,?_⟩
  · have := Nat.lt_div_mul_add (a := mcu) hinterval
    omega
  · rintro j' ⟨hj',i,hlo',hhi',h1,h2⟩
    rw [hsegment i h1 h2] at hlo' hhi'
    exact hunique j' ⟨hj',hlo',hhi'⟩

end Join

/-- The two results on a layout with MCUs, by what the segments emit. -/
theorem segments_or_fails (input : EntropyInput) {restartInterval entropyCapacity mcusPerRow
    totalMcus n k : ℕ} (hinterval : 0 < restartInterval)
    (hn : n = TileGeometry.divCeil totalMcus restartInterval) (hk : 0 < k) :
    (∃ chunks : ℕ → List ℕ,
      (∀ j < k, runRestartJob input mcusPerRow totalMcus restartInterval n k j = .ok (chunks j) ∧
        (chunks j).length ≤ restartChunkEntropyCapacity totalMcus restartInterval
          (chunkStart n k j) (chunkStart n k (j+1)) input.sampling) ∧
      ∀ out, ((List.range k).foldlM (fun out chunkIndex => do
          let chunk ← runRestartJob input mcusPerRow totalMcus restartInterval n k chunkIndex
          extendFromSlice entropyCapacity out chunk) [] = .ok out ↔
            out = ((List.range k).map chunks).flatten ∧ out.length ≤ entropyCapacity) ∧
        (restartChunkBytes input mcusPerRow totalMcus restartInterval 0 n entropyCapacity
          = .ok out ↔ out = ((List.range k).map chunks).flatten ∧ out.length ≤ entropyCapacity)) ∨
    ∀ out, (List.range k).foldlM (fun out chunkIndex => do
        let chunk ← runRestartJob input mcusPerRow totalMcus restartInterval n k chunkIndex
        extendFromSlice entropyCapacity out chunk) [] ≠ .ok out ∧
      restartChunkBytes input mcusPerRow totalMcus restartInterval 0 n entropyCapacity
        ≠ .ok out := by
  choose r hr hcost using
    fun i => @boundedBy_segmentMcus input mcusPerRow totalMcus restartInterval i
  have htotal (i : ℕ) (hi : i < n) : i*restartInterval < totalMcus := by
    rw [hn] at hi
    exact (TileGeometry.lt_divCeil_iff hinterval).mp hi
  by_cases hsome : ∀ i < n, ∃ e, r i = some ((),e)
  · left
    choose! e he using hsome
    have hrealizes (i : ℕ) (hi : i < n) : Realizes
        (encodeSegmentMcus input mcusPerRow totalMcus restartInterval i) (some ((),e i)) := by
      rw [← he i hi]
      exact hr i
    have hecost (i : ℕ) (hi : i < n) := (hcost i () (e i) (he i hi)).1
    have hend : chunkStart n k k = n := Nat.mul_div_cancel n hk
    have hflat := flatten_chunks hk hecost htotal (le_refl k)
    rw [hend] at hflat
    refine ⟨fun j => finish (segmentsEmission e (chunkStart n k j) (chunkStart n k (j+1))),
      fun j hj => ?_,fun out => ?_⟩
    · have hle := chunkStart_le (n := n) hk (show j+1 ≤ k from hj)
      have hlen := @length_finish_le input _ _ _ _ _ hinterval (fun i hi => hecost i (by omega))
        (fun i hi => htotal i (by omega)) (chunkStart_mono n k (show j ≤ j+1 by omega))
      exact ⟨(encodeChunk_of_some fun i _ (hi : i < chunkStart n k (j+1)) =>
        hrealizes i (by omega)).1 hlen,hlen⟩
    · rw [hflat]
      have hjoin := @join_of_some _ _ _ _ _ _ _ entropyCapacity hk hinterval hrealizes hecost
        htotal _ (le_refl k)
      rw [hend] at hjoin
      have hserial := @encodeChunk_of_some _ _ _ _ _ 0 n entropyCapacity
        fun i _ hi => hrealizes i hi
      dsimp only at hjoin
      by_cases hfit : (finish (segmentsEmission e 0 n)).length ≤ entropyCapacity
      · rw [hjoin.1 hfit,hserial.1 hfit]
        have hiff : (Except.ok (finish (segmentsEmission e 0 n)) : Except JpegEncodeError (List ℕ)) =
            .ok out ↔ out = finish (segmentsEmission e 0 n) ∧ out.length ≤ entropyCapacity := by
          rw [Except.ok.injEq,eq_comm]
          exact ⟨fun h => ⟨h,h ▸ hfit⟩,And.left⟩
        exact ⟨hiff,hiff⟩
      · obtain ⟨e1,h1⟩ := hjoin.2 (by omega)
        obtain ⟨e2,h2⟩ := hserial.2 (by omega)
        rw [h1,h2]
        have hiff (error : JpegEncodeError) : (.error error : Except JpegEncodeError (List ℕ)) =
            .ok out ↔ out = finish (segmentsEmission e 0 n) ∧ out.length ≤ entropyCapacity :=
          ⟨nofun,fun h => absurd (h.1 ▸ h.2) hfit⟩
        exact ⟨hiff e1,hiff e2⟩
  · right
    push Not at hsome
    obtain ⟨i,hi,hne⟩ := hsome
    have hnone : r i = none := by
      cases h : r i with
      | none => rfl
      | some p => exact absurd h (hne p.2)
    intro out
    constructor
    · intro h
      obtain ⟨j,⟨hj,hlo,hhi⟩,-⟩ := existsUnique_chunk hk hi
      obtain ⟨chunk,hchunk⟩ := job_ok_of_join_ok h hj
      obtain ⟨error,herror⟩ := encodeChunk_of_none hr hlo hhi hnone
      rw [runRestartJob,show restartChunkSegmentBounds n j k =
        (chunkStart n k j,chunkStart n k (j+1)) from rfl,herror] at hchunk
      cases hchunk
    · intro h
      obtain ⟨error,herror⟩ := encodeChunk_of_none hr (Nat.zero_le i) hi hnone
      rw [herror] at h
      cases h

/-- Restart segments encoded in chunks and joined are what one writer gives for all of them.
Each succeeds only within its own budget of the host, and the other then gives the same bytes
within that of its own. Every MCU is in exactly one chunk; and when the whole is written, each
chunk fits the capacity planned for it. -/
theorem restart_segments_eq_serial (input : EntropyInput) (host host' : EncodeHost)
    {restartInterval : ℕ} (hinterval : 1 ≤ restartInterval) (entropyCapacity : ℕ)
    {mcusPerRow totalMcus : ℕ} (hlayout : input.entropyMcuLayout = .ok (mcusPerRow,totalMcus))
    (htotal : 0 < totalMcus) :
    let n := TileGeometry.divCeil totalMcus restartInterval
    let k := parallelEntropyChunkCount n
    let capacities := chunkCapacities totalMcus restartInterval n k input.sampling
    (∀ out, encodeEntropyRestartSegments host input restartInterval entropyCapacity = .ok out →
      HoldsChunks host capacities entropyCapacity ∧ (HoldsWriter host' entropyCapacity →
        encodeEntropySerial host' input restartInterval entropyCapacity = .ok out)) ∧
    (∀ out, encodeEntropySerial host' input restartInterval entropyCapacity = .ok out →
      HoldsWriter host' entropyCapacity ∧ (HoldsChunks host capacities entropyCapacity →
        encodeEntropyRestartSegments host input restartInterval entropyCapacity = .ok out)) ∧
    (∀ mcu < totalMcus, ∃! j, j < k ∧ ∃ i, (restartChunkSegmentBounds n j k).1 ≤ i ∧
      i < (restartChunkSegmentBounds n j k).2 ∧ i*restartInterval ≤ mcu ∧
      mcu < min (i*restartInterval+restartInterval) totalMcus) ∧
    ∀ out, encodeEntropySerial host' input restartInterval entropyCapacity = .ok out →
      ∃ chunks : ℕ → List ℕ, out = ((List.range k).map chunks).flatten ∧ ∀ j < k,
        runRestartJob input mcusPerRow totalMcus restartInterval n k j = .ok (chunks j) ∧
        (chunks j).length ≤ restartChunkEntropyCapacity totalMcus restartInterval
          (restartChunkSegmentBounds n j k).1 (restartChunkSegmentBounds n j k).2
          input.sampling := by
  intro n k capacities
  have hk : 0 < k := by
    show 0 < min (max n 1) 64
    omega
  have hserial (out : List ℕ) :
      encodeEntropySerial host' input restartInterval entropyCapacity = .ok out ↔
        checkedFrameCapacity entropyCapacity = .ok () ∧ HoldsWriter host' entropyCapacity ∧
          restartChunkBytes input mcusPerRow totalMcus restartInterval 0 n entropyCapacity =
            .ok out := by
    unfold encodeEntropySerial
    rw [Fallible.bind_eq_ok,hlayout]
    simp only [Fallible.ok_bind]
    rw [if_neg (by omega),if_neg (by omega),encodeEntropyRestartChunk_eq_ok]
    exact ⟨fun ⟨_,h⟩ => h,fun h => ⟨(),h⟩⟩
  have hjoin (out : List ℕ) :
      joinRestartJobs input mcusPerRow totalMcus restartInterval n k entropyCapacity = .ok out ↔
        restartChunkBytes input mcusPerRow totalMcus restartInterval 0 n entropyCapacity =
          .ok out := by
    rcases segments_or_fails input hinterval (rfl : n = _) hk with ⟨chunks,-,h⟩ | h
    · exact (h out).1.trans (h out).2.symm
    · exact ⟨fun hout => absurd hout (h out).1,fun hout => absurd hout (h out).2⟩
  have hchunked (out : List ℕ) := @encodeEntropyRestartSegments_eq_ok input mcusPerRow totalMcus
    restartInterval host entropyCapacity hinterval hlayout htotal out
  refine ⟨fun out h => ?_,fun out h => ?_,fun mcu hmcu => existsUnique_chunk_mcu hk hinterval rfl hmcu,
    fun out h => ?_⟩
  · obtain ⟨hframe,hholds,hbytes⟩ := (hchunked out).mp h
    exact ⟨hholds,fun hwriter => (hserial out).mpr ⟨hframe,hwriter,(hjoin out).mp hbytes⟩⟩
  · obtain ⟨hframe,hwriter,hbytes⟩ := (hserial out).mp h
    exact ⟨hwriter,fun hholds => (hchunked out).mpr ⟨hframe,hholds,(hjoin out).mpr hbytes⟩⟩
  · obtain ⟨-,-,hbytes⟩ := (hserial out).mp h
    rcases segments_or_fails input hinterval (rfl : n = _) hk with ⟨chunks,hjobs,h⟩ | h
    · exact ⟨chunks,((h out).2.mp hbytes).1,hjobs⟩
    · exact absurd hbytes (h out).2

/-- Two gray MCUs without coefficients; zero has the code `0` in every table. -/
def twoFlatBlocks : EntropyInput where
  width := 16
  height := 8
  sampling := ⟨[(1,1)],1,1,by decide⟩
  blocks := fun _ _ _ _ _ => ⟨fun _ => 0,fun _ => by decide⟩
  dcTables := (⟨fun _ => 0,fun symbol => if symbol = 0 then 1 else 0,fun _ => by split_ifs <;> decide⟩,
    ⟨fun _ => 0,fun symbol => if symbol = 0 then 1 else 0,fun _ => by split_ifs <;> decide⟩)
  acTables := (⟨fun _ => 0,fun symbol => if symbol = 0 then 1 else 0,fun _ => by split_ifs <;> decide⟩,
    ⟨fun _ => 0,fun symbol => if symbol = 0 then 1 else 0,fun _ => by split_ifs <;> decide⟩)

/-- Gives what it is asked for, beside nothing else that is live. -/
def idleHost : EncodeHost where
  externalLiveBytes := 0
  jobBytes := 64
  reserve := fun _ capacity => some capacity
  le_reserve h := (Option.some.inj h).le

theorem restart_segments_eq_serial_two :
    encodeEntropyRestartSegments idleHost twoFlatBlocks 1 2000 = .ok [0x3F,0xFF,0xD0,0x3F] :=
  ((restart_segments_eq_serial twoFlatBlocks idleHost idleHost (by decide) 2000 rfl
    (by decide)).2.1 _ (by decide +kernel)).2
      ⟨⟨2,rfl,by decide⟩,fun _ _ _ => rfl,rfl⟩

end EntropyInput
end J2kNative
