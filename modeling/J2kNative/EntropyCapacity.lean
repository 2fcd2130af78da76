import J2kNative.RestartAgreement

/-!
# The planned capacity of the entropy bytes

A step is given credit in advance: eight for a byte and two for a pending bit, which pays for
the stuffing as well. A step that has its credit within the limit never reports an overflow, and
fails, if at all, for a missing code. A block costs at most 3970, and the plan gives 4096 for it;
the rest pays for the padding of its segment. What the host refuses is told from an overflow of
a store by the limit that the error names.
-/
namespace J2kNative.EntropyCapacity
open Emission EntropyInput

/-! ## The plan -/

/-- `jpeg_baseline_entropy_capacity_bytes`; the products are checked in 64 bits. -/
def entropyCapacityBytes (width height : ℕ) (sampling : JpegBaselineSampling)
    (restartInterval : Option ℕ) : Except JpegEncodeError ℕ :=
  let mcusPerRow := TileGeometry.divCeil width (sampling.maxH*8)
  let mcuRows := TileGeometry.divCeil height (sampling.maxV*8)
  let totalMcus := mcusPerRow*mcuRows
  let restartMarkers := restartInterval.elim 0 fun interval => (totalMcus-1)/interval
  if 2^64 ≤ totalMcus then .error (.internalInvariant "JPEG MCU count overflow")
  else if 2^64 ≤ entropyCapacityForMcus totalMcus sampling restartMarkers+16 then
    .error (.internalInvariant "JPEG entropy capacity overflow")
  else .ok (entropyCapacityForMcus totalMcus sampling restartMarkers+16)

/-- All MCUs with one writer and without markers: `encode_entropy_serial` without an interval. -/
def encodeEntropyWhole (host : EncodeHost) (input : EntropyInput) (entropyCapacity : ℕ) :
    Except JpegEncodeError (List ℕ) := do
  checkedFrameCapacity entropyCapacity
  let (mcusPerRow,totalMcus) ← input.entropyMcuLayout
  if totalMcus = 0 then .ok []
  else do
    let _ ← checkedEncodeHostLiveBytes [host.externalLiveBytes,entropyCapacity]
    let capacity ← CappedBytes.tryWithCapacity host 0 entropyCapacity
    let _ ← checkedEncodeHostLiveBytes [host.externalLiveBytes,capacity]
    let (_,w) ← encodeEntropyMcuRangeInto input mcusPerRow 0 totalMcus
      (BitWriter.withMaxBytes entropyCapacity)
    w.intoBytes

def encodeEntropy (host : EncodeHost) (input : EntropyInput) (restartInterval : Option ℕ)
    (entropyCapacity : ℕ) : Except JpegEncodeError (List ℕ) :=
  match restartInterval with
  | some restartInterval => encodeEntropyRestartSegments host input restartInterval entropyCapacity
  | none => encodeEntropyWhole host input entropyCapacity

/-! ## Credit -/

/-- The capped store reports that it is full. -/
def Overflow (e : JpegEncodeError) : Prop :=
  ∃ requested cap, e = .memoryCapExceeded requested cap

/-- What has been paid for. -/
def spent (w : BitWriter) : ℕ := 8*w.bytes.length+2*w.used

/-- The credit for a step lies within the limit. -/
structure Funded (w : BitWriter) (credit : ℕ) : Prop where
  pending : PendingBits w.current w.used
  room : spent w+credit ≤ 8*w.maxLen

/-- A step spends its credit at most, or fails without an overflow. -/
def Affords {α : Type} (m : Write α) (credit : ℕ) (I : α → Prop) : Prop :=
  ∀ w, Funded w credit → match m w with
    | .ok (a,w') => I a ∧ PendingBits w'.current w'.used ∧ w'.maxLen = w.maxLen ∧
        spent w' ≤ spent w+credit
    | .error e => ¬Overflow e

section
variable {α β γ : Type} {I : α → Prop} {J : β → Prop}

theorem Affords.mono {m : Write α} {n k : ℕ} (h : Affords m n I) (hnk : n ≤ k) :
    Affords m k I := by
  intro w hw
  have hroom := hw.room
  have hstep := h w ⟨hw.pending,by omega⟩
  cases hm : m w with
  | error e =>
      rw [hm] at hstep
      exact hstep
  | ok r =>
      rw [hm] at hstep
      obtain ⟨ha,hpending,hmax,hspent⟩ := hstep
      exact ⟨ha,hpending,hmax,by omega⟩

theorem affords_pure {a : α} (ha : I a) : Affords (pure a : Write α) 0 I :=
  fun _ hw => ⟨ha,hw.pending,rfl,le_rfl⟩

theorem affords_throw {e : JpegEncodeError} (h : ¬Overflow e) (n : ℕ) :
    Affords (throw e : Write α) n I := fun _ _ => h

theorem Affords.bind {m : Write α} {f : α → Write β} {n k : ℕ} (hm : Affords m n I)
    (hf : ∀ a, I a → Affords (f a) k J) : Affords (m >>= f) (n+k) J := by
  intro w hw
  have hroom := hw.room
  have hfirst := hm w ⟨hw.pending,by omega⟩
  cases hrun : m w with
  | error e =>
      rw [hrun] at hfirst
      rw [bind_error hrun]
      exact hfirst
  | ok r =>
      rw [hrun] at hfirst
      obtain ⟨ha,hpending,hmax,hspent⟩ := hfirst
      rw [bind_ok hrun]
      have hsecond := hf r.1 ha r.2 ⟨hpending,by omega⟩
      cases hrest : f r.1 r.2 with
      | error e =>
          rw [hrest] at hsecond
          exact hsecond
      | ok r' =>
          rw [hrest] at hsecond
          obtain ⟨hb,hpending',hmax',hspent'⟩ := hsecond
          exact ⟨hb,hpending',hmax'.trans hmax,by omega⟩

theorem affords_foldlM {f : β → γ → Write β} {n : ℕ} (h : ∀ b c, J b → Affords (f b c) n J)
    (l : List γ) {b : β} (hb : J b) : Affords (l.foldlM f b) (n*l.length) J := by
  induction l generalizing b with
  | nil => exact affords_pure hb
  | cons c l ih =>
      rw [List.foldlM_cons]
      exact ((h b c hb).bind fun b hb => ih hb).mono (by rw [List.length_cons,Nat.mul_succ]; omega)

/-- A step with a known emission affords what that costs. -/
theorem affords_of_realizes {m : Write α} {a : α} {e : Emission} {n : ℕ}
    (h : Realizes m (some (a,e))) (he : e.Costs n) (ha : I a) : Affords m n I := by
  intro w hw
  have hroom := hw.room
  obtain ⟨hpending,hcost⟩ := he w.current w.used hw.pending
  unfold spent at hroom
  have hlen : (e.apply w).bytes.length = w.bytes.length+(e w.current w.used).1.length := by
    simp [Emission.apply]
  rw [(h w (by omega)).1 (by omega)]
  refine ⟨ha,hpending,rfl,?_⟩
  unfold spent
  rw [hlen]
  show 8*_+2*(e w.current w.used).2.2 ≤ _
  omega

end

theorem affords_writeBits (code len : ℕ) :
    Affords (BitWriter.writeBits code len) (2*len) fun _ => True :=
  affords_of_realizes (realizes_writeBits code len)
    ((costs_bits _).mono (by rw [length_codeBits])) trivial

theorem affords_restartMarker (marker : ℕ) :
    Affords (BitWriter.writeRestartMarker marker) 30 fun _ => True :=
  affords_of_realizes (realizes_restartMarker marker)
    (costs_align.andThen (costs_raw [0xFF,marker])) trivial

/-- The last padding of a writer. -/
theorem intoBytes_funded {w : BitWriter} (hw : Funded w 14) :
    ∃ out, w.intoBytes = .ok out ∧ 8*out.length ≤ spent w+14 := by
  have h := affords_of_realizes (I := fun _ => True) realizes_align costs_align trivial w hw
  unfold BitWriter.intoBytes
  cases hrun : BitWriter.alignWithOnes w with
  | error e =>
      have hroom := hw.room
      obtain ⟨hpending,hcost⟩ := costs_align w.current w.used hw.pending
      unfold spent at hroom
      have hlen : (align.apply w).bytes.length =
          w.bytes.length+(align w.current w.used).1.length := by simp [Emission.apply]
      rw [(realizes_align w (by omega)).1 (by omega)] at hrun
      cases hrun
  | ok r =>
      rw [hrun] at h
      obtain ⟨-,-,-,hspent⟩ := h
      refine ⟨r.2.bytes,rfl,?_⟩
      unfold spent at *
      omega

/-! ## A block -/

theorem affords_symbol (table : JpegBaselineHuffmanTable) (symbol : ℕ) :
    Affords (writeHuffmanSymbol table symbol) 32 fun _ => True := by
  unfold writeHuffmanSymbol
  have hlens := table.lens_le symbol
  split_ifs
  · exact affords_throw (fun ⟨_,_,h⟩ => by cases h) _
  · exact (affords_writeBits _ _).mono (by omega)

/-- Sixteen zeros cost a code. -/
theorem affords_zeroRuns (table : JpegBaselineHuffmanTable) (zeroRun : ℕ) :
    Affords (writeZeroRuns table zeroRun) (2*zeroRun) fun _ => True := by
  induction zeroRun using Nat.strong_induction_on with
  | _ zeroRun ih =>
      rw [writeZeroRuns]
      split_ifs with h
      · exact ((affords_symbol table 0xF0).bind fun _ _ => ih (zeroRun-16) (by omega)).mono
          (by omega)
      · exact (affords_pure trivial).mono (Nat.zero_le _)

theorem affords_ac {coeff : ℤ} (hcoeff : (magnitude coeff).1 ≤ 15) (hne : coeff ≠ 0)
    (table : JpegBaselineHuffmanTable) (zeroRun : ℕ) :
    Affords (encodeAc table zeroRun coeff) (2*zeroRun+62) (· = 0) := by
  unfold encodeAc
  rw [if_neg hne]
  have hvalue : Affords (do
      BitWriter.writeBits (magnitude coeff).2 (magnitude coeff).1
      pure 0) (2*(magnitude coeff).1+0) (· = 0) :=
    (affords_writeBits _ _).bind fun _ _ => affords_pure rfl
  refine ((affords_zeroRuns table zeroRun).bind fun rest _ =>
    (affords_symbol table _).bind fun _ _ => hvalue).mono ?_
  omega

/-- A coefficient is given 62, and a run keeps what its zeros were given. -/
theorem affords_acs (table : JpegBaselineHuffmanTable) {coeffs : List ℤ} {zeroRun : ℕ}
    (hcoeffs : ∀ c ∈ coeffs, (magnitude c).1 ≤ 15) :
    Affords (coeffs.foldlM (encodeAc table) zeroRun >>= writeEndOfBlock table)
      (62*(zeroRun+coeffs.length)) fun _ => True := by
  induction coeffs generalizing zeroRun with
  | nil =>
      rw [List.foldlM_nil,pure_bind,writeEndOfBlock]
      split_ifs
      · exact (affords_symbol table 0).mono (by rw [List.length_nil]; omega)
      · exact (affords_pure trivial).mono (Nat.zero_le _)
  | cons coeff coeffs ih =>
      have hrest := fun c hc => hcoeffs c (List.mem_cons_of_mem _ hc)
      rw [List.foldlM_cons,bind_assoc,List.length_cons]
      by_cases hzero : coeff = 0
      · have hpure : encodeAc table zeroRun coeff = pure (min (zeroRun+1) 255) := if_pos hzero
        rw [hpure,pure_bind]
        exact (ih hrest).mono (by omega)
      · refine ((affords_ac (hcoeffs coeff (by simp)) hzero table zeroRun).bind
          fun rest hz => ?_).mono (show 2*zeroRun+62+62*(0+coeffs.length) ≤ _ by omega)
        rw [hz]
        exact ih hrest

theorem affords_dc {diff : ℤ} {n : ℕ} (hdiff : (magnitude diff).1 ≤ n)
    (table : JpegBaselineHuffmanTable) :
    Affords (writeDc table diff) (32+2*n) fun _ => True := by
  unfold writeDc
  refine (affords_symbol table _).bind fun _ _ => ?_
  split_ifs
  · exact (affords_writeBits _ _).mono (by omega)
  · exact (affords_pure trivial).mono (Nat.zero_le _)

/-! ## Blocks in any sequence -/

/-- A block as it is coded: the difference of the DC coefficients and the AC coefficients, of
categories up to 15. -/
structure CodedBlock where
  dcTable : JpegBaselineHuffmanTable
  acTable : JpegBaselineHuffmanTable
  diff : ℤ
  acs : List ℤ
  diff_le : (magnitude diff).1 ≤ 15
  acs_le : ∀ c ∈ acs, (magnitude c).1 ≤ 15
  acs_length : acs.length = 63

/-- `encode_block`, with the difference given. -/
def writeBlock (block : CodedBlock) : Write Unit := do
  writeDc block.dcTable block.diff
  let zeroRun ← encodeAcs block.acTable block.acs
  writeEndOfBlock block.acTable zeroRun

/-- The blocks of a restart segment, of which there is one at least. -/
structure BlockSegment where
  first : CodedBlock
  rest : List CodedBlock

def BlockSegment.blocks (segment : BlockSegment) : List CodedBlock := segment.first :: segment.rest

/-- Segments from the number `start` on, with a marker before each but the number zero. -/
def writeBlockSegments : ℕ → List BlockSegment → Write Unit
  | _, [] => pure ()
  | start, segment :: segments => do
      writeSegmentMarker start
      segment.blocks.forM writeBlock
      writeBlockSegments (start+1) segments

def blockCount (segments : List BlockSegment) : ℕ := (segments.map (·.blocks.length)).sum

def markerCount (start : ℕ) (segments : List BlockSegment) : ℕ :=
  segments.length-(if start = 0 then 1 else 0)

/-- The bytes of the segments in a writer of a given size. -/
def encodeBlockSegments (start : ℕ) (segments : List BlockSegment) (maxBytes : ℕ) :
    Except JpegEncodeError (List ℕ) := do
  let (_,w) ← writeBlockSegments start segments (BitWriter.withMaxBytes maxBytes)
  w.intoBytes

theorem affords_forM {γ : Type} {f : γ → Write Unit} {n : ℕ}
    (h : ∀ c, Affords (f c) n fun _ => True) (l : List γ) :
    Affords (l.forM f) (n*l.length) fun _ => True := by
  induction l with
  | nil => exact affords_pure trivial
  | cons c l ih =>
      exact ((h c).bind fun _ _ => ih).mono (by rw [List.length_cons,Nat.mul_succ]; omega)

theorem affords_block (block : CodedBlock) : Affords (writeBlock block) 3968 fun _ => True := by
  refine ((affords_dc block.diff_le block.dcTable).bind fun _ _ =>
    @affords_acs block.acTable _ 0 block.acs_le).mono ?_
  rw [block.acs_length]

theorem affords_segmentMarker (segmentIndex : ℕ) :
    Affords (writeSegmentMarker segmentIndex) (if segmentIndex = 0 then 0 else 30)
      fun _ => True := by
  unfold writeSegmentMarker
  by_cases hzero : segmentIndex = 0
  · rw [if_neg (by omega),if_pos hzero]
    exact affords_pure trivial
  · rw [if_pos (by omega),if_neg hzero]
    exact affords_restartMarker _

theorem affords_blockSegments (start : ℕ) (segments : List BlockSegment) :
    Affords (writeBlockSegments start segments)
      (3968*blockCount segments+30*markerCount start segments) fun _ => True := by
  induction segments generalizing start with
  | nil => exact (affords_pure trivial).mono (Nat.zero_le _)
  | cons segment segments ih =>
      refine ((affords_segmentMarker start).bind fun _ _ =>
        (affords_forM affords_block segment.blocks).bind fun _ _ => ih (start+1)).mono ?_
      unfold blockCount markerCount
      rw [List.map_cons,List.sum_cons,List.length_cons,if_neg (Nat.succ_ne_zero start)]
      split_ifs <;> omega

theorem length_le_blockCount (segments : List BlockSegment) :
    segments.length ≤ blockCount segments := by
  unfold blockCount
  induction segments with
  | nil => exact le_rfl
  | cons segment segments ih =>
      rw [List.map_cons,List.sum_cons,List.length_cons,BlockSegment.blocks,List.length_cons]
      omega

/-- A step of a fresh writer and the last padding. -/
def runFresh (m : Write Unit) (maxBytes : ℕ) : Except JpegEncodeError (List ℕ) := do
  let (_,w) ← m (BitWriter.withMaxBytes maxBytes)
  w.intoBytes

/-- The bytes are as many as planned at most, and no error reports an overflow. -/
structure Fits (r : Except JpegEncodeError (List ℕ)) (planned : ℕ) : Prop where
  length_le : ∀ out, r = .ok out → out.length ≤ planned
  no_overflow : ∀ e, r = .error e → ¬Overflow e

theorem fits_ok {out : List ℕ} {planned : ℕ} (h : out.length ≤ planned) : Fits (.ok out) planned :=
  ⟨fun _ hout => Except.ok.inj hout ▸ h,nofun⟩

theorem fits_error {e : JpegEncodeError} (h : ¬Overflow e) (planned : ℕ) :
    Fits (.error e) planned :=
  ⟨nofun,fun _ he => Except.error.inj he ▸ h⟩

/-- A plan holds what a fresh writer gives when it covers the credit and the last padding; where
nothing is spent there is nothing to pad. -/
theorem fits_runFresh {m : Write Unit} {n planned maxBytes : ℕ} (hm : Affords m n fun _ => True)
    (hn : n+14 ≤ 8*planned ∨ n = 0) (hmax : planned ≤ maxBytes) :
    Fits (runFresh m maxBytes) planned := by
  have hfresh : Funded (BitWriter.withMaxBytes maxBytes) n := by
    refine ⟨⟨Nat.zero_lt_succ 7,fun _ => rfl⟩,?_⟩
    show 0+n ≤ 8*maxBytes
    omega
  have hstep := hm _ hfresh
  unfold runFresh
  cases hrun : m (BitWriter.withMaxBytes maxBytes) with
  | error e =>
      rw [hrun] at hstep
      exact fits_error hstep planned
  | ok r =>
      rw [hrun] at hstep
      obtain ⟨-,hpending,hlimit,hspent⟩ := hstep
      have hlimit : r.2.maxLen = maxBytes := hlimit
      have hspent : spent r.2 ≤ n := hspent.trans_eq (Nat.zero_add n)
      rw [Fallible.ok_bind]
      rcases hn with hn | hzero
      · obtain ⟨out,hout,hlen⟩ := intoBytes_funded (w := r.2) ⟨hpending,by omega⟩
        dsimp only
        rw [hout]
        exact fits_ok (by omega)
      · unfold spent at hspent
        have hused : r.2.used = 0 := by omega
        have hbytes : r.2.bytes = [] := List.eq_nil_of_length_eq_zero (by omega)
        have halign : (align.apply r.2).bytes = [] := by
          simp [Emission.apply,align,hused,hbytes]
        dsimp only
        rw [(intoBytes_ok (by rw [hbytes]; exact Nat.zero_le _)).1
          (by rw [halign]; exact Nat.zero_le _),halign]
        exact fits_ok (Nat.zero_le _)

theorem fits_blockSegments (start : ℕ) (segments : List BlockSegment) :
    Fits (encodeBlockSegments start segments
      (512*blockCount segments+2*markerCount start segments))
      (512*blockCount segments+2*markerCount start segments) := by
  refine fits_runFresh (affords_blockSegments start segments) ?_ le_rfl
  have hlength := length_le_blockCount segments
  have hmarkers : markerCount start segments ≤ segments.length := Nat.sub_le ..
  omega

/-! ## Scans -/

section
variable {input : EntropyInput} {mcusPerRow totalMcus restartInterval : ℕ}

theorem affords_encodeBlock {block : QuantizedBlock} {prevDc : ℤ}
    {dcTable acTable : JpegBaselineHuffmanTable} (hprev : prevDc.natAbs < 2^15) :
    Affords (encodeBlock block prevDc dcTable acTable) 3970 fun dc => dc.natAbs < 2^15 := by
  have hdiff : (magnitude (block.coeff 0-prevDc)).1 ≤ 16 := by
    refine size_magnitude ?_
    have := block.bounded 0
    omega
  have hacs : ∀ c ∈ block.acs, (magnitude c).1 ≤ 15 := by
    intro c hc
    obtain ⟨k,-,rfl⟩ := List.mem_map.mp hc
    exact size_magnitude (block.bounded _)
  have hrest := (@affords_acs acTable _ 0 hacs).bind fun _ _ =>
    affords_pure (I := fun dc : ℤ => dc.natAbs < 2^15) (block.bounded 0)
  rw [bind_assoc] at hrest
  refine ((affords_dc hdiff dcTable).bind fun _ _ => hrest).mono ?_
  simp [QuantizedBlock.acs]

theorem affords_encodeMcu {prevDc : ℕ → ℤ} {mcuIndex : ℕ} (hprev : ∀ c, (prevDc c).natAbs < 2^15) :
    Affords (encodeMcu input mcusPerRow prevDc mcuIndex) (3970*blocksPerMcu input.sampling)
      fun prevDc => ∀ c, (prevDc c).natAbs < 2^15 := by
  rw [← length_mcuBlockOrder]
  refine affords_foldlM (fun prevDc place hprev => ?_) _ hprev
  unfold encodeMcuBlock
  refine Affords.bind (n := 3970) (k := 0) (affords_encodeBlock (hprev _)) fun dc hdc =>
    affords_pure fun c => ?_
  by_cases hc : c = place.1
  · rw [hc,Function.update_self]
    exact hdc
  · rw [Function.update_of_ne hc]
    exact hprev c

theorem affords_encodeRange (startMcu endMcu : ℕ) :
    Affords (encodeEntropyMcuRangeInto input mcusPerRow startMcu endMcu)
      (3970*blocksPerMcu input.sampling*(endMcu-startMcu)) fun _ => True := by
  have h := affords_foldlM (J := fun prevDc : ℕ → ℤ => ∀ c, (prevDc c).natAbs < 2^15)
    (fun prevDc mcuIndex hprev => @affords_encodeMcu input mcusPerRow prevDc mcuIndex hprev)
    (List.range' startMcu (endMcu-startMcu)) (b := fun _ => 0) (by simp)
  rw [List.length_range'] at h
  exact h.bind fun _ _ => affords_pure trivial

theorem affords_segment (segmentIndex : ℕ) :
    Affords (encodeSegment input mcusPerRow totalMcus restartInterval segmentIndex)
      ((if segmentIndex = 0 then 0 else 30)+3970*blocksPerMcu input.sampling*
        (min (segmentIndex*restartInterval+restartInterval) totalMcus-segmentIndex*restartInterval))
      fun _ => True := by
  refine (affords_segmentMarker segmentIndex).bind fun _ _ => ?_
  unfold encodeSegmentMcus
  dsimp only
  split_ifs
  · exact affords_throw (fun ⟨_,_,h⟩ => by cases h) _
  · exact affords_throw (fun ⟨_,_,h⟩ => by cases h) _
  · exact affords_encodeRange _ _

theorem affords_segments {first last : ℕ} (hfirst : first ≤ last)
    (htotal : ∀ i < last, i*restartInterval < totalMcus) :
    Affords (encodeEntropyRestartChunkInto input mcusPerRow totalMcus restartInterval first last)
      (3970*blocksPerMcu input.sampling*(min (last*restartInterval) totalMcus-first*restartInterval)+
        30*(last-first-(if first = 0 then 1 else 0))) fun _ => True := by
  unfold encodeEntropyRestartChunkInto
  obtain ⟨count,rfl⟩ : ∃ count, last = first+count := ⟨_,(Nat.add_sub_cancel' hfirst).symm⟩
  rw [Nat.add_sub_cancel_left]
  induction count generalizing first with
  | zero => exact (affords_pure trivial).mono (Nat.zero_le _)
  | succ count ih =>
      rw [List.range'_succ]
      have hrest := @ih (first+1) (Nat.le_add_right _ _)
        (fun i hi => htotal i (by omega))
      rw [show first+1+count = first+(count+1) by omega] at hrest
      refine ((affords_segment first).bind fun _ _ => hrest).mono ?_
      have hlt := htotal first (by omega)
      have hmono : (first+1)*restartInterval ≤ (first+(count+1))*restartInterval :=
        Nat.mul_le_mul_right restartInterval (by omega)
      have hsum : min ((first+(count+1))*restartInterval) totalMcus-first*restartInterval =
          (min (first*restartInterval+restartInterval) totalMcus-first*restartInterval)+
            (min ((first+(count+1))*restartInterval) totalMcus-(first+1)*restartInterval) := by
        rw [Nat.succ_mul] at hmono ⊢
        omega
      rw [hsum,Nat.mul_add,if_neg (Nat.succ_ne_zero first)]
      split_ifs <;> omega

/-- A segment has an MCU. -/
theorem segments_le_mcus {first last : ℕ} (hinterval : 0 < restartInterval) (hlt : first < last)
    (hlast : (last-1)*restartInterval < totalMcus) :
    last-first ≤ min (last*restartInterval) totalMcus-first*restartInterval := by
  have hsplit : last*restartInterval = (last-1)*restartInterval+restartInterval := by
    rw [← Nat.succ_mul,Nat.succ_eq_add_one,Nat.sub_add_cancel (by omega)]
  have hchunk : (last-1)*restartInterval = first*restartInterval+(last-1-first)*restartInterval := by
    rw [← Nat.add_mul]
    congr 1
    omega
  have hone : last-1-first ≤ (last-1-first)*restartInterval := Nat.le_mul_of_pos_right _ hinterval
  omega

/-- The planned capacity holds a chunk. -/
theorem fits_chunk {first last : ℕ} (hinterval : 0 < restartInterval) (hfirst : first ≤ last)
    (htotal : ∀ i < last, i*restartInterval < totalMcus) {maxBytes : ℕ}
    (hmax : restartChunkEntropyCapacity totalMcus restartInterval first last input.sampling ≤
      maxBytes) :
    Fits (restartChunkBytes input mcusPerRow totalMcus restartInterval first last maxBytes)
      (restartChunkEntropyCapacity totalMcus restartInterval first last input.sampling) := by
  refine fits_runFresh (affords_segments hfirst htotal) ?_ hmax
  rcases Nat.eq_or_lt_of_le hfirst with rfl | hlt
  · right
    have hpast : min (first*restartInterval) totalMcus-first*restartInterval = 0 := by omega
    rw [hpast,Nat.sub_self,Nat.zero_sub,Nat.mul_zero]
  left
  have hpos := input.sampling.blocks_pos
  have hlast := htotal (last-1) (by omega)
  have hmcus := segments_le_mcus hinterval hlt hlast
  unfold restartChunkEntropyCapacity entropyCapacityForMcus
  generalize min (last*restartInterval) totalMcus-first*restartInterval = mcus at hmcus ⊢
  have hmarkers : last-first-(if first = 0 then 1 else 0) ≤ last-first := Nat.sub_le ..
  generalize last-first-(if first = 0 then 1 else 0) = markers at hmarkers ⊢
  have hprod : mcus ≤ mcus*blocksPerMcu input.sampling := Nat.le_mul_of_pos_right _ hpos
  rw [Nat.mul_assoc,Nat.mul_comm (blocksPerMcu input.sampling)]
  generalize mcus*blocksPerMcu input.sampling = blocks at hprod ⊢
  omega

/-- The plan for a run of segments is that of its parts together. -/
theorem capacity_append {middle last : ℕ} (h : middle ≤ last) (sampling : JpegBaselineSampling) :
    restartChunkEntropyCapacity totalMcus restartInterval 0 middle sampling+
      restartChunkEntropyCapacity totalMcus restartInterval middle last sampling =
    restartChunkEntropyCapacity totalMcus restartInterval 0 last sampling := by
  have hmono : middle*restartInterval ≤ last*restartInterval := Nat.mul_le_mul_right _ h
  have hmcus : min (last*restartInterval) totalMcus-0*restartInterval =
      (min (middle*restartInterval) totalMcus-0*restartInterval)+
        (min (last*restartInterval) totalMcus-middle*restartInterval) := by
    rw [Nat.zero_mul]
    omega
  have hmarkers : last-0-(if (0 : ℕ) = 0 then 1 else 0) = (middle-0-(if (0 : ℕ) = 0 then 1 else 0))+
      (last-middle-(if middle = 0 then 1 else 0)) := by
    rw [if_pos rfl]
    split_ifs <;> omega
  unfold restartChunkEntropyCapacity entropyCapacityForMcus
  rw [hmcus,hmarkers,Nat.add_mul,Nat.add_mul,Nat.add_mul]
  omega

/-- Each chunk fits its own plan, and joined they fit the whole. -/
theorem fits_join (mcusPerRow : ℕ) {n k entropyCapacity : ℕ} (hk : 0 < k) (hinterval : 0 < restartInterval)
    (htotal : ∀ i < n, i*restartInterval < totalMcus)
    (hcapacity : restartChunkEntropyCapacity totalMcus restartInterval 0 n input.sampling ≤
      entropyCapacity) {j : ℕ} (hj : j ≤ k) :
    Fits ((List.range j).foldlM (fun out chunkIndex => do
        let chunk ← runRestartJob input mcusPerRow totalMcus restartInterval n k chunkIndex
        extendFromSlice entropyCapacity out chunk) [])
      (restartChunkEntropyCapacity totalMcus restartInterval 0 (chunkStart n k j)
        input.sampling) := by
  induction j with
  | zero => exact fits_ok (Nat.zero_le _)
  | succ j ih =>
      have hmono : chunkStart n k j ≤ chunkStart n k (j+1) := chunkStart_mono n k (by omega)
      have hle := chunkStart_le (n := n) hk hj
      have hbefore := ih (by omega)
      have hjob : Fits (runRestartJob input mcusPerRow totalMcus restartInterval n k j) _ :=
        fits_chunk hinterval hmono (fun i hi => htotal i (by omega)) le_rfl
      have hsum := @capacity_append totalMcus restartInterval _ _ hmono input.sampling
      have hwhole := @capacity_append totalMcus restartInterval _ _ hle input.sampling
      rw [List.range_succ,List.foldlM_append]
      cases hout : (List.range j).foldlM (fun out chunkIndex => do
          let chunk ← runRestartJob input mcusPerRow totalMcus restartInterval n k chunkIndex
          extendFromSlice entropyCapacity out chunk) [] with
      | error e => exact fits_error (hbefore.no_overflow e hout) _
      | ok out =>
          rw [Fallible.ok_bind,List.foldlM_cons]
          simp only [List.foldlM_nil]
          cases hchunk : runRestartJob input mcusPerRow totalMcus restartInterval n k j with
          | error e => exact fits_error (hjob.no_overflow e hchunk) _
          | ok chunk =>
              have hbefore := hbefore.length_le out hout
              have hjob := hjob.length_le chunk hchunk
              rw [Fallible.ok_bind]
              unfold extendFromSlice
              rw [if_neg (by omega)]
              exact fits_ok (by rw [List.length_append]; omega)

/-- The markers of the whole plan are those of all segments. -/
theorem capacity_whole (totalMcus : ℕ) (hinterval : 0 < restartInterval) (sampling : JpegBaselineSampling) :
    restartChunkEntropyCapacity totalMcus restartInterval 0
        (TileGeometry.divCeil totalMcus restartInterval) sampling ≤
      entropyCapacityForMcus totalMcus sampling ((totalMcus-1)/restartInterval) := by
  have hmarkers : TileGeometry.divCeil totalMcus restartInterval-0-(if (0 : ℕ) = 0 then 1 else 0) ≤
      (totalMcus-1)/restartInterval := by
    rw [if_pos rfl,Nat.le_div_iff_mul_le hinterval]
    rcases Nat.eq_zero_or_pos (TileGeometry.divCeil totalMcus restartInterval) with hzero | hpos
    · rw [hzero]
      omega
    · have hlast := (TileGeometry.lt_divCeil_iff (v := totalMcus) hinterval).mp
        (Nat.sub_lt hpos one_pos)
      rw [Nat.sub_zero]
      omega
  unfold restartChunkEntropyCapacity entropyCapacityForMcus
  have hmcus : min (TileGeometry.divCeil totalMcus restartInterval*restartInterval) totalMcus-
      0*restartInterval ≤ totalMcus := (Nat.sub_le ..).trans (min_le_right ..)
  have hbytes := Nat.mul_le_mul_right (blocksPerMcu sampling) hmcus
  omega

end

/-! ## The capacity suffices -/

section
variable {input : EntropyInput} {capacity : ℕ}

theorem fits_empty : Fits (.ok []) capacity := fits_ok (Nat.zero_le _)

/-- What the layout and the plan have in common. -/
theorem capacity_layout {restartInterval : Option ℕ} {mcusPerRow totalMcus : ℕ}
    (hcapacity : entropyCapacityBytes input.width input.height input.sampling restartInterval =
      .ok capacity)
    (hlayout : input.entropyMcuLayout = .ok (mcusPerRow,totalMcus)) :
    capacity = entropyCapacityForMcus totalMcus input.sampling
      (restartInterval.elim 0 fun interval => (totalMcus-1)/interval)+16 := by
  unfold entropyMcuLayout at hlayout
  unfold entropyCapacityBytes at hcapacity
  dsimp only at hlayout hcapacity
  split_ifs at hlayout hcapacity
  obtain ⟨-,rfl⟩ := Prod.mk.inj (Except.ok.inj hlayout)
  exact (Except.ok.inj hcapacity).symm

theorem entropyMcuLayout_error {e : JpegEncodeError} (h : input.entropyMcuLayout = .error e) :
    ¬Overflow e := by
  unfold entropyMcuLayout at h
  dsimp only at h
  split_ifs at h
  cases h
  exact fun ⟨_,_,h⟩ => by cases h

theorem Fits.mono {r : Except JpegEncodeError (List ℕ)} {planned : ℕ} (h : Fits r planned)
    (hle : planned ≤ capacity) : Fits r capacity :=
  ⟨fun out hout => (h.length_le out hout).trans hle,h.no_overflow⟩

theorem parallelEntropyChunkCount_pos (segmentCount : ℕ) :
    0 < parallelEntropyChunkCount segmentCount := by
  show 0 < min (max segmentCount 1) 64
  omega

/-! ## Within a host -/

/-- An error that reports a limit reports the host's, which no store has, or that the allocator
gave a store more than it may hold. -/
def HostError (host : EncodeHost) (e : JpegEncodeError) : Prop :=
  ∀ requested cap, e = .memoryCapExceeded requested cap →
    (cap = maxHostAllocationBytes ∧ maxHostAllocationBytes < requested) ∨
      ∃ number, host.reserve number cap = some requested ∧ cap < requested

/-- The bytes are as many as planned at most, and no error reports that a store is full. -/
structure HostFits (host : EncodeHost) (r : Except JpegEncodeError (List ℕ)) (planned : ℕ) :
    Prop where
  length_le : ∀ out, r = .ok out → out.length ≤ planned
  no_overflow : ∀ e, r = .error e → HostError host e

section
variable {host : EncodeHost} {e : JpegEncodeError} {α : Type} {planned : ℕ}

theorem hostError_of_ne (h : ¬Overflow e) : HostError host e :=
  fun requested cap he => absurd ⟨requested,cap,he⟩ h

theorem hostError_limit {requested : ℕ} (h : maxHostAllocationBytes < requested) :
    HostError host (.memoryCapExceeded requested maxHostAllocationBytes) := by
  intro _ _ he
  cases he
  exact .inl ⟨rfl,h⟩

theorem Fits.within {r : Except JpegEncodeError (List ℕ)} (h : Fits r planned) :
    HostFits host r planned :=
  ⟨h.length_le,fun e he => hostError_of_ne (h.no_overflow e he)⟩

theorem hostFits_error (h : HostError host e) : HostFits host (.error e) planned :=
  ⟨nofun,fun _ he => Except.error.inj he ▸ h⟩

theorem HostFits.bind {x : Except JpegEncodeError α} {f : α → Except JpegEncodeError (List ℕ)}
    (hx : ∀ e, x = .error e → HostError host e)
    (hf : ∀ a, x = .ok a → HostFits host (f a) planned) : HostFits host (x >>= f) planned := by
  cases x with
  | error e => exact hostFits_error (hx e rfl)
  | ok a => exact hf a rfl

theorem hostError_bind {β : Type} {x : Except JpegEncodeError α} {f : α → Except JpegEncodeError β}
    (hx : ∀ e, x = .error e → HostError host e)
    (hf : ∀ a, x = .ok a → ∀ e, f a = .error e → HostError host e) :
    ∀ e, x >>= f = .error e → HostError host e := by
  intro e h
  cases x with
  | error e' =>
      cases h
      exact hx e rfl
  | ok a => exact hf a rfl e h

theorem checkedFrameCapacity_error (h : checkedFrameCapacity capacity = .error e) :
    HostError host e := by
  unfold checkedFrameCapacity at h
  split_ifs at h with hcap
  cases h
  refine hostError_limit ?_
  unfold maxEntropyBytes at hcap
  have hmax : maxHostAllocationBytes = 512*1024*1024 := rfl
  omega

theorem checkedLive_error {capacities : List ℕ}
    (h : checkedEncodeHostLiveBytes capacities = .error e) : HostError host e := by
  unfold checkedEncodeHostLiveBytes at h
  split_ifs at h with hword hcap
  · cases h
    exact hostError_limit (by decide)
  · cases h
    exact hostError_limit hcap

theorem tryWithCapacity_error {number maxLen : ℕ}
    (h : CappedBytes.tryWithCapacity host number maxLen = .error e) : HostError host e := by
  unfold CappedBytes.tryWithCapacity at h
  cases hreserve : host.reserve number maxLen with
  | none =>
      rw [hreserve] at h
      cases h
      exact hostError_of_ne fun ⟨_,_,h⟩ => nomatch h
  | some given =>
      rw [hreserve] at h
      dsimp only at h
      split_ifs at h with hmore
      cases h
      intro _ _ he
      cases he
      exact .inr ⟨number,hreserve,hmore⟩

theorem jobRecordBytes_error {count : ℕ} (h : jobRecordBytes host count = .error e) :
    HostError host e := by
  unfold jobRecordBytes at h
  split_ifs at h
  cases h
  exact hostError_limit (by decide)

theorem foldlM_error {σ β : Type} {f : σ → β → Except JpegEncodeError σ}
    (hf : ∀ s b e, f s b = .error e → HostError host e) (l : List β) (s : σ) :
    ∀ e, l.foldlM f s = .error e → HostError host e := by
  induction l generalizing s with
  | nil => exact nofun
  | cons b l ih =>
      rw [List.foldlM_cons]
      exact hostError_bind (hf s b) fun s _ => ih s

theorem workspacePlan_error {totalMcus restartInterval : ℕ} {sampling : JpegBaselineSampling}
    (h : restartEntropyWorkspacePlan host totalMcus sampling restartInterval capacity =
      .error e) : HostError host e := by
  unfold restartEntropyWorkspacePlan at h
  split_ifs at h
  · cases h
    exact hostError_of_ne fun ⟨_,_,h⟩ => nomatch h
  · refine hostError_bind (fun _ => jobRecordBytes_error) (fun _ _ => ?_) e h
    refine hostError_bind (foldlM_error (fun _ _ _ => checkedLive_error) _ _) fun _ _ => ?_
    exact hostError_bind (fun _ => checkedLive_error) fun _ _ _ => nofun

theorem prepareRestartJobs_error {capacities : ℕ → ℕ} {outputCapacity chunkCount : ℕ}
    (h : prepareRestartJobs host capacities outputCapacity chunkCount = .error e) :
    HostError host e := by
  unfold prepareRestartJobs at h
  cases hrecords : host.reserve 0 chunkCount with
  | none =>
      rw [hrecords] at h
      cases h
      exact hostError_of_ne fun ⟨_,_,h⟩ => nomatch h
  | some records =>
      rw [hrecords] at h
      refine hostError_bind (fun _ => jobRecordBytes_error) (fun metadataBytes _ => ?_) e h
      refine hostError_bind (foldlM_error (fun live chunkIndex => ?_) _ _) fun _ _ _ => nofun
      unfold prepareRestartJob checkedRestartChunkPreallocationLiveBytes
      refine hostError_bind (fun _ => checkedLive_error) fun _ _ => ?_
      refine hostError_bind (fun _ => tryWithCapacity_error) fun given _ => ?_
      split_ifs
      · intro e h
        cases h
        exact hostError_limit (by decide)
      · exact hostError_bind (fun _ => checkedLive_error) fun _ _ _ => nofun

theorem fits_whole (hcapacity : entropyCapacityBytes input.width input.height input.sampling none =
    .ok capacity) : HostFits host (encodeEntropyWhole host input capacity) capacity := by
  unfold encodeEntropyWhole
  refine HostFits.bind (fun _ => checkedFrameCapacity_error) fun _ _ => ?_
  refine HostFits.bind (fun _ h => hostError_of_ne (entropyMcuLayout_error h)) fun layout hlayout => ?_
  obtain ⟨mcusPerRow,totalMcus⟩ := layout
  have hplan := capacity_layout hcapacity hlayout
  dsimp only
  split_ifs with hzero
  · exact fits_empty.within
  refine HostFits.bind (fun _ => checkedLive_error) fun _ _ => ?_
  refine HostFits.bind (fun _ => tryWithCapacity_error) fun _ _ => ?_
  refine HostFits.bind (fun _ => checkedLive_error) fun _ _ => Fits.within ?_
  refine fits_runFresh (affords_encodeRange 0 totalMcus) (.inl ?_) le_rfl
  simp only [Option.elim_none,entropyCapacityForMcus] at hplan
  rw [Nat.sub_zero,Nat.mul_assoc,Nat.mul_comm (blocksPerMcu input.sampling)]
  omega

/-- All restart segments in one writer. -/
theorem fits_serial {restartInterval : ℕ}
    (hcapacity : entropyCapacityBytes input.width input.height input.sampling
      (some restartInterval) = .ok capacity) :
    HostFits host (encodeEntropySerial host input restartInterval capacity) capacity := by
  unfold encodeEntropySerial
  refine HostFits.bind (fun _ => checkedFrameCapacity_error) fun _ _ => ?_
  refine HostFits.bind (fun _ h => hostError_of_ne (entropyMcuLayout_error h)) fun layout hlayout => ?_
  obtain ⟨mcusPerRow,totalMcus⟩ := layout
  have hplan := capacity_layout hcapacity hlayout
  simp only [Option.elim_some] at hplan
  dsimp only
  split_ifs with hzero hinterval
  · exact fits_empty.within
  · exact hostFits_error (hostError_of_ne fun ⟨_,_,h⟩ => nomatch h)
  have hpos : 0 < restartInterval := Nat.pos_of_ne_zero hinterval
  have hwhole := capacity_whole totalMcus hpos input.sampling
  have hle := hwhole.trans ((Nat.le_add_right _ 16).trans_eq hplan.symm)
  unfold encodeEntropyRestartChunk
  refine HostFits.bind (fun _ => checkedLive_error) fun _ _ => ?_
  refine HostFits.bind (fun _ => tryWithCapacity_error) fun _ _ => ?_
  refine HostFits.bind (fun _ => checkedLive_error) fun _ _ => Fits.within ?_
  exact (fits_chunk hpos (Nat.zero_le _)
    (fun i hi => (TileGeometry.lt_divCeil_iff hpos).mp hi) hle).mono hle

/-- Restart segments in chunks. -/
theorem fits_restart {restartInterval : ℕ}
    (hcapacity : entropyCapacityBytes input.width input.height input.sampling
      (some restartInterval) = .ok capacity) :
    HostFits host (encodeEntropyRestartSegments host input restartInterval capacity) capacity := by
  unfold encodeEntropyRestartSegments
  split_ifs with hinterval
  · exact hostFits_error (hostError_of_ne fun ⟨_,_,h⟩ => nomatch h)
  have hpos : 0 < restartInterval := Nat.pos_of_ne_zero hinterval
  refine HostFits.bind (fun _ h => hostError_of_ne (entropyMcuLayout_error h)) fun layout hlayout => ?_
  obtain ⟨mcusPerRow,totalMcus⟩ := layout
  have hplan := capacity_layout hcapacity hlayout
  simp only [Option.elim_some] at hplan
  dsimp only
  split_ifs with hzero
  · exact fits_empty.within
  refine HostFits.bind (fun _ => checkedFrameCapacity_error) fun _ _ => ?_
  refine HostFits.bind (fun _ => workspacePlan_error) fun plan hworkspace => ?_
  refine HostFits.bind (fun _ => checkedLive_error) fun _ _ => ?_
  refine HostFits.bind (fun _ => checkedLive_error) fun _ _ => ?_
  refine HostFits.bind (fun _ => prepareRestartJobs_error) fun prepared _ => ?_
  refine HostFits.bind (fun _ => tryWithCapacity_error) fun _ _ => ?_
  refine HostFits.bind (fun _ => checkedLive_error) fun _ _ => Fits.within ?_
  rw [(restartEntropyWorkspacePlan_fields hpos hworkspace).1]
  have hk := parallelEntropyChunkCount_pos (TileGeometry.divCeil totalMcus restartInterval)
  have hwhole := capacity_whole totalMcus hpos input.sampling
  have hle := hwhole.trans ((Nat.le_add_right _ 16).trans_eq hplan.symm)
  have hjoin := fits_join mcusPerRow hk hpos
    (fun i hi => (TileGeometry.lt_divCeil_iff hpos).mp hi) hle le_rfl
  rw [show chunkStart _ _ _ = _ from Nat.mul_div_cancel _ hk] at hjoin
  exact hjoin.mono hle

end

end

/-- A plan of 512 bytes for a block and of two for a restart marker holds the bytes of any
restart segments, and so the entropy capacity holds a scan, in one writer or in chunks, and the
capacity of every chunk holds the chunk: no store reports an overflow, on any host. -/
theorem entropy_capacity_suffices (host : EncodeHost) (input : EntropyInput)
    (restartInterval : Option ℕ) {capacity : ℕ}
    (hcapacity : entropyCapacityBytes input.width input.height input.sampling restartInterval =
      .ok capacity) :
    (∀ start segments, Fits (encodeBlockSegments start segments
        (512*blockCount segments+2*markerCount start segments))
      (512*blockCount segments+2*markerCount start segments)) ∧
    HostFits host (encodeEntropy host input restartInterval capacity) capacity ∧
    ∀ interval ∈ restartInterval,
      HostFits host (encodeEntropySerial host input interval capacity) capacity ∧
      (0 < interval → ∀ mcusPerRow totalMcus,
        input.entropyMcuLayout = .ok (mcusPerRow,totalMcus) →
        let n := TileGeometry.divCeil totalMcus interval
        let k := parallelEntropyChunkCount n
        ∀ j < k, Fits (runRestartJob input mcusPerRow totalMcus interval n k j)
          (restartChunkEntropyCapacity totalMcus interval (restartChunkSegmentBounds n j k).1
            (restartChunkSegmentBounds n j k).2 input.sampling)) := by
  refine ⟨fits_blockSegments,?_,?_⟩
  · cases restartInterval with
    | none => exact fits_whole hcapacity
    | some interval => exact fits_restart hcapacity
  · rintro interval ⟨⟩
    refine ⟨fits_serial hcapacity,fun hinterval mcusPerRow totalMcus hlayout j hj => ?_⟩
    have hk := parallelEntropyChunkCount_pos (TileGeometry.divCeil totalMcus interval)
    have hle := chunkStart_le (n := TileGeometry.divCeil totalMcus interval) hk hj
    exact fits_chunk hinterval (chunkStart_mono _ _ (Nat.le_succ j))
      (fun i hi => (TileGeometry.lt_divCeil_iff hinterval).mp (Nat.lt_of_lt_of_le hi hle)) le_rfl

theorem entropy_capacity_suffices_two :
    HostFits idleHost (encodeEntropy idleHost twoFlatBlocks (some 1) 1042) 1042 :=
  (entropy_capacity_suffices idleHost twoFlatBlocks (some 1) (by decide)).2.1

end J2kNative.EntropyCapacity
