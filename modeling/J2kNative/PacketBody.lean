import J2kNative.MqRoundTrip
import Mathlib.Data.List.Chain

/-!
# Codeword segments in a packet body

A packet body is the data of its code blocks, and that of a code block the
codeword segments it was coded in, each closed by the flush of its own encoder.
Inside a segment the stuffing of the coder keeps every byte after `0xFF` below
the marker range. The flush does not drop a final `0xFF`, so at the seam of two
segments nothing does: which seams are safe is read off the registers with which
the two segments are flushed.
-/
namespace J2kNative.PacketBody
open StuffedDigits MqStates MqEncoder MqInterval MqRoundTrip

/-! ## Packet bodies -/

structure EncodedCodeBlock where
  numCodingPasses : ℕ
  data : List ℕ
  deriving DecidableEq, Repr

/-- `append_packet_body` over the sub-bands of a packet. -/
def appendPacketBody (data : List ℕ) (subbands : List (List EncodedCodeBlock)) : List ℕ :=
  subbands.foldl (fun data codeBlocks => codeBlocks.foldl (fun data codeBlock =>
    if codeBlock.numCodingPasses > 0 then data ++ codeBlock.data else data) data) data

/-- No byte after `0xFF` is in the marker range. -/
def MarkerFree (data : List ℕ) : Prop := data.IsChain fun a b => a = 0xFF → b ≤ 0x8F

instance (data : List ℕ) : Decidable (MarkerFree data) :=
  inferInstanceAs (Decidable (data.IsChain _))

/-! ## Bytes of a flush -/

/-- The settled code register as the flush shifts it out, below the last byte written. -/
def flushedCode (s : ArithmeticEncoder) : ℕ := s.setBits.c <<< s.ct

/-- The last byte written, after the carry that the flush still moves into it. -/
def carried (s : ArithmeticEncoder) : ℕ :=
  if s.lastByte = 0xFF then 0xFF else s.lastByte + flushedCode s / 2 ^ 27

/-- The register is flushed with ones in the place of the last byte. -/
def EndsFull (s : ArithmeticEncoder) : Prop :=
  let width := stuffedWidth (carried s)
  flushedCode s % 2 ^ 27 / 2 ^ (27 - width) ≠ 0xFF ∧ flushedCode s / 2 ^ (19 - width) % 2 ^ 8 = 0xFF

/-- The byte after the sentinel ends up in the marker range. -/
def OpensHigh (s : ArithmeticEncoder) : Prop :=
  0x8F < (s.data.dropLast ++ [carried s, flushedCode s % 2 ^ 27 / 2 ^ 19]).getD 1 0

instance (s : ArithmeticEncoder) : Decidable (EndsFull s) := inferInstanceAs (Decidable (_ ∧ _))

instance (s : ArithmeticEncoder) : Decidable (OpensHigh s) := inferInstanceAs (Decidable (_ < _))

private theorem cancel_scaled {x y u v w z p : ℕ} (h : x + u = y + v)
    (hp : x * p + w = y * p + z) : v * p + w = u * p + z := by
  have hm : x * p + u * p = y * p + v * p := by
    rw [← add_mul,← add_mul,h]
  omega

/-- The byte written, the carry and what is left in the register add up. -/
theorem emitted_byte_eq {s t : ArithmeticEncoder} {front : List ℕ} {last last' b : ℕ}
    (e : Emitted s t front last last' b) (hs : s.data = front ++ [last]) :
    last' * 2 ^ 27 + (b * 2 ^ (27 - stuffedWidth last') + t.c) = last * 2 ^ 27 + s.c := by
  have hv := e.value
  have hw : 2 ^ 27 = 2 ^ stuffedWidth last' * 2 ^ (27 - stuffedWidth last') := by
    rw [← pow_add]
    congr 1
    obtain h | h := stuffedWidth_cases last' <;> omega
  have hl := valueOf_append front last' last [b] []
  rw [e.data,e.ct,valueOf_append_succ,hs,add_mul,mul_assoc,← hw] at hv
  rw [add_assoc] at hv
  exact cancel_scaled hl hv

theorem emitted_byte_lt {s t : ArithmeticEncoder} {front : List ℕ} {last last' b : ℕ}
    (e : Emitted s t front last last' b) : last' < 256 ∧ b < 256 ∧ (last' = 0xFF → b ≤ 0x8F) := by
  have hd := e.data
  refine ⟨e.stuffed.byte_lt _ (by simp [hd]),e.stuffed.byte_lt _ (by simp [hd]),fun hff => ?_⟩
  have ha := e.stuffed.after front.length (by simp [hd])
  rw [hd,digits_append_length,digits_append_succ] at ha
  exact ha hff

/-- The carry of a byte output is bit 27 of the register, unless the last byte is full. -/
theorem emitted_last {s t : ArithmeticEncoder} {front : List ℕ} {last last' b : ℕ}
    (e : Emitted s t front last last' b) (hs : s.data = front ++ [last]) (hc : s.c < 2 ^ 28) :
    last' = if last = 0xFF then 0xFF else last + s.c / 2 ^ 27 := by
  have heq := emitted_byte_eq e hs
  have hle := e.last_le
  obtain ⟨hlast,hb,hff⟩ := emitted_byte_lt e
  have ht : t.c < 2 ^ (27 - stuffedWidth last') := by
    rw [e.c,e.ct]
    exact Nat.mod_lt _ (Nat.two_pow_pos _)
  unfold stuffedWidth at heq ht
  by_cases h : last' = 0xFF
  · have := hff h
    rw [if_pos h] at heq ht
    split_ifs <;> omega
  · rw [if_neg h] at heq ht
    split_ifs <;> omega

theorem settled_ready {s : ArithmeticEncoder} (h : Coding s) : Ready (settled s) :=
  (settled_narrow h).ready h.toReady

theorem drained_ready {s : ArithmeticEncoder} (h : Coding s) : Ready (drain (settled s)) := by
  have hpow : 2 ^ s.ct ≤ 2 ^ 12 := Nat.pow_le_pow_right two_pos h.ct_le
  exact drain_ready (settled_ready h) (by simp [settled]; omega)

theorem flushedCode_lt {s : ArithmeticEncoder} (h : Coding s) : flushedCode s < 2 ^ 28 := by
  have := (shiftBy_room (settled_ready h).toRoom le_rfl).registers_lt
  exact (Nat.le_add_right _ _).trans_lt this

/-- What the flush writes after the bytes before the last. -/
theorem flush_bytes {s : ArithmeticEncoder} (h : Coding s) : ∃ front last b₁ b₂,
    s.data = front ++ [last] ∧ s.flush.data = front ++ [carried s,b₁,b₂] ∧ b₁ < 256 ∧
    carried s * 2 ^ 27 + (b₁ * 2 ^ (27 - stuffedWidth (carried s)) +
      flushedCode s % 2 ^ (27 - stuffedWidth (carried s))) = last * 2 ^ 27 + flushedCode s ∧
    b₂ = flushedCode s % 2 ^ (27 - stuffedWidth (carried s)) * 2 ^ stuffedWidth (carried s) /
      2 ^ (27 - stuffedWidth b₁) ∧
    (carried s = 0xFF → b₁ ≤ 0x8F) := by
  obtain ⟨front,last,last',b₁,hs,e₁⟩ := drain_spec (settled_ready h)
  obtain ⟨front₂,last₂,last₂',b₂,hs₂,e₂⟩ := drain_spec (drained_ready h)
  have hcarried : last' = carried s := by
    have hlast : s.lastByte = last := by
      have hd : s.data = front ++ [last] := hs
      simp [ArithmeticEncoder.lastByte,hd]
    rw [emitted_last e₁ hs (flushedCode_lt h),carried,hlast]
    rfl
  rw [hcarried] at e₁
  have hsplit : front₂ = front ++ [carried s] ∧ last₂ = b₁ := by
    have hd := e₁.data.symm.trans hs₂
    have hd' : (front ++ [carried s]) ++ [b₁] = front₂ ++ [last₂] := by simpa using hd
    have := List.append_inj' hd' rfl
    exact ⟨this.1.symm,by simpa using this.2.symm⟩
  obtain ⟨rfl,rfl⟩ := hsplit
  obtain ⟨_,hb,hff⟩ := emitted_byte_lt e₁
  have hc₁ : (drain (settled s)).c = flushedCode s % 2 ^ (27 - stuffedWidth (carried s)) := by
    rw [e₁.c,e₁.ct]
    rfl
  have heq := emitted_byte_eq e₁ hs
  have hc₂ : (shiftBy (drain (settled s)).ct (drain (settled s))).c =
      flushedCode s % 2 ^ (27 - stuffedWidth (carried s)) * 2 ^ stuffedWidth (carried s) := by
    change (drain (settled s)).c <<< (drain (settled s)).ct = _
    rw [hc₁,e₁.ct,Nat.shiftLeft_eq]
  have hpow : 2 ^ 27 = 2 ^ (27 - stuffedWidth (carried s)) * 2 ^ stuffedWidth (carried s) := by
    rw [← pow_add]
    congr 1
    obtain h | h := stuffedWidth_cases (carried s) <;> omega
  have hlt : (shiftBy (drain (settled s)).ct (drain (settled s))).c < 2 ^ 27 := by
    rw [hc₂,hpow]
    exact Nat.mul_lt_mul_of_pos_right (Nat.mod_lt _ (Nat.two_pow_pos _)) (Nat.two_pow_pos _)
  have hlast₂ : last₂' = last₂ := by
    rw [emitted_last e₂ hs₂ (hlt.trans (by decide)),Nat.div_eq_of_lt hlt]
    split_ifs with h
    · exact h.symm
    · rfl
  subst hlast₂
  have heq₂ := emitted_byte_eq e₂ hs₂
  refine ⟨front,last,last₂',b₂,hs,?_,hb,?_,?_,hff⟩
  · rw [flush_data,e₂.data]
    simp
  · rw [hc₁] at heq
    exact heq
  · have ht : (drain (drain (settled s))).c < 2 ^ (27 - stuffedWidth last₂') := by
      rw [e₂.c,e₂.ct]
      exact Nat.mod_lt _ (Nat.two_pow_pos _)
    rw [← hc₂]
    refine (Nat.div_eq_of_lt_le ?_ ?_).symm
    · omega
    · rw [add_mul,one_mul]
      omega

theorem flush_stuffed {s : ArithmeticEncoder} (h : Coding s) : Stuffed s.flush.data := by
  obtain ⟨_,_,_,_,_,e⟩ := drain_spec (drained_ready h)
  rw [flush_data]
  exact e.stuffed

/-! ## Ends of a segment -/

theorem finish_ne_nil {s : ArithmeticEncoder} (h : Coding s) : s.finish ≠ [] := by
  have hlen := flush_length h
  intro hnil
  have := List.drop_eq_nil_iff.mp hnil
  have := List.length_pos_iff.mpr h.data_ne
  omega

theorem finish_markerFree {s : ArithmeticEncoder} (h : Coding s) : MarkerFree s.finish := by
  have hafter := (flush_stuffed h).after
  unfold MarkerFree ArithmeticEncoder.finish
  refine (List.isChain_iff_getElem.mpr fun i hi hd => ?_).drop 1
  have := hafter i hi
  unfold digits at this
  rw [List.getD_eq_getElem _ _ (by omega),List.getD_eq_getElem _ _ hi] at this
  exact this hd

private theorem last_eq_full {c w : ℕ} (hw : w ≤ 8) : c % 2 ^ (27 - w) * 2 ^ w / 2 ^ 19 =
    c / 2 ^ (19 - w) % 2 ^ 8 := by
  have h19 : 2 ^ 19 = 2 ^ (19 - w) * 2 ^ w := by
    rw [← pow_add]
    congr 1
    omega
  rw [h19,Nat.mul_div_mul_right _ _ (Nat.two_pow_pos w),show 27 - w = 19 - w + 8 by omega,pow_add,
    Nat.mod_mul_right_div_self]

/-- A segment ends in `0xFF` exactly when its register is flushed full. -/
theorem finish_getLast_iff {s : ArithmeticEncoder} (h : Coding s) :
    s.finish.getLast? = some 0xFF ↔ EndsFull s := by
  obtain ⟨front,last,b₁,b₂,hs,hflush,hb,heq,hb₂,hff⟩ := flush_bytes h
  have hne := finish_ne_nil h
  have hlast : s.finish.getLast? = some b₂ := by
    unfold ArithmeticEncoder.finish at hne ⊢
    rw [List.getLast?_drop,if_neg (fun hle => hne (List.drop_eq_nil_iff.mpr hle)),hflush]
    simp
  have hw := stuffedWidth_cases (carried s)
  have hfirst : b₁ = 0xFF ↔ flushedCode s % 2 ^ 27 / 2 ^ (27 - stuffedWidth (carried s)) = 0xFF := by
    unfold stuffedWidth at heq ⊢
    split_ifs at heq ⊢ with hc
    · have := hff hc
      omega
    · omega
  rw [hlast,Option.some.injEq,hb₂]
  unfold EndsFull
  dsimp only
  rw [Ne,← hfirst,← last_eq_full (by omega)]
  have hr : flushedCode s % 2 ^ (27 - stuffedWidth (carried s)) *
      2 ^ stuffedWidth (carried s) < 2 ^ 27 := by
    have hpow : 2 ^ 27 = 2 ^ (27 - stuffedWidth (carried s)) * 2 ^ stuffedWidth (carried s) := by
      rw [← pow_add]
      congr 1
      omega
    rw [hpow]
    exact Nat.mul_lt_mul_of_pos_right (Nat.mod_lt _ (Nat.two_pow_pos _)) (Nat.two_pow_pos _)
  unfold stuffedWidth at hr ⊢
  by_cases hfull : b₁ = 0xFF
  · rw [if_pos hfull]
    omega
  · simp [hfull]

/-- The first byte of a segment is in the marker range exactly when the register says so. -/
theorem finish_head_iff {s : ArithmeticEncoder} (h : Coding s) :
    (∃ b ∈ s.finish.head?, 0x8F < b) ↔ OpensHigh s := by
  obtain ⟨front,last,b₁,b₂,hs,hflush,hb,heq,-,hff⟩ := flush_bytes h
  have hfirst : s.finish.head? = some ((front ++ [carried s,b₁]).getD 1 0) := by
    rw [ArithmeticEncoder.finish,hflush]
    match front with
    | [] => rfl
    | [_] => rfl
    | _ :: _ :: _ => rfl
  have hopen : OpensHigh s ↔
      0x8F < (front ++ [carried s,flushedCode s % 2 ^ 27 / 2 ^ 19]).getD 1 0 := by
    rw [OpensHigh,hs,List.dropLast_concat]
  rw [hfirst,hopen]
  clear hfirst hopen
  rcases front with _ | ⟨x,_ | ⟨y,front⟩⟩
  · -- nothing was written yet, so the sentinel precedes the byte
    have hsent : carried s = 0 := by
      have := (flush_stuffed h).sentinel
      simpa [hflush,digits] using this
    have hlast : last = 0 := by
      have := h.stuffed.sentinel
      simpa [hs,digits] using this
    rw [hsent,hlast,show stuffedWidth 0 = 8 from rfl] at heq
    have hbyte : flushedCode s % 2 ^ 27 / 2 ^ 19 = b₁ := by omega
    simp [← hbyte]
  · simp
  · simp

/-! ## Seams -/

section
variable {κ : Type*} [DecidableEq κ]

/-- The decisions of one codeword segment and the labels it starts from. -/
structure SegmentRun (κ : Type*) where
  ctxs : κ → Context
  valid : ∀ label, (ctxs label).Valid
  decisions : List (κ × Bool)

/-- The encoder of a segment before its flush. -/
def SegmentRun.encoder (run : SegmentRun κ) : ArithmeticEncoder :=
  (encodeDecisions ArithmeticEncoder.new run.ctxs run.decisions).1

theorem SegmentRun.coding (run : SegmentRun κ) : Coding run.encoder :=
  encodeDecisions_coding coding_new run.valid run.decisions

/-- A code block with the segments that it was coded in. -/
structure SegmentedBlock (κ : Type*) where
  numCodingPasses : ℕ
  segments : List (SegmentRun κ)

/-- The code block of the packet: its segments' bytes, one after the other. -/
def SegmentedBlock.encoded (block : SegmentedBlock κ) : EncodedCodeBlock :=
  ⟨block.numCodingPasses, (block.segments.map fun run => run.encoder.finish).flatten⟩

/-- The segments of a packet in the order in which the body holds them. -/
def bodySegments (subbands : List (List (SegmentedBlock κ))) : List (SegmentRun κ) :=
  (subbands.flatten.filter fun block => block.numCodingPasses > 0).flatMap SegmentedBlock.segments

theorem appendPacketBody_eq (data : List ℕ) (subbands : List (List EncodedCodeBlock)) :
    appendPacketBody data subbands =
      data ++ (subbands.flatten.filter fun b => b.numCodingPasses > 0).flatMap EncodedCodeBlock.data := by
  have hblocks (data : List ℕ) (blocks : List EncodedCodeBlock) :
      blocks.foldl (fun data b => if b.numCodingPasses > 0 then data ++ b.data else data) data =
        data ++ (blocks.filter fun b => b.numCodingPasses > 0).flatMap EncodedCodeBlock.data := by
    induction blocks generalizing data with
    | nil => simp
    | cons b blocks ih =>
        rw [List.foldl_cons,ih]
        by_cases hb : b.numCodingPasses > 0 <;> simp [hb]
  unfold appendPacketBody
  induction subbands generalizing data with
  | nil => simp
  | cons blocks subbands ih =>
      rw [List.foldl_cons,hblocks,ih,List.flatten_cons,List.filter_append,List.flatMap_append,
        List.append_assoc]

theorem appendPacketBody_segments (subbands : List (List (SegmentedBlock κ))) :
    appendPacketBody [] (subbands.map fun blocks => blocks.map SegmentedBlock.encoded) =
      ((bodySegments subbands).map fun run => run.encoder.finish).flatten := by
  rw [appendPacketBody_eq,List.nil_append,← List.map_flatten,List.filter_map,List.flatMap_map,
    bodySegments,List.map_flatMap,List.flatMap_def,List.flatMap_def,List.flatten_flatten,
    List.map_map]
  rfl

/-- The body of a packet of codeword segments holds no marker exactly when no segment that
is flushed full is followed by one that opens in the marker range. -/
theorem packet_body_marker_free_iff (subbands : List (List (SegmentedBlock κ))) :
    MarkerFree (appendPacketBody [] (subbands.map fun blocks =>
        blocks.map SegmentedBlock.encoded)) ↔
      (bodySegments subbands).IsChain fun run next =>
        EndsFull run.encoder → ¬ OpensHigh next.encoder := by
  have hne : [] ∉ (bodySegments subbands).map fun run => run.encoder.finish := by
    intro hmem
    obtain ⟨run,-,hnil⟩ := List.mem_map.mp hmem
    exact finish_ne_nil run.coding hnil
  rw [appendPacketBody_segments,MarkerFree,List.isChain_flatten hne,List.isChain_map]
  have hinner : ∀ l ∈ (bodySegments subbands).map fun run => run.encoder.finish, MarkerFree l := by
    intro l hl
    obtain ⟨run,-,rfl⟩ := List.mem_map.mp hl
    exact finish_markerFree run.coding
  have hseam (run next : SegmentRun κ) :
      (∀ a ∈ run.encoder.finish.getLast?, ∀ b ∈ next.encoder.finish.head?, a = 0xFF → b ≤ 0x8F) ↔
        (EndsFull run.encoder → ¬ OpensHigh next.encoder) := by
    rw [← finish_getLast_iff run.coding,← finish_head_iff next.coding]
    constructor
    · rintro hall hlast ⟨b,hb,hlt⟩
      exact absurd (hall _ hlast b hb rfl) (by omega)
    · intro hno a ha b hb hff
      subst hff
      exact Nat.not_lt.mp fun hlt => hno ha ⟨b,hb,hlt⟩
  simp only [hseam]
  exact and_iff_right hinner

end

/-- A segment of the given symbols under one fresh label. -/
def freshSegment (symbols : List Bool) : SegmentRun Unit :=
  ⟨fun _ => 0, fun _ => by decide, symbols.map fun bit => ((), bit)⟩

/-- A likely symbol flushes to a final `0xFF`, and an unlikely one opens with `0xFF`. -/
theorem packet_body_marker : ¬ MarkerFree (appendPacketBody []
    [[SegmentedBlock.encoded ⟨1, [freshSegment [false]]⟩,
      SegmentedBlock.encoded ⟨1, [freshSegment [true]]⟩]]) := by
  decide

end J2kNative.PacketBody
