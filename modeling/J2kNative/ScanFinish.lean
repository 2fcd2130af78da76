import J2kNative.Fallible
import J2kNative.JpegBitStream
import J2kNative.LosslessScan

/-!
# The end of a scan

A sequential or lossless scan ends with a look at the marker that the bit reader
has seen. The reader sees a marker when it tries to refill beyond the last data
byte, so a scan whose last bits were all in the reservoir ends as if the input had
no marker. The runs of the reader over a scan are given by its steps, whatever
decoder takes them.
-/
namespace J2kNative.ScanFinish

open BitReader Fallible

inductive Warning where
  | missingEoi
  deriving DecidableEq, Repr

def finishScan (validateEoi : Bool) : Read (List Warning) := fun r =>
  if !validateEoi then .ok ([],r)
  else match r.takeMarker with
    | some (found,r) =>
      if found = 0xD9 then .ok ([],r) else .error (.unexpectedMarker (r.pos-2) .eoi found)
    | none => .ok ([.missingEoi],r)

/-! ## What the input says -/

/-- The code of the first marker from `start` on, and the bytes after it. -/
def markerFrom (bytes : List ℕ) (start : ℕ) : Option (ℕ × List ℕ) :=
  (splitAhead false (bytes.drop start)).2

/-- How a scan ends whose last restart interval starts at `start`. -/
def endOfScan (bytes : List ℕ) (start : ℕ) : Except JpegError (List Warning) :=
  match markerFrom bytes start with
  | none => .ok [.missingEoi]
  | some (found,rest) =>
    if found = 0xD9 then .ok []
    else .error (.unexpectedMarker (bytes.length-rest.length-2) .eoi found)

/-! ## Readers during a scan -/

/-- The readers that a decoder of the scan can leave; `start` is where the restart interval
starts that it is in. -/
inductive Reached (bytes : List ℕ) : ℕ → BitReader → Prop
  | opened (allowEofPadding : Bool) : Reached bytes 0 (newWithEofPadding bytes allowEofPadding)
  | refilled {start : ℕ} {r : BitReader} : Reached bytes start r →
      Reached bytes start r.refillOneByte.2
  | padded {start : ℕ} {r : BitReader} (count : ℕ) : Reached bytes start r →
      Reached bytes start (pad count r)
  | consumed {start : ℕ} {r : BitReader} (n : ℕ) : Reached bytes start r →
      Reached bytes start (consumed n r)
  | reset {start : ℕ} {r : BitReader} : Reached bytes start r → Reached bytes start r.resetAtRestart
  | restarted {start m : ℕ} {r s : BitReader} : Reached bytes start r →
      r.takeMarker = some (m,s) → Reached bytes s.pos s

/-- A step of a decoder, put together from steps of the reader. -/
def Steps {α : Type} (m : Read α) : Prop :=
  ∀ bytes start r a r', Reached bytes start r → m r = .ok (a,r') → ∃ start', Reached bytes start' r'

/-- The reader is in the input, and what it takes for the next marker is the first one of
the interval. -/
structure Placed (bytes : List ℕ) (start : ℕ) (r : BitReader) : Prop where
  bytes_eq : r.bytes = bytes
  next_eq : r.next = markerFrom bytes start
  markerEnd_le : r.marker.isSome → r.markerEnd ≤ bytes.length

theorem markerEnd_refillOneByte {r : BitReader} (hmarker : r.marker = none)
    (h : r.refillOneByte.2.marker.isSome) : r.refillOneByte.2.markerEnd ≤ r.bytes.length := by
  revert h
  unfold refillOneByte
  dsimp only
  split_ifs with hstop hff hend hzero
  · intro h
    rw [hmarker] at h
    exact nomatch h
  · intro h
    rw [hmarker] at h
    exact nomatch h
  · intro h
    rw [pushByte,hmarker] at h
    exact nomatch h
  · intro _
    exact Nat.lt_of_not_le hend
  · intro h
    rw [pushByte,hmarker] at h
    exact nomatch h

theorem Placed.refillOneByte {bytes : List ℕ} {start : ℕ} {r : BitReader}
    (h : Placed bytes start r) : Placed bytes start r.refillOneByte.2 := by
  have hkept : r.refillOneByte.2.next = r.next ∧ r.refillOneByte.2.bytes = r.bytes := by
    rcases r.refillOneByte_spec with ⟨-,pos,marker,markerEnd,heq,hnext,-⟩ |
      ⟨b,ds,pos,-,heq,-,hnext,-⟩
    · exact ⟨hnext,by rw [heq]⟩
    · exact ⟨hnext,by rw [heq]; rfl⟩
  refine ⟨hkept.2.trans h.bytes_eq,hkept.1.trans h.next_eq,fun hsome => ?_⟩
  cases hmarker : r.marker with
  | none =>
      rw [← h.bytes_eq]
      exact markerEnd_refillOneByte hmarker hsome
  | some m =>
      have hsame : r.refillOneByte = (false,r) := if_pos (Or.inl (by rw [hmarker]; rfl))
      rw [hsame]
      exact h.markerEnd_le (by rw [hmarker]; rfl)

theorem Placed.pad {bytes : List ℕ} {start : ℕ} (count : ℕ) {r : BitReader}
    (h : Placed bytes start r) : Placed bytes start (pad count r) := by
  induction count generalizing r with
  | zero => exact h
  | succ count ih => exact ih ⟨h.bytes_eq,h.next_eq,h.markerEnd_le⟩

theorem Reached.placed {bytes : List ℕ} {start : ℕ} {r : BitReader} (h : Reached bytes start r) :
    Placed bytes start r := by
  induction h with
  | opened _ => exact ⟨rfl,rfl,nofun⟩
  | refilled _ ih => exact ih.refillOneByte
  | padded count _ ih => exact ih.pad count
  | consumed _ _ ih => exact ⟨ih.bytes_eq,ih.next_eq,ih.markerEnd_le⟩
  | reset _ ih => exact ⟨ih.bytes_eq,ih.next_eq,ih.markerEnd_le⟩
  | @restarted start m r s _ htake ih =>
      unfold takeMarker at htake
      cases hmarker : r.marker with
      | none =>
          rw [hmarker] at htake
          exact nomatch htake
      | some m =>
          rw [hmarker] at htake
          obtain ⟨-,rfl⟩ := Prod.mk.inj (Option.some.inj htake)
          refine ⟨ih.bytes_eq,?_,nofun⟩
          rw [← ih.bytes_eq]
          rfl

/-- The end of a scan is told right exactly when the reader has seen the next marker, or
there is none. -/
theorem Placed.finish_iff {bytes : List ℕ} {start : ℕ} {r : BitReader}
    (h : Placed bytes start r) : (finishScan true r).map Prod.fst = endOfScan bytes start ↔
      (markerFrom bytes start).isSome → r.marker.isSome := by
  have hnext := h.next_eq
  unfold finishScan endOfScan takeMarker
  cases hmarker : r.marker with
  | some m =>
      have hend := h.markerEnd_le (by rw [hmarker]; rfl)
      rw [next,hmarker,h.bytes_eq] at hnext
      rw [← hnext]
      refine ⟨fun _ _ => rfl,fun _ => ?_⟩
      show (if m = 0xD9 then Except.ok ([],_)
        else Except.error (JpegError.unexpectedMarker (r.markerEnd-2) .eoi m)).map Prod.fst = _
      simp only [List.length_drop]
      rw [Nat.sub_sub_self hend]
      split_ifs
      · rfl
      · rfl
  | none =>
      cases hfrom : markerFrom bytes start with
      | none => exact ⟨fun _ h => h,fun _ => rfl⟩
      | some found =>
          refine ⟨fun heq => ?_,fun hseen => absurd (hseen rfl) Bool.false_ne_true⟩
          change (Except.ok [Warning.missingEoi] : Except JpegError _) =
            if found.1 = 0xD9 then .ok [] else .error _ at heq
          split_ifs at heq
          exact absurd (Except.ok.inj heq) (List.cons_ne_nil _ _)

/-! ## The decoders take steps of the reader -/

section Steps
variable {α β : Type}

theorem steps_pure (a : α) : Steps (pure a : Read α) := by
  intro bytes start r b r' h hrun
  obtain ⟨-,rfl⟩ := Prod.mk.inj (Except.ok.inj hrun)
  exact ⟨start,h⟩

theorem steps_throw (e : JpegError) : Steps (throw e : Read α) := fun _ _ _ _ _ _ => nofun

theorem Steps.bind {m : Read α} {f : α → Read β} (hm : Steps m) (hf : ∀ a, Steps (f a)) :
    Steps (m >>= f) := by
  intro bytes start r b r' h hrun
  obtain ⟨⟨a,s⟩,hfirst,hrest⟩ := bind_eq_ok.mp hrun
  obtain ⟨start',hs⟩ := hm bytes start r a s h hfirst
  exact hf a bytes start' s b r' hs hrest

theorem Steps.ite {p : Prop} [Decidable p] {m n : Read α} (hm : Steps m) (hn : Steps n) :
    Steps (if p then m else n) := by
  split_ifs
  · exact hm
  · exact hn

theorem Steps.foldlM {f : α → β → Read α} {l : List β} (hf : ∀ a, ∀ b ∈ l, Steps (f a b)) (a : α) :
    Steps (l.foldlM f a) := by
  induction l generalizing a with
  | nil => exact steps_pure a
  | cons b l ih =>
      rw [List.foldlM_cons]
      exact (hf a b (by simp)).bind fun a => ih (fun a b hb => hf a b (List.mem_cons_of_mem _ hb)) a

variable {bytes : List ℕ} {start : ℕ} {r : BitReader}

theorem Reached.refillLoop (limit turns : ℕ) (h : Reached bytes start r) :
    Reached bytes start (refillLoop limit turns r) := by
  induction turns generalizing r with
  | zero => exact h
  | succ turns ih =>
      rw [BitReader.refillLoop]
      split_ifs
      · exact ih h.refilled
      · exact h.refilled
      · exact h

theorem steps_ensureBits (n : ℕ) : Steps (ensureBits n) := by
  intro bytes start r a r' h hrun
  unfold ensureBits at hrun
  dsimp only at hrun
  split_ifs at hrun
  obtain ⟨-,rfl⟩ := Prod.mk.inj (Except.ok.inj hrun)
  exact ⟨start,h.refillLoop n n⟩

theorem steps_ensureBitsPadded (n : ℕ) : Steps (ensureBitsPadded n) := by
  intro bytes start r a r' h hrun
  have hfilled := h.refillLoop n n
  unfold ensureBitsPadded at hrun
  dsimp only at hrun
  split_ifs at hrun
  · obtain ⟨-,rfl⟩ := Prod.mk.inj (Except.ok.inj hrun)
    exact ⟨start,hfilled.padded _⟩
  · obtain ⟨-,rfl⟩ := Prod.mk.inj (Except.ok.inj hrun)
    exact ⟨start,hfilled.refillLoop refillThreshold refillThreshold⟩
  · obtain ⟨-,rfl⟩ := Prod.mk.inj (Except.ok.inj hrun)
    exact ⟨start,hfilled⟩

theorem steps_peek (n : ℕ) : Steps (peek n) := by
  intro bytes start r a r' h hrun
  obtain ⟨-,rfl⟩ := Prod.mk.inj (Except.ok.inj hrun)
  exact ⟨start,h⟩

theorem steps_consumeBits (n : ℕ) : Steps (consumeBits n) := by
  intro bytes start r a r' h hrun
  obtain ⟨-,rfl⟩ := Prod.mk.inj (Except.ok.inj hrun)
  exact ⟨start,h.consumed n⟩

theorem steps_modify {f : BitReader → BitReader}
    (hf : ∀ bytes start r, Reached bytes start r → Reached bytes start (f r)) :
    Steps (modify f : Read PUnit) := by
  intro bytes start r a r' h hrun
  obtain ⟨-,rfl⟩ := Prod.mk.inj (Except.ok.inj hrun)
  exact ⟨start,hf bytes start r h⟩

theorem steps_receiveExtend (ssss : ℕ) : Steps (receiveExtend ssss) :=
  Steps.ite (steps_pure 0) ((steps_ensureBits ssss).bind fun _ => (steps_peek ssss).bind fun v =>
    (steps_consumeBits ssss).bind fun _ => steps_pure (extend v ssss))

theorem steps_consumeRestartMarker (expectedRst mcuAt mcuTotal : ℕ) :
    Steps (consumeRestartMarker expectedRst mcuAt mcuTotal) := by
  intro bytes start r a r' h hrun
  have hprobed : Reached bytes start
      (if r.marker = none ∧ r.bits ≤ 7 then r.refillOneByte.2 else r) := by
    split_ifs
    · exact h.refilled
    · exact h
  unfold consumeRestartMarker at hrun
  dsimp only at hrun
  generalize hprobe : (if r.marker = none ∧ r.bits ≤ 7 then r.refillOneByte.2 else r) = s
    at hrun hprobed
  cases htake : s.takeMarker with
  | none =>
      rw [htake] at hrun
      exact nomatch hrun
  | some found =>
      rw [htake] at hrun
      dsimp only at hrun
      split_ifs at hrun
      obtain ⟨-,rfl⟩ := Prod.mk.inj (Except.ok.inj hrun)
      exact ⟨found.2.pos,(hprobed.restarted htake).reset⟩

variable (table : HuffmanTable)

theorem steps_decodeSlow : Steps table.decodeSlow := by
  refine (steps_ensureBitsPadded 16).bind fun _ => (steps_peek 16).bind fun code16 => ?_
  cases table.slowLen code16 with
  | none => exact steps_throw _
  | some len =>
      refine (steps_consumeBits len).bind fun _ => ?_
      split
      · exact steps_throw _
      · exact steps_pure _

theorem steps_decode : Steps table.decode :=
  (steps_ensureBitsPadded fastBits).bind fun _ => (steps_peek fastBits).bind fun _ =>
    Steps.ite ((steps_consumeBits _).bind fun _ => steps_pure _) (steps_decodeSlow table)

theorem steps_decodeFastDc : Steps table.decodeFastDc :=
  (steps_ensureBitsPadded fastBits).bind fun _ => (steps_peek fastBits).bind fun _ =>
    Steps.ite ((steps_consumeBits _).bind fun _ => steps_pure _)
      ((steps_decode table).bind fun ssss => Steps.ite (steps_throw _) (steps_receiveExtend ssss))

end Steps

/-! ## Lossless scans -/

variable (scan : LosslessScan)

/-- The loops of a lossless scan from a reader on. -/
def runUnits : Read (LosslessRestartTracker × Samples) :=
  scan.units.foldlM scan.decodeUnit (scan.tracker,fun _ _ _ => 0)

theorem steps_decodePlaneSample (c : ResolvedLosslessComponent) (x y : ℕ) (first : Bool)
    (s : Samples) : Steps (scan.decodePlaneSample c x y first s) :=
  (steps_decodeFastDc c.dcTable).bind fun _ =>
    (Steps.ite (steps_pure _) (steps_throw _)).bind fun _ => steps_pure _

theorem steps_decodeMcu (mcuX mcuY : ℕ) (first : Bool) (s : Samples) :
    Steps (scan.decodeMcu mcuX mcuY first s) :=
  Steps.foldlM (fun s c _ => Steps.foldlM (fun s _ _ => Steps.foldlM (fun s _ _ =>
    Steps.ite (steps_pure s) (steps_decodePlaneSample scan c _ _ _ s)) s) s) s

theorem steps_restarted (t : LosslessRestartTracker) (unitIndex : ℕ) :
    Steps (t.restarted unitIndex) :=
  Steps.ite (((steps_modify fun _ _ _ h => h.reset).bind fun _ =>
    steps_consumeRestartMarker _ _ _).bind fun _ => steps_pure _) (steps_pure t)

theorem steps_runUnits : Steps (runUnits scan) :=
  Steps.foldlM (fun state unit _ => (steps_restarted state.1 _).bind fun t =>
    (steps_decodeMcu scan unit.1 unit.2 t.isFirst state.2).bind fun _ => steps_pure _) _

/-- Whatever decoder of a scan succeeds, the end of the scan is told as the input has it
exactly when the reader has already seen the marker that ends the last interval, or there is
none. -/
theorem finishScan_iff {α : Type} {m : Read α} (hm : Steps m) {bytes : List ℕ}
    {allowEofPadding : Bool} {a : α} {r : BitReader}
    (h : m (newWithEofPadding bytes allowEofPadding) = .ok (a,r)) :
    ∃ start, Reached bytes start r ∧ ((finishScan true r).map Prod.fst = endOfScan bytes start ↔
      ((markerFrom bytes start).isSome → r.marker.isSome)) := by
  obtain ⟨start,hreached⟩ := hm bytes 0 _ a r (Reached.opened allowEofPadding) h
  exact ⟨start,hreached,hreached.placed.finish_iff⟩

/-! ## A scan that ends in the reservoir -/

/-- One code of two bits, for the category 8. -/
def oneCode : RawHuffmanTable where
  bits := [0,1,0,0,0,0,0,0,0,0,0,0,0,0,0,0]
  values := [8]
  bits_length := rfl
  values_lt := by decide

/-- Five differences of ten bits, six bits of padding, and the marker EOI. -/
def fiveSamples : List ℕ := [0x1F,0xC8,0x01,0xFC,0xFE,0x00,0x7F,0xFF,0xD9]

theorem finishScan_iff_fiveSamples : ∃ table r start,
    HuffmanTable.fromRaw oneCode .dc = .ok table ∧ Reached fiveSamples start r ∧
    ((finishScan true r).map Prod.fst = endOfScan fiveSamples start ↔
      ((markerFrom fiveSamples start).isSome → r.marker.isSome)) := by
  obtain ⟨table,htable,a,r,hrun⟩ : ∃ table, HuffmanTable.fromRaw oneCode .dc = .ok table ∧
      ∃ a r, runUnits (losslessGray .u8 1 5 1 none table)
        (newWithEofPadding fiveSamples false) = .ok (a,r) := ⟨_,rfl,_,_,rfl⟩
  obtain ⟨start,h⟩ := finishScan_iff (steps_runUnits _) hrun
  exact ⟨table,r,start,htable,h⟩

/-- The last difference is read from a reservoir that held all seven bytes; the scan ends
with a warning although EOI follows. -/
theorem eoi_reported_missing : ∃ table, HuffmanTable.fromRaw oneCode .dc = .ok table ∧
    (((runUnits (losslessGray .u8 1 5 1 none table)) >>= fun _ => finishScan true)
      (BitReader.new fiveSamples)).map Prod.fst = .ok [.missingEoi] ∧
    endOfScan fiveSamples 0 = .ok [] := by
  refine ⟨_,rfl,?_,?_⟩
  · rfl
  · rfl

end J2kNative.ScanFinish
