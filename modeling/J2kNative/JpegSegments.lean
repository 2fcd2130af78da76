import J2kNative.JpegBitReader
import J2kNative.IteratorRuns
import Mathlib.Data.List.GetD

/-!
# Segments of a JPEG stream

The iterator over the marker segments, with the scanner that passes over entropy
data. It stops for good after the end of the image, or where entropy data is the
last; after the other errors it goes on from where it stands. So iteration is
finite, with nothing after an error, exactly for the strings that read as marker
segments up to such an end.
-/
namespace J2kNative

open BitReader IteratorRuns

/-- The first marker from `pos` on that is neither a stuffed byte nor a restart: its last `0xFF`
and its code. -/
def nextMarkerAfterEntropy (bytes : List ℕ) (pos : ℕ) : Except JpegError (Option (ℕ × ℕ)) :=
  if _h : pos < bytes.length then
    match (bytes.drop pos).findIdx? (· == 0xFF) with
    | none => .ok none
    | some rel =>
      let codePos := afterFill bytes (pos+rel+1)
      if bytes.length ≤ codePos then .error (.truncated codePos 1)
      else
        let code := byteAt bytes codePos
        if code = 0 ∨ 0xD0 ≤ code ∧ code ≤ 0xD7 then nextMarkerAfterEntropy bytes (codePos+1)
        else .ok (some (codePos-1,code))
  else .ok none
termination_by bytes.length-pos
decreasing_by
  unfold afterFill
  omega

structure JpegSegment where
  marker : ℕ
  markerOffset : ℕ
  payloadOffset : ℕ
  payload : List ℕ
  deriving DecidableEq, Repr

structure JpegSegmentIter where
  input : List ℕ
  pos : ℕ
  started : Bool
  finished : Bool
  scanEntropy : Bool
  deriving DecidableEq, Repr

namespace JpegSegmentIter

def iterSegments (input : List ℕ) : JpegSegmentIter := ⟨input,0,false,false,false⟩

def readSoi (s : JpegSegmentIter) : Except JpegError JpegSegment × JpegSegmentIter :=
  if s.input.length < 2 then (.error (.truncated 0 (2-s.input.length)),s)
  else if byteAt s.input 0 ≠ 0xFF ∨ byteAt s.input 1 ≠ 0xD8 then
    (.error (.unexpectedMarker 0 .soi (byteAt s.input 1)),s)
  else (.ok ⟨0xD8,0,2,[]⟩,{ s with pos := 2 })

/-- The segment after the marker `marker`, whose code is right before the position. -/
def readPayload (s : JpegSegmentIter) (marker markerOffset : ℕ) :
    Except JpegError JpegSegment × JpegSegmentIter :=
  if s.input.length < s.pos+2 then (.error (.truncated s.pos (s.pos+2-s.input.length)),s)
  else
    let length := byteAt s.input s.pos*256+byteAt s.input (s.pos+1)
    if length < 2 then (.error (.invalidSegmentLength s.pos marker length),s)
    else
      let payloadOffset := s.pos+2
      let payloadEnd := s.pos+length
      if s.input.length < payloadEnd then
        (.error (.truncated payloadOffset (payloadEnd-s.input.length)),s)
      else
        (.ok ⟨marker,markerOffset,payloadOffset,
            (s.input.drop payloadOffset).take (payloadEnd-payloadOffset)⟩,
          { s with pos := payloadEnd, scanEntropy := s.scanEntropy || marker = 0xDA })

def readSegment (s : JpegSegmentIter) : Except JpegError JpegSegment × JpegSegmentIter :=
  if s.input.length ≤ s.pos then (.error (.truncated s.pos 2),s)
  else if byteAt s.input s.pos ≠ 0xFF then
    (.error (.invalidMarker s.pos (byteAt s.input s.pos)),s)
  else
    let codePos := afterFill s.input s.pos
    if s.input.length ≤ codePos then (.error (.truncated codePos 1),{ s with pos := codePos })
    else
      let marker := byteAt s.input codePos
      let s := { s with pos := codePos+1 }
      if marker = 1 ∨ 0xD0 ≤ marker ∧ marker ≤ 0xD9 then
        (.ok ⟨marker,codePos-1,s.pos,[]⟩,{ s with finished := s.finished || marker = 0xD9 })
      else if marker = 0 then (.error (.invalidMarker (codePos-1) marker),s)
      else s.readPayload marker (codePos-1)

def readStandaloneMarker (s : JpegSegmentIter) : Except JpegError JpegSegment × JpegSegmentIter :=
  if s.input.length ≤ s.pos+1 then (.error (.truncated s.pos (s.pos+2-s.input.length)),s)
  else
    let marker := byteAt s.input (s.pos+1)
    (.ok ⟨marker,s.pos,s.pos+2,[]⟩,
      { s with pos := s.pos+2, finished := s.finished || marker = 0xD9 })

/-- An item of a reading function. -/
def yielded (r : Except JpegError JpegSegment × JpegSegmentIter) :
    Option (Except JpegError JpegSegment) × JpegSegmentIter := (some r.1,r.2)

def next (s : JpegSegmentIter) : Option (Except JpegError JpegSegment) × JpegSegmentIter :=
  if s.finished then (none,s)
  else if ¬s.started then yielded { s with started := true }.readSoi
  else if s.scanEntropy then
    match nextMarkerAfterEntropy s.input s.pos with
    | .ok (some (markerOffset,marker)) =>
      let s := { s with pos := markerOffset, scanEntropy := false }
      if marker = 0xD9 then yielded s.readStandaloneMarker else yielded s.readSegment
    | .ok none => (none,{ s with finished := true })
    | .error error => (some (.error error),{ s with finished := true })
  else yielded s.readSegment

/-! ## Strings of segments -/

/-- The code of the marker at `pos` and the place after it. -/
def markerAt (input : List ℕ) (pos : ℕ) : Option (ℕ × ℕ) :=
  if pos < input.length ∧ byteAt input pos = 0xFF ∧ afterFill input pos < input.length then
    some (byteAt input (afterFill input pos),afterFill input pos+1)
  else none

def segmentLength (input : List ℕ) (p : ℕ) : ℕ := byteAt input p*256+byteAt input (p+1)

/-- A marker with a segment, which lies inside the string. -/
def HasSegment (input : List ℕ) (code p : ℕ) : Prop :=
  code ≠ 0 ∧ code ≠ 1 ∧ ¬(0xD0 ≤ code ∧ code ≤ 0xD9) ∧ p+2 ≤ input.length ∧
    2 ≤ segmentLength input p ∧ p+segmentLength input p ≤ input.length

/-- From `pos` on the string reads as markers, up to the end of the image or to entropy data that
no marker but the end of the image follows. -/
inductive Ends (input : List ℕ) : ℕ → Prop
  | eoi {pos p : ℕ} : markerAt input pos = some (0xD9,p) → Ends input pos
  | standalone {pos code p : ℕ} : markerAt input pos = some (code,p) →
      code = 1 ∨ 0xD0 ≤ code ∧ code ≤ 0xD8 → Ends input p → Ends input pos
  | segment {pos code p : ℕ} : markerAt input pos = some (code,p) → HasSegment input code p →
      code ≠ 0xDA → Ends input (p+segmentLength input p) → Ends input pos
  | lastScan {pos p : ℕ} : markerAt input pos = some (0xDA,p) → HasSegment input 0xDA p →
      (∀ offset code, nextMarkerAfterEntropy input (p+segmentLength input p) =
        .ok (some (offset,code)) → code = 0xD9) → Ends input pos
  | scan {pos p offset code : ℕ} : markerAt input pos = some (0xDA,p) → HasSegment input 0xDA p →
      nextMarkerAfterEntropy input (p+segmentLength input p) = .ok (some (offset,code)) →
      code ≠ 0xD9 → Ends input offset → Ends input pos

/-- The string starts an image and ends it. -/
def Ended (input : List ℕ) : Prop :=
  2 ≤ input.length ∧ byteAt input 0 = 0xFF ∧ byteAt input 1 = 0xD8 ∧ Ends input 2

/-! ## Runs -/

def atMarker (input : List ℕ) (pos : ℕ) : JpegSegmentIter := ⟨input,pos,true,false,false⟩
def atEntropy (input : List ℕ) (pos : ℕ) : JpegSegmentIter := ⟨input,pos,true,false,true⟩

theorem next_atMarker (input : List ℕ) (pos : ℕ) :
    next (atMarker input pos) = yielded (readSegment (atMarker input pos)) := rfl

theorem finishesIn_of_finished {s : JpegSegmentIter} (h : s.finished = true) :
    FinishesIn next 0 s := finishesIn_zero (if_pos h) (if_pos h)

/-- An error that leaves the iterator at a marker is not the last item. -/
theorem not_finishes_of_error {input : List ℕ} {s : JpegSegmentIter} {pos : ℕ} {error : JpegError}
    (h : next s = (some (.error error),atMarker input pos)) : ¬Finishes next s := by
  rw [finishes_of_error h]
  exact not_finishesIn_zero (next_atMarker input pos)

variable {input : List ℕ} {pos p code : ℕ}

theorem afterFill_ge (bytes : List ℕ) (pos : ℕ) : pos ≤ afterFill bytes pos := Nat.le_add_right _ _

theorem markerAt_gt (h : markerAt input pos = some (code,p)) : pos < p ∧ p ≤ input.length := by
  unfold markerAt at h
  split_ifs at h with hmarker
  cases h
  have := afterFill_ge input pos
  omega

/-- Reading where no marker is. -/
theorem readSegment_of_none (h : markerAt input pos = none) :
    ∃ error pos', readSegment (atMarker input pos) = (.error error,atMarker input pos') := by
  unfold markerAt at h
  split_ifs at h with hmarker
  by_cases hend : input.length ≤ pos
  · exact ⟨_,pos,if_pos hend⟩
  · by_cases hff : byteAt input pos = 0xFF
    · have hcode : input.length ≤ afterFill input pos := by
        by_contra hcode
        exact hmarker ⟨by omega,hff,by omega⟩
      exact ⟨_,afterFill input pos,(if_neg hend).trans ((if_neg (not_not.mpr hff)).trans
        (if_pos hcode))⟩
    · exact ⟨_,pos,(if_neg hend).trans (if_pos hff)⟩

theorem readSegment_of_marker (h : markerAt input pos = some (code,p)) :
    readSegment (atMarker input pos) =
      if code = 1 ∨ 0xD0 ≤ code ∧ code ≤ 0xD9 then
        (.ok ⟨code,p-2,p,[]⟩,{ atMarker input p with finished := code = 0xD9 })
      else if code = 0 then (.error (.invalidMarker (p-2) code),atMarker input p)
      else readPayload (atMarker input p) code (p-2) := by
  unfold markerAt at h
  split_ifs at h with hmarker
  cases h
  obtain ⟨hlt,hff,hcode⟩ := hmarker
  exact (if_neg (Nat.not_le.mpr hlt)).trans ((if_neg (not_not.mpr hff)).trans
    (if_neg (Nat.not_le.mpr hcode)))

theorem readPayload_of_not (hcode : code ≠ 0 ∧ code ≠ 1 ∧ ¬(0xD0 ≤ code ∧ code ≤ 0xD9))
    (h : ¬HasSegment input code p) (markerOffset : ℕ) :
    ∃ error, readPayload (atMarker input p) code markerOffset = (.error error,atMarker input p) := by
  by_cases h1 : input.length < p+2
  · exact ⟨_,if_pos h1⟩
  · by_cases h2 : segmentLength input p < 2
    · exact ⟨_,(if_neg h1).trans (if_pos h2)⟩
    · by_cases h3 : input.length < p+segmentLength input p
      · exact ⟨_,(if_neg h1).trans ((if_neg h2).trans (if_pos h3))⟩
      · exact absurd ⟨hcode.1,hcode.2.1,hcode.2.2,by omega,by omega,by omega⟩ h

theorem readPayload_of_hasSegment (h : HasSegment input code p) (markerOffset : ℕ) :
    ∃ segment, readPayload (atMarker input p) code markerOffset = (.ok segment,
      if code = 0xDA then atEntropy input (p+segmentLength input p)
      else atMarker input (p+segmentLength input p)) := by
  obtain ⟨-,-,-,h1,h2,h3⟩ := h
  refine ⟨_,(if_neg (Nat.not_lt.mpr h1)).trans ((if_neg (Nat.not_lt.mpr h2)).trans
    ((if_neg (Nat.not_lt.mpr h3)).trans (Prod.ext rfl ?_)))⟩
  by_cases hscan : code = 0xDA
  · subst hscan
    rfl
  · rw [if_neg hscan]
    simp [atMarker,hscan,segmentLength]

/-! ## The end of a run -/

theorem byteAt_of_findIdx {bytes : List ℕ} {pos rel : ℕ}
    (h : (bytes.drop pos).findIdx? (· == 0xFF) = some rel) : byteAt bytes (pos+rel) = 0xFF := by
  obtain ⟨hlt,hget,-⟩ := List.findIdx?_eq_some_iff_getElem.mp h
  rw [List.getElem_drop,beq_iff_eq] at hget
  rw [byteAt,List.getD_eq_getElem _ _ (by rw [List.length_drop] at hlt; omega)]
  exact hget

theorem getElem?_fill {l : List ℕ} {i : ℕ} (h : i < fillLength l) : l[i]? = some 0xFF := by
  induction l generalizing i with
  | nil => exact absurd h (Nat.not_lt_zero i)
  | cons b l ih =>
      rw [fillLength] at h
      split_ifs at h with hb
      · cases i with
        | zero => rw [hb]; rfl
        | succ i => exact ih (Nat.lt_of_succ_lt_succ h)
      · exact absurd h (Nat.not_lt_zero i)

theorem byteAt_fill {bytes : List ℕ} {pos i : ℕ} (hi : pos ≤ i) (hlt : i < afterFill bytes pos) :
    byteAt bytes i = 0xFF := by
  have h := getElem?_fill (show i-pos < fillLength (bytes.drop pos) by
    unfold afterFill at hlt
    omega)
  rw [List.getElem?_drop,show pos+(i-pos) = i by omega] at h
  rw [byteAt,List.getD_eq_getElem?_getD,h]
  rfl

/-- The marker after entropy data. -/
theorem nextMarkerAfterEntropy_some {bytes : List ℕ} {pos offset code : ℕ}
    (h : nextMarkerAfterEntropy bytes pos = .ok (some (offset,code))) :
    pos ≤ offset ∧ offset+1 < bytes.length ∧ byteAt bytes offset = 0xFF ∧
      byteAt bytes (offset+1) = code := by
  induction hn : bytes.length-pos using Nat.strong_induction_on generalizing pos with
  | _ n ih =>
      rw [nextMarkerAfterEntropy] at h
      split at h
      · next hlt =>
          split at h
          · cases h
          · next rel hrel =>
              dsimp only at h
              split_ifs at h with hend hskip
              · have hge := afterFill_ge bytes (pos+rel+1)
                have := ih (bytes.length-(afterFill bytes (pos+rel+1)+1)) (by omega) h rfl
                omega
              · cases h
                have hge := afterFill_ge bytes (pos+rel+1)
                refine ⟨by omega,by omega,?_,?_⟩
                · by_cases heq : afterFill bytes (pos+rel+1) = pos+rel+1
                  · rw [heq,Nat.add_sub_cancel]
                    exact byteAt_of_findIdx hrel
                  · exact byteAt_fill (by omega) (show _ < afterFill bytes (pos+rel+1) by omega)
                · rw [Nat.sub_add_cancel (by omega)]
      · cases h

/-- After entropy data the run goes on at the next marker, if that is not the end. -/
theorem finishes_atEntropy (input : List ℕ) (pos : ℕ) :
    Finishes next (atEntropy input pos) ↔
      ∀ offset code, nextMarkerAfterEntropy input pos = .ok (some (offset,code)) →
        code = 0xD9 ∨ Finishes next (atMarker input offset) := by
  cases hnext : nextMarkerAfterEntropy input pos with
  | error error =>
      have hstep : next (atEntropy input pos) =
          (some (.error error),{ atEntropy input pos with finished := true }) := by
        show (match nextMarkerAfterEntropy input pos with
          | .ok (some (markerOffset,marker)) => _
          | .ok none => _
          | .error error => _) = _
        rw [hnext]
      rw [finishes_of_error hstep]
      exact ⟨fun _ _ _ => nofun,fun _ => finishesIn_of_finished rfl⟩
  | ok found =>
      have hstep : next (atEntropy input pos) = match (.ok found : Except JpegError _) with
          | .ok (some (markerOffset,marker)) =>
            if marker = 0xD9 then yielded (readStandaloneMarker (atMarker input markerOffset))
            else yielded (readSegment (atMarker input markerOffset))
          | .ok none => (none,{ atEntropy input pos with finished := true })
          | .error error => (some (.error error),{ atEntropy input pos with finished := true }) := by
        rw [← hnext]
        rfl
      cases found with
      | none => exact ⟨fun _ _ _ => nofun,fun _ => ⟨0,finishesIn_zero hstep (if_pos rfl)⟩⟩
      | some found =>
          obtain ⟨offset,code⟩ := found
          obtain ⟨-,hlt,-,hcode⟩ := nextMarkerAfterEntropy_some hnext
          dsimp only at hstep
          by_cases heoi : code = 0xD9
          · have hread : readStandaloneMarker (atMarker input offset) =
                (.ok ⟨0xD9,offset,offset+2,[]⟩,⟨input,offset+2,true,true,false⟩) := by
              rw [heoi] at hcode
              refine (if_neg (Nat.not_le.mpr hlt)).trans ?_
              show (Except.ok (JpegSegment.mk (byteAt input (offset+1)) offset (offset+2) []),
                JpegSegmentIter.mk input (offset+2) true (false || byteAt input (offset+1) = 0xD9)
                  false) = _
              rw [hcode]
              rfl
            rw [if_pos heoi,hread] at hstep
            rw [finishes_of_ok hstep]
            refine ⟨fun _ o c h => .inl ?_,fun _ => ⟨0,finishesIn_of_finished rfl⟩⟩
            cases h
            exact heoi
          · rw [if_neg heoi,← next_atMarker] at hstep
            rw [finishes_congr hstep]
            refine ⟨fun h o c ho => .inr ?_,fun h => (h offset code rfl).resolve_left heoi⟩
            cases ho
            exact h

/-- The ways a string ends properly from a marker, by the code of the marker. -/
theorem ends_iff (h : markerAt input pos = some (code,p)) : Ends input pos ↔
    code = 0xD9 ∨ (code = 1 ∨ 0xD0 ≤ code ∧ code ≤ 0xD8) ∧ Ends input p ∨
      HasSegment input code p ∧ if code = 0xDA then ∀ offset c,
        nextMarkerAfterEntropy input (p+segmentLength input p) = .ok (some (offset,c)) →
          c = 0xD9 ∨ Ends input offset
      else Ends input (p+segmentLength input p) := by
  constructor
  · intro hends
    cases hends with
    | eoi h' =>
        rw [h] at h'
        cases h'
        exact .inl rfl
    | standalone h' hcode hends =>
        rw [h] at h'
        cases h'
        exact .inr (.inl ⟨hcode,hends⟩)
    | segment h' hsegment hcode hends =>
        rw [h] at h'
        cases h'
        rw [if_neg hcode]
        exact .inr (.inr ⟨hsegment,hends⟩)
    | lastScan h' hsegment hlast =>
        rw [h] at h'
        cases h'
        exact .inr (.inr ⟨hsegment,fun offset c hnext => .inl (hlast offset c hnext)⟩)
    | scan h' hsegment hnext hcode hends =>
        rw [h] at h'
        cases h'
        refine .inr (.inr ⟨hsegment,fun offset c hnext' => .inr ?_⟩)
        rw [hnext] at hnext'
        cases hnext'
        exact hends
  · rintro (rfl | ⟨hcode,hends⟩ | ⟨hsegment,hrest⟩)
    · exact .eoi h
    · exact .standalone h hcode hends
    · split_ifs at hrest with hscan
      · subst hscan
        by_cases hlast : ∀ offset c, nextMarkerAfterEntropy input (p+segmentLength input p) =
            .ok (some (offset,c)) → c = 0xD9
        · exact .lastScan h hsegment hlast
        · push Not at hlast
          obtain ⟨offset,c,hnext,hc⟩ := hlast
          exact .scan h hsegment hnext hc ((hrest offset c hnext).resolve_left hc)
      · exact .segment h hsegment hscan hrest

/-- A run from a marker finishes exactly when the string ends properly from there. -/
theorem finishes_atMarker (input : List ℕ) (pos : ℕ) :
    Finishes next (atMarker input pos) ↔ Ends input pos := by
  induction hn : input.length-pos using Nat.strong_induction_on generalizing pos with
  | _ n ih =>
      cases hmarker : markerAt input pos with
      | none =>
          obtain ⟨error,pos',hread⟩ := readSegment_of_none hmarker
          have hstep : next (atMarker input pos) = (some (.error error),atMarker input pos') := by
            rw [next_atMarker,hread]
            rfl
          refine ⟨fun h => absurd h (not_finishes_of_error hstep),fun h => ?_⟩
          cases h <;> simp_all
      | some found =>
          obtain ⟨code,p⟩ := found
          have hread := readSegment_of_marker hmarker
          obtain ⟨hgt,hle⟩ := markerAt_gt hmarker
          rw [ends_iff hmarker]
          by_cases hstandalone : code = 1 ∨ 0xD0 ≤ code ∧ code ≤ 0xD9
          · rw [if_pos hstandalone] at hread
            have hstep : next (atMarker input pos) = (some (.ok ⟨code,p-2,p,[]⟩),
                { atMarker input p with finished := code = 0xD9 }) := by
              rw [next_atMarker,hread]
              rfl
            rw [finishes_of_ok hstep]
            by_cases heoi : code = 0xD9
            · subst heoi
              exact ⟨fun _ => .inl rfl,fun _ => ⟨0,finishesIn_of_finished rfl⟩⟩
            · have hstate : { atMarker input p with finished := code = 0xD9 } = atMarker input p := by
                simp [atMarker,heoi]
              rw [hstate,ih (input.length-p) (by omega) p rfl]
              refine ⟨fun h => .inr (.inl ⟨by omega,h⟩),?_⟩
              rintro (h | ⟨-,h⟩ | ⟨h,-⟩)
              · exact absurd h heoi
              · exact h
              · exact absurd hstandalone (by rintro (h1 | h1); exact h.2.1 h1; exact h.2.2.1 h1)
          · rw [if_neg hstandalone] at hread
            push Not at hstandalone
            by_cases hsegment : HasSegment input code p
            · obtain ⟨segment,hpayload⟩ := readPayload_of_hasSegment hsegment (p-2)
              rw [if_neg hsegment.1,hpayload] at hread
              have hstep : next (atMarker input pos) = (some (.ok segment),
                  if code = 0xDA then atEntropy input (p+segmentLength input p)
                  else atMarker input (p+segmentLength input p)) := by
                rw [next_atMarker,hread]
                rfl
              have hlength := hsegment.2.2.2.2.1
              have hinside := hsegment.2.2.2.2.2
              rw [finishes_of_ok hstep]
              have hrest : Finishes next (if code = 0xDA
                    then atEntropy input (p+segmentLength input p)
                    else atMarker input (p+segmentLength input p)) ↔
                  if code = 0xDA then ∀ offset c, nextMarkerAfterEntropy input
                      (p+segmentLength input p) = .ok (some (offset,c)) →
                        c = 0xD9 ∨ Ends input offset
                  else Ends input (p+segmentLength input p) := by
                split_ifs with hscan
                · rw [finishes_atEntropy]
                  refine forall_congr' fun offset => forall_congr' fun c =>
                    imp_congr_right fun hnext => or_congr_right ?_
                  have := (nextMarkerAfterEntropy_some hnext).1
                  exact ih (input.length-offset) (by omega) offset rfl
                · exact ih _ (by omega) _ rfl
              rw [hrest]
              refine ⟨fun h => .inr (.inr ⟨hsegment,h⟩),?_⟩
              rintro (h | ⟨h,-⟩ | ⟨-,h⟩)
              · omega
              · omega
              · exact h
            · have herror : ∃ error, readSegment (atMarker input pos) =
                  (.error error,atMarker input p) := by
                rw [hread]
                split_ifs with hzero
                · exact ⟨_,rfl⟩
                · exact readPayload_of_not ⟨hzero,hstandalone.1,fun h => by omega⟩ hsegment _
              obtain ⟨error,herror⟩ := herror
              have hstep : next (atMarker input pos) = (some (.error error),atMarker input p) := by
                rw [next_atMarker,herror]
                rfl
              refine ⟨fun h => absurd h (not_finishes_of_error hstep),?_⟩
              rintro (h | ⟨h,-⟩ | ⟨h,-⟩)
              · omega
              · omega
              · exact absurd h hsegment

/-- Iterating over the segments of a string ends, with no item after an error, exactly when the
string starts an image and ends it. -/
theorem iterSegments_finishes_iff (input : List ℕ) :
    Finishes next (iterSegments input) ↔ Ended input := by
  have hstep : next (iterSegments input) =
      yielded (readSoi ⟨input,0,true,false,false⟩) := rfl
  by_cases hsoi : 2 ≤ input.length ∧ byteAt input 0 = 0xFF ∧ byteAt input 1 = 0xD8
  · have hread : readSoi ⟨input,0,true,false,false⟩ = (.ok ⟨0xD8,0,2,[]⟩,atMarker input 2) :=
      (if_neg (Nat.not_lt.mpr hsoi.1)).trans (if_neg (by
        rintro (h | h)
        · exact h hsoi.2.1
        · exact h hsoi.2.2))
    rw [hread] at hstep
    rw [finishes_of_ok hstep,finishes_atMarker]
    exact ⟨fun h => ⟨hsoi.1,hsoi.2.1,hsoi.2.2,h⟩,fun h => h.2.2.2⟩
  · have hread : ∃ error, readSoi ⟨input,0,true,false,false⟩ = (.error error,atMarker input 0) := by
      by_cases hshort : input.length < 2
      · exact ⟨_,if_pos hshort⟩
      · refine ⟨_,(if_neg hshort).trans (if_pos ?_)⟩
        by_contra h
        push Not at h
        exact hsoi ⟨by omega,h⟩
    obtain ⟨error,hread⟩ := hread
    rw [hread] at hstep
    exact ⟨fun h => absurd h (not_finishes_of_error hstep),
      fun h => absurd ⟨h.1,h.2.1,h.2.2.1⟩ hsoi⟩

/-- An image with nothing after its start yields the same error for ever. -/
theorem segments_of_empty_image (n : ℕ) :
    item next (n+1) (iterSegments [0xFF,0xD8]) = some (.error (.truncated 2 2)) := by
  have hafter : ∀ n, after next n (atMarker [0xFF,0xD8] 2) = atMarker [0xFF,0xD8] 2 := by
    intro n
    induction n with
    | zero => rfl
    | succ n ih => exact ih
  show (next (after next n (atMarker [0xFF,0xD8] 2))).1 = _
  rw [hafter]
  rfl

theorem empty_image_unfinished : ¬Finishes next (iterSegments [0xFF,0xD8]) := by
  rintro ⟨n,hn⟩
  have hnone := hn.ended (n+1) (Nat.le_succ n)
  rw [segments_of_empty_image] at hnone
  cases hnone

end JpegSegmentIter
end J2kNative
