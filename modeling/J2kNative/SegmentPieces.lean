import J2kNative.EntropyScanners

/-!
# Pieces of a JPEG stream

The bytes of a segment from its marker on, without fill bytes. The iterator over the segments
finds pieces, and where a stream has a piece it finds that one, but for a restart marker
behind a scan, which it takes for entropy data.
-/
namespace J2kNative.JpegSegmentIter
open BitReader EntropyScanners

/-- The bytes of a segment with some marker and payload. -/
inductive IsPiece (marker : ℕ) : List ℕ → List ℕ → Prop
  | standalone : marker = 1 ∨ 0xD0 ≤ marker ∧ marker ≤ 0xD7 → IsPiece marker [] [0xFF,marker]
  | segment {hi lo : ℕ} {payload : List ℕ} : marker ≠ 0 → marker ≠ 1 →
      ¬(0xD0 ≤ marker ∧ marker ≤ 0xD9) → marker ≠ 0xFF → hi*256+lo = payload.length+2 →
      IsPiece marker payload (0xFF :: marker :: hi :: lo :: payload)

def segmentEnd (segment : JpegSegment) : ℕ := segment.payloadOffset+segment.payload.length

/-- The bytes from the marker to the end of the segment. -/
def segmentBytes (input : List ℕ) (segment : JpegSegment) : List ℕ :=
  (input.drop segment.markerOffset).take (segmentEnd segment-segment.markerOffset)

/-- DQT or DHT. -/
def isTable (marker : ℕ) : Bool := marker = 0xDB || marker = 0xC4

section
variable {input : List ℕ} {pos p code : ℕ} {s' : JpegSegmentIter} {segment : JpegSegment}

/-- Behind the fill bytes there is another byte. -/
theorem byteAt_afterFill (h : afterFill input pos < input.length) :
    byteAt input (afterFill input pos) ≠ 0xFF := by
  have hlist (l : List ℕ) (hl : fillLength l < l.length) : l[fillLength l]? ≠ some 0xFF := by
    induction l with
    | nil => exact absurd hl (Nat.not_lt_zero _)
    | cons b l ih =>
        rw [fillLength] at hl ⊢
        split_ifs at hl ⊢ with hb
        · exact ih (Nat.lt_of_succ_lt_succ hl)
        · exact fun heq => hb (Option.some.inj heq)
  unfold afterFill at h ⊢
  have hfill := hlist (input.drop pos) (by rw [List.length_drop]; omega)
  rw [List.getElem?_drop] at hfill
  intro hff
  rw [byteAt,List.getD_eq_getElem _ _ h] at hff
  rw [List.getElem?_eq_getElem h,hff] at hfill
  exact hfill rfl

/-- The marker and its code, right before `p`. -/
theorem markerAt_bytes (h : markerAt input pos = some (code,p)) :
    code ≠ 0xFF ∧ pos+2 ≤ p ∧ p ≤ input.length ∧
      input.drop (p-2) = 0xFF :: code :: input.drop p := by
  unfold markerAt at h
  split_ifs at h with hmarker
  cases h
  obtain ⟨hlt,hff,hcode⟩ := hmarker
  have hne := byteAt_afterFill hcode
  have hge := afterFill_ge input pos
  have hgt : pos < afterFill input pos := by
    rcases Nat.lt_or_ge pos (afterFill input pos) with hgt | hle
    · exact hgt
    · rw [Nat.le_antisymm hle hge] at hne
      exact absurd hff hne
  have hfirst : byteAt input (afterFill input pos-1) = 0xFF := @byteAt_fill input pos _ (by omega) (by omega)
  refine ⟨hne,by omega,by omega,?_⟩
  rw [show afterFill input pos+1-2 = afterFill input pos-1 by omega,drop_cons (by omega),hfirst,
    Nat.sub_add_cancel (by omega),drop_cons hcode]

/-- A segment that is read at a marker is a piece, or starts or ends an image. -/
theorem readSegment_ok (h : readSegment (atMarker input pos) = (.ok segment,s')) :
    pos ≤ segment.markerOffset ∧ pos < segmentEnd segment ∧ segmentEnd segment ≤ input.length ∧
      (segment.marker = 0xD9 ∧ s'.finished = true ∨
        s' = (if segment.marker = 0xDA then atEntropy input (segmentEnd segment)
          else atMarker input (segmentEnd segment)) ∧
        (segment.marker = 0xD8 ∨
          IsPiece segment.marker segment.payload (segmentBytes input segment))) := by
  cases hmarker : markerAt input pos with
  | none =>
      obtain ⟨error,pos',hread⟩ := readSegment_of_none hmarker
      rw [hread] at h
      cases h
  | some found =>
    obtain ⟨code,p⟩ := found
    obtain ⟨hcode,hgt,hle,hbytes⟩ := markerAt_bytes hmarker
    rw [readSegment_of_marker hmarker] at h
    split_ifs at h with hstandalone hzero
    · cases h
      refine ⟨by dsimp only; omega,show pos < p by omega,hle,?_⟩
      by_cases heoi : code = 0xD9
      · exact .inl ⟨heoi,by simp [heoi]⟩
      · refine .inr ⟨?_,?_⟩
        · dsimp only
          rw [if_neg (by omega)]
          simp [atMarker,heoi,segmentEnd]
        · by_cases hsoi : code = 0xD8
          · exact .inl hsoi
          · refine .inr ?_
            have hpiece : segmentBytes input ⟨code,p-2,p,[]⟩ = [0xFF,code] := by
              rw [segmentBytes]
              dsimp only [segmentEnd,List.length_nil]
              rw [hbytes,show p+0-(p-2) = 2 by omega]
              rfl
            rw [hpiece]
            exact .standalone (show code = 1 ∨ 0xD0 ≤ code ∧ code ≤ 0xD7 by omega)
    · cases h
    · by_cases hsegment : HasSegment input code p
      · obtain ⟨-,hone,hnot,h1,h2,h3⟩ := hsegment
        have hread : readPayload (atMarker input p) code (p-2) =
            (.ok ⟨code,p-2,p+2,(input.drop (p+2)).take (p+segmentLength input p-(p+2))⟩,
              { atMarker input (p+segmentLength input p) with scanEntropy := code = 0xDA }) := by
          refine (if_neg (Nat.not_lt.mpr h1)).trans ((if_neg (Nat.not_lt.mpr h2)).trans
            ((if_neg (Nat.not_lt.mpr h3)).trans ?_))
          simp [atMarker,segmentLength]
        rw [hread] at h
        cases h
        have hlength : ((input.drop (p+2)).take (p+segmentLength input p-(p+2))).length =
            segmentLength input p-2 := by
          rw [List.length_take,List.length_drop]
          omega
        have hend : segmentEnd ⟨code,p-2,p+2,
            (input.drop (p+2)).take (p+segmentLength input p-(p+2))⟩ =
              p+segmentLength input p := by
          dsimp only [segmentEnd]
          rw [hlength]
          omega
        rw [hend]
        refine ⟨by dsimp only; omega,by omega,h3,.inr ⟨?_,.inr ?_⟩⟩
        · dsimp only
          by_cases hscan : code = 0xDA
          · subst hscan
            rfl
          · rw [if_neg hscan]
            simp [atMarker,hscan]
        · rw [segmentBytes,hend]
          dsimp only
          rw [hbytes,@drop_cons input p (by omega),@drop_cons input (p+1) (by omega),
            show p+segmentLength input p-(p-2) = (p+segmentLength input p-(p+2))+4 by omega]
          exact .segment hzero hone hnot hcode (by rw [hlength,Nat.sub_add_cancel h2]; rfl)
      · obtain ⟨error,hread⟩ := readPayload_of_not ⟨hzero,by omega,by omega⟩ hsegment (p-2)
        rw [hread] at h
        cases h

theorem next_atEntropy (input : List ℕ) (pos : ℕ) :
    next (atEntropy input pos) = match nextMarkerAfterEntropy input pos with
      | .ok (some (markerOffset,marker)) =>
        if marker = 0xD9 then yielded (readStandaloneMarker (atMarker input markerOffset))
        else yielded (readSegment (atMarker input markerOffset))
      | .ok none => (none,{ atEntropy input pos with finished := true })
      | .error error => (some (.error error),{ atEntropy input pos with finished := true }) := rfl

theorem yielded_ok {r : Except JpegError JpegSegment × JpegSegmentIter}
    (h : yielded r = (some (.ok segment),s')) : r = (.ok segment,s') := by
  obtain ⟨item,after⟩ := r
  cases h
  rfl

/-- The iterator is at a place, or in entropy data that it passes over to the same marker as from
there. -/
def StandsAt (input : List ℕ) (pos : ℕ) (s : JpegSegmentIter) : Prop :=
  s = atMarker input pos ∨ ∃ pos', s = atEntropy input pos' ∧
    nextMarkerAfterEntropy input pos' = nextMarkerAfterEntropy input pos

theorem standsAt_of_scan (input : List ℕ) (pos : ℕ) (scan : Prop) [Decidable scan] :
    StandsAt input pos (if scan then atEntropy input pos else atMarker input pos) := by
  split_ifs
  · exact .inr ⟨pos,rfl,rfl⟩
  · exact .inl rfl

/-- What is read from a place on is a piece, or starts or ends an image. -/
theorem next_ok {s : JpegSegmentIter} (hs : StandsAt input pos s)
    (h : next s = (some (.ok segment),s')) :
    pos ≤ segment.markerOffset ∧ pos < segmentEnd segment ∧ segmentEnd segment ≤ input.length ∧
      (segment.marker = 0xD9 ∧ s'.finished = true ∨
        StandsAt input (segmentEnd segment) s' ∧ (segment.marker = 0xD8 ∨
          IsPiece segment.marker segment.payload (segmentBytes input segment))) := by
  rcases hs with rfl | ⟨pos',rfl,hsame⟩
  · rw [next_atMarker] at h
    obtain ⟨h1,h2,h3,h4⟩ := readSegment_ok (yielded_ok h)
    refine ⟨h1,h2,h3,h4.imp_right fun h => ⟨?_,h.2⟩⟩
    rw [h.1]
    exact standsAt_of_scan ..
  · rw [next_atEntropy,hsame] at h
    cases hmarker : nextMarkerAfterEntropy input pos with
    | error error =>
        rw [hmarker] at h
        cases h
    | ok found =>
      rw [hmarker] at h
      cases found with
      | none => cases h
      | some found =>
        obtain ⟨offset,code⟩ := found
        dsimp only at h
        obtain ⟨hge,hlt,-,hcode⟩ := nextMarkerAfterEntropy_some hmarker
        split_ifs at h with heoi
        · have hread : readStandaloneMarker (atMarker input offset) =
              (.ok ⟨byteAt input (offset+1),offset,offset+2,[]⟩,{ atMarker input offset with
                pos := offset+2, finished := false || byteAt input (offset+1) = 0xD9 }) :=
            if_neg (Nat.not_le.mpr hlt)
          rw [hread] at h
          cases h
          refine ⟨hge,show pos < offset+2 by omega,show offset+2 ≤ input.length by omega,.inl ?_⟩
          rw [hcode]
          exact ⟨heoi,by simp [heoi]⟩
        · obtain ⟨h1,h2,h3,h4⟩ := readSegment_ok (yielded_ok h)
          refine ⟨by omega,by omega,h3,h4.imp_right fun h => ⟨?_,h.2⟩⟩
          rw [h.1]
          exact standsAt_of_scan ..

/-- Reads segments one after the other. -/
inductive Reads : JpegSegmentIter → List JpegSegment → JpegSegmentIter → Prop
  | nil (s : JpegSegmentIter) : Reads s [] s
  | cons {s s₁ s' : JpegSegmentIter} {segment : JpegSegment} {segments : List JpegSegment} :
      next s = (some (.ok segment),s₁) → Reads s₁ segments s' → Reads s (segment :: segments) s'

variable {marker : ℕ} {payload bytes rest : List ℕ}

theorem bytes_of_drop {a b : ℕ} (h : input.drop pos = a :: b :: rest) :
    pos+1 < input.length ∧ byteAt input pos = a ∧ byteAt input (pos+1) = b ∧
      input.drop (pos+2) = rest := by
  have hlength := congrArg List.length h
  rw [List.length_drop,List.length_cons,List.length_cons] at hlength
  have hfirst : input[pos]? = some a := by
    rw [← Nat.add_zero pos,← List.getElem?_drop,h]
    rfl
  have hsecond : input[pos+1]? = some b := by
    rw [← List.getElem?_drop,h]
    rfl
  refine ⟨by omega,?_,?_,?_⟩
  · rw [byteAt,List.getD_eq_getElem?_getD,hfirst]
    rfl
  · rw [byteAt,List.getD_eq_getElem?_getD,hsecond]
    rfl
  · rw [← List.drop_drop,h]
    rfl

theorem markerAt_of_drop (h : input.drop pos = 0xFF :: marker :: rest) (hmarker : marker ≠ 0xFF) :
    markerAt input pos = some (marker,pos+2) := by
  obtain ⟨hlt,hff,hcode,-⟩ := bytes_of_drop h
  have hfill : afterFill input pos = pos+1 := by
    rw [afterFill,h,fillLength,if_pos rfl,fillLength,if_neg hmarker]
  rw [markerAt,hfill,if_pos ⟨by omega,hff,hlt⟩,hcode]

/-- A piece is read at its marker. -/
theorem readSegment_piece (hpiece : IsPiece marker payload bytes)
    (hdrop : input.drop pos = bytes++rest) : ∃ segment, segment.marker = marker ∧
      segment.payload = payload ∧ segmentEnd segment = pos+bytes.length ∧
      readSegment (atMarker input pos) = (.ok segment,
        if marker = 0xDA then atEntropy input (pos+bytes.length)
        else atMarker input (pos+bytes.length)) := by
  cases hpiece with
  | standalone hmarker =>
      have hread := readSegment_of_marker (markerAt_of_drop hdrop (by omega))
      rw [if_pos (by omega)] at hread
      refine ⟨_,rfl,rfl,rfl,hread.trans (Prod.ext rfl ?_)⟩
      rw [if_neg (by omega)]
      have hnot : ¬marker = 0xD9 := by omega
      simp [atMarker,hnot]
  | @segment hi lo payload hzero hone hnot hff hlength =>
      obtain ⟨-,-,-,hbehind⟩ := bytes_of_drop hdrop
      obtain ⟨hlt,hhi,hlo,hpayload⟩ := bytes_of_drop hbehind
      have hseg : segmentLength input (pos+2) = payload.length+2 := by
        rw [segmentLength,hhi,hlo,hlength]
      change input.drop (pos+2+2) = payload++rest at hpayload
      have hinside := congrArg List.length hpayload
      rw [List.length_drop,List.length_append] at hinside
      have hread := readSegment_of_marker (markerAt_of_drop hdrop hff)
      rw [if_neg (by omega),if_neg hzero] at hread
      have hbody : readPayload (atMarker input (pos+2)) marker (pos+2-2) =
          (.ok ⟨marker,pos+2-2,pos+2+2,(input.drop (pos+2+2)).take
            (pos+2+segmentLength input (pos+2)-(pos+2+2))⟩,
            { atMarker input (pos+2+segmentLength input (pos+2)) with
              scanEntropy := marker = 0xDA }) := by
        refine (if_neg (show ¬input.length < pos+2+2 by omega)).trans
          ((if_neg (show ¬segmentLength input (pos+2) < 2 by omega)).trans
          ((if_neg (show ¬input.length < pos+2+segmentLength input (pos+2) by omega)).trans ?_))
        simp [atMarker,segmentLength]
      have htake : (input.drop (pos+2+2)).take (pos+2+segmentLength input (pos+2)-(pos+2+2)) =
          payload := by
        rw [hpayload,hseg,show pos+2+(payload.length+2)-(pos+2+2) = payload.length by omega,
          List.take_left]
      refine ⟨_,rfl,htake,?_,hread.trans (hbody.trans (Prod.ext rfl ?_))⟩
      · dsimp only [segmentEnd]
        rw [htake,List.length_cons,List.length_cons,List.length_cons,List.length_cons]
        omega
      · dsimp only
        rw [hseg,show pos+2+(payload.length+2) = pos+(payload.length+4) by omega]
        by_cases hscan : marker = 0xDA
        · subst hscan
          rfl
        · rw [if_neg hscan]
          simp [atMarker,hscan]

/-- At a piece the iterator reads it, or passes over it where it is a restart marker. -/
theorem next_piece {s : JpegSegmentIter} (hpiece : IsPiece marker payload bytes)
    (hdrop : input.drop pos = bytes++rest) (hs : StandsAt input pos s) :
    isRst marker ∧ StandsAt input (pos+bytes.length) s ∨
    ∃ segment s', segment.marker = marker ∧ segment.payload = payload ∧
      segmentEnd segment = pos+bytes.length ∧ next s = (some (.ok segment),s') ∧
      StandsAt input (pos+bytes.length) s' := by
  obtain ⟨segment,hmarker,hpayload,hend,hread⟩ := readSegment_piece hpiece hdrop
  have hscan := standsAt_of_scan input (pos+bytes.length) (marker = 0xDA)
  rcases hs with rfl | ⟨pos',rfl,hsame⟩
  · refine .inr ⟨segment,_,hmarker,hpayload,hend,?_,hscan⟩
    rw [next_atMarker,hread]
    rfl
  · have hbytes : ∃ after, input.drop pos = 0xFF :: marker :: after ∧ marker ≠ 0xFF ∧
        marker ≠ 0xD9 ∧ marker ≠ 0 := by
      cases hpiece with
      | standalone h => exact ⟨rest,hdrop,by omega,by omega,by omega⟩
      | segment hzero hone hnot hff hlength => exact ⟨_,hdrop,hff,by omega,hzero⟩
    obtain ⟨after,hdrop',hff,heoi,hzero⟩ := hbytes
    obtain ⟨hlt,hfirst,hcode,-⟩ := bytes_of_drop hdrop'
    have hnext := nextMarkerAfterEntropy_unfilled hlt hfirst (by rw [hcode]; exact hff)
    rw [hcode] at hnext
    by_cases hrst : isRst marker
    · rw [if_pos (.inr hrst)] at hnext
      have htwo : bytes.length = 2 := by
        cases hpiece with
        | standalone h => rfl
        | segment hzero hone hnot hff hlength => exact absurd hrst (by unfold isRst; omega)
      rw [htwo]
      exact .inl ⟨hrst,.inr ⟨pos',rfl,hsame.trans hnext⟩⟩
    · rw [if_neg (not_or.mpr ⟨hzero,hrst⟩)] at hnext
      refine .inr ⟨segment,_,hmarker,hpayload,hend,?_,hscan⟩
      rw [next_atEntropy,hsame,hnext]
      dsimp only
      rw [if_neg heoi,hread]
      rfl

/-- The table segments among pieces of a stream are read. -/
theorem reads_pieces {pieces : List (ℕ × List ℕ × List ℕ)}
    (h : ∀ piece ∈ pieces, IsPiece piece.1 piece.2.1 piece.2.2) {s : JpegSegmentIter}
    (hdrop : input.drop pos = (pieces.map fun piece => piece.2.2).flatten++rest)
    (hs : StandsAt input pos s) : ∃ segments s', Reads s segments s' ∧
      StandsAt input (pos+((pieces.map fun piece => piece.2.2).flatten).length) s' ∧
      (∀ segment ∈ segments,
        segmentEnd segment ≤ pos+((pieces.map fun piece => piece.2.2).flatten).length) ∧
      (segments.map fun segment => (segment.marker,segment.payload)).filter
        (fun piece => isTable piece.1) =
        (pieces.map fun piece => (piece.1,piece.2.1)).filter (fun piece => isTable piece.1) := by
  induction pieces generalizing pos s with
  | nil => exact ⟨[],s,.nil s,hs,nofun,rfl⟩
  | cons piece pieces ih =>
      obtain ⟨marker,payload,bytes⟩ := piece
      rw [List.map_cons,List.flatten_cons,List.append_assoc] at hdrop
      have hafter : input.drop (pos+bytes.length) =
          (pieces.map fun piece => piece.2.2).flatten++rest := by
        rw [← List.drop_drop,hdrop]
        exact List.drop_left
      have hpieces := fun piece hmem => h piece (List.mem_cons_of_mem _ hmem)
      rw [List.map_cons,List.flatten_cons,List.length_append,← Nat.add_assoc]
      rcases next_piece (h _ List.mem_cons_self) hdrop hs with ⟨hrst,hs'⟩ |
        ⟨segment,s₁,rfl,rfl,hend,hnext,hs₁⟩
      · obtain ⟨segments,s',hreads,hs',hends,hfilter⟩ := ih hpieces hafter hs'
        refine ⟨segments,s',hreads,hs',hends,?_⟩
        have hnot : ¬isTable marker = true := by
          have := hrst.1
          have := hrst.2
          simp only [isTable,Bool.or_eq_true,decide_eq_true_eq]
          omega
        rw [hfilter,List.map_cons,List.filter_cons]
        exact (if_neg hnot).symm
      · obtain ⟨segments,s',hreads,hs',hends,hfilter⟩ := ih hpieces hafter hs₁
        refine ⟨segment :: segments,s',.cons hnext hreads,hs',?_,?_⟩
        · rintro segment' (_ | ⟨_,hmem⟩)
          · rw [hend]
            omega
          · exact hends segment' hmem
        · rw [List.map_cons,List.map_cons,List.filter_cons,List.filter_cons,hfilter]

/-- The iterator before its start, at a place, or at its end. -/
def Live (input : List ℕ) (s : JpegSegmentIter) : Prop :=
  s = iterSegments input ∨ (∃ pos, StandsAt input pos s) ∨ s.finished = true

/-- A segment as the iterator yields it: a piece, or the start or the end of an image. -/
def Regular (input : List ℕ) (segment : JpegSegment) : Prop :=
  segment.marker = 0xD8 ∨ segment.marker = 0xD9 ∨
    IsPiece segment.marker segment.payload (segmentBytes input segment)

theorem next_iterSegments (h : next (iterSegments input) = (some (.ok segment),s')) :
    segment = ⟨0xD8,0,2,[]⟩ ∧ s' = atMarker input 2 ∧ 2 ≤ input.length := by
  have hread : readSoi ⟨input,0,true,false,false⟩ = (.ok segment,s') := yielded_ok h
  unfold readSoi at hread
  split_ifs at hread with hshort hsoi
  · cases hread
  · cases hread
  · obtain ⟨hsegment,hs'⟩ := Prod.mk.inj hread
    exact ⟨(Except.ok.inj hsegment).symm,hs'.symm,Nat.not_lt.mp hshort⟩

theorem next_live {s : JpegSegmentIter} (hs : Live input s)
    (h : next s = (some (.ok segment),s')) :
    s.input = input ∧ Live input s' ∧ Regular input segment := by
  rcases hs with rfl | ⟨pos,hs⟩ | hfinished
  · obtain ⟨rfl,rfl,-⟩ := next_iterSegments h
    exact ⟨rfl,.inr (.inl ⟨2,.inl rfl⟩),.inl rfl⟩
  · have hinput : s.input = input := by
      rcases hs with rfl | ⟨pos',rfl,-⟩ <;> rfl
    obtain ⟨-,-,-,⟨hmarker,hfinished⟩ | ⟨hs',hmarker⟩⟩ := next_ok hs h
    · exact ⟨hinput,.inr (.inr hfinished),.inr (.inl hmarker)⟩
    · exact ⟨hinput,.inr (.inl ⟨_,hs'⟩),hmarker.imp_right .inr⟩
  · have hnone : next s = (none,s) := if_pos hfinished
    rw [hnone] at h
    cases h

/-- At most some segments are left, as each has two bytes. -/
def AtMost (input : List ℕ) (n : ℕ) (s : JpegSegmentIter) : Prop :=
  s = iterSegments input ∧ input.length+2 ≤ n ∨
  (∃ pos, StandsAt input pos s ∧ pos ≤ input.length ∧ input.length < pos+n) ∨
  s.finished = true ∧ 0 < n

theorem not_atMost_zero {s : JpegSegmentIter} : ¬AtMost input 0 s := by
  rintro (⟨-,h⟩ | ⟨pos,-,hle,hlt⟩ | ⟨-,h⟩) <;> omega

theorem next_atMost {s : JpegSegmentIter} {n : ℕ} (hs : AtMost input (n+1) s)
    (h : next s = (some (.ok segment),s')) : AtMost input n s' := by
  rcases hs with ⟨rfl,hn⟩ | ⟨pos,hs,hle,hlt⟩ | ⟨hfinished,-⟩
  · obtain ⟨-,rfl,htwo⟩ := next_iterSegments h
    exact .inr (.inl ⟨2,.inl rfl,htwo,by omega⟩)
  · obtain ⟨-,hgt,hend,⟨-,hfinished⟩ | ⟨hs',-⟩⟩ := next_ok hs h
    · exact .inr (.inr ⟨hfinished,by omega⟩)
    · exact .inr (.inl ⟨_,hs',hend,by omega⟩)
  · have hnone : next s = (none,s) := if_pos hfinished
    rw [hnone] at h
    cases h

end

end J2kNative.JpegSegmentIter
