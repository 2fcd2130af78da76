import J2kNative.Fallible
import J2kNative.MarkerSegments

/-!
# What the packet marker writers write

Every writer cuts its payload into pieces and precedes each by the opening of a
marker segment; every reader takes the segments apart into the same pieces. The
packet lengths are digits in base 128, of which a piece must not hold a part.
-/
namespace J2kNative.PacketMarkerSpecs
open Fallible StreamCuts PacketMarkers MarkerSegments KeyedLists

/-! ## Marker segments of a payload -/

/-- Each piece behind its opening, the sequence numbers counting on. -/
def segmentsOf (opening : ℕ → ℕ → List ℕ) : ℕ → List (List ℕ) → List ℕ
  | _, [] => []
  | sequence, piece :: pieces =>
      opening sequence piece.length ++ piece ++ segmentsOf opening (sequence + 1) pieces

/-- Marker, length field and sequence number. -/
def segmentOpening (code sequence payloadLen : ℕ) : List ℕ :=
  [0xFF, code] ++ beBytes16 (payloadLen + 3) ++ [sequence]

theorem writeHeader_ok {n sequence : ℕ} (hn : n < 2 ^ 16) (hs : sequence < 2 ^ 8)
    (what what' : String) : markerLength n what = .ok (beBytes16 n) ∧
      markerSequence sequence what' = .ok [sequence] :=
  ⟨if_pos hn,if_pos hs⟩

theorem beginPacketLengthMarker_plt {sequence n : ℕ} (hs : sequence < 256)
    (hn : n ≤ pltChunkSize) : beginPacketLengthMarker .plt sequence n =
      .ok (segmentOpening markers.PLT sequence n) := by
  obtain ⟨h₁,h₂⟩ := writeHeader_ok (n := n + 3) (by unfold pltChunkSize at hn; omega) hs
    "validated packet-length marker length exceeds u16"
    "validated packet-length marker sequence exceeds u8"
  unfold beginPacketLengthMarker
  dsimp only
  rw [h₁,h₂]
  rfl

theorem beginPacketLengthMarker_plm {sequence n : ℕ} (hs : sequence < 256)
    (hn : n ≤ plmChunkSize) : beginPacketLengthMarker .plm sequence n =
      .ok (segmentOpening markers.PLM sequence (n + 4) ++ beBytes32 n) := by
  unfold plmChunkSize at hn
  obtain ⟨h₁,h₂⟩ := writeHeader_ok (n := n + 7) (by omega) hs
    "validated packet-length marker length exceeds u16"
    "validated packet-length marker sequence exceeds u8"
  unfold beginPacketLengthMarker
  dsimp only
  rw [h₁,h₂,ok_bind,ok_bind,if_pos (by omega)]
  rfl

theorem beginPptMarker_ok {sequence n : ℕ} (hs : sequence < 256)
    (hn : n ≤ packetHeaderMarkerPayloadLimit) :
    beginPptMarker sequence n = .ok (segmentOpening markers.PPT sequence n) := by
  obtain ⟨h₁,h₂⟩ := writeHeader_ok (n := n + 3)
    (by unfold packetHeaderMarkerPayloadLimit at hn; omega) hs
    "validated PPT marker length exceeds u16" "validated PPT marker sequence exceeds u8"
  unfold beginPptMarker
  rw [h₁,h₂]
  rfl

/-! ## Writing byte by byte -/

section
variable {start : ℕ → ℕ → Except String (List ℕ)} {n : ℕ}

theorem pushByte_of_open {s : ChunkWriter} (hs : s.chunkRemaining ≠ 0) (byte : ℕ) :
    s.pushByte start n byte =
      .ok { s with out := s.out ++ [byte], chunkRemaining := s.chunkRemaining - 1 } := by
  unfold ChunkWriter.pushByte
  rw [if_neg hs]
  rfl

/-- Bytes for which the open segment has room. -/
theorem pushBytes_of_room {s : ChunkWriter} {l : List ℕ} (h : l.length ≤ s.chunkRemaining) :
    l.foldlM (ChunkWriter.pushByte start n) s =
      .ok { s with out := s.out ++ l, chunkRemaining := s.chunkRemaining - l.length } := by
  induction l generalizing s with
  | nil => simp [pure,Except.pure]
  | cons byte l ih =>
      rw [List.length_cons] at h
      rw [List.foldlM_cons,pushByte_of_open (by omega),ok_bind,ih (by dsimp only; omega)]
      simp only [List.append_assoc,List.singleton_append,List.length_cons,Nat.sub_sub,
        Nat.add_comm l.length]

/-- The first byte behind a full segment opens the next one. -/
theorem pushBytes_open {s : ChunkWriter} (hs : s.chunkRemaining = 0) (hn : 0 < n)
    (hp : 0 < s.payloadRemaining) {l : List ℕ} (hl : l ≠ []) :
    l.foldlM (ChunkWriter.pushByte start n) s =
      s.openChunk start n >>= fun s => l.foldlM (ChunkWriter.pushByte start n) s := by
  obtain ⟨byte,l,rfl⟩ := List.exists_cons_of_ne_nil hl
  rw [List.foldlM_cons]
  unfold ChunkWriter.pushByte
  rw [if_pos hs]
  cases hopen : s.openChunk start n with
  | error e => rfl
  | ok t =>
      have ht : t.chunkRemaining ≠ 0 := by
        unfold ChunkWriter.openChunk at hopen
        obtain ⟨opening,-,hopen⟩ := bind_eq_ok.mp hopen
        cases hopen
        dsimp only
        omega
      rw [ok_bind,ok_bind,ok_bind,List.foldlM_cons,if_neg ht]
      rfl

/-- A whole payload is written as the segments of its pieces. -/
theorem pushBytes_eq {opening : ℕ → ℕ → List ℕ} (hn : 0 < n)
    (hstart : ∀ sequence < 256, ∀ len ≤ n, start sequence len = .ok (opening sequence len))
    {l : List ℕ} {s : ChunkWriter} (hs : s.chunkRemaining = 0) (hp : s.payloadRemaining = l.length)
    (hcount : s.sequence + (chunks n l).length ≤ 256) :
    ∃ t, l.foldlM (ChunkWriter.pushByte start n) s = .ok t ∧
      t.out = s.out ++ segmentsOf opening s.sequence (chunks n l) := by
  induction l using chunks_induction hn generalizing s with
  | nil =>
      refine ⟨s,rfl,?_⟩
      rw [chunks_nil]
      simp [segmentsOf]
  | step l hl ih =>
      have hpos := List.length_pos_iff.mpr hl
      rw [chunks_of_ne_nil hn hl,List.length_cons] at hcount
      have hopen : s.openChunk start n =
          .ok ⟨s.out ++ opening s.sequence (min l.length n),l.length - min l.length n,
            min l.length n,s.sequence + 1⟩ := by
        unfold ChunkWriter.openChunk
        rw [hp]
        dsimp only
        rw [hstart s.sequence (by omega) _ (Nat.min_le_right _ _)]
        rfl
      have htake : (l.take n).length = min l.length n := by
        rw [List.length_take,Nat.min_comm]
      obtain ⟨t,hrun,hout⟩ := ih (s := ⟨s.out ++ opening s.sequence (min l.length n) ++ l.take n,
        l.length - min l.length n,min l.length n - (l.take n).length,s.sequence + 1⟩)
        (by dsimp only; omega) (by rw [List.length_drop]; dsimp only; omega) (by dsimp only; omega)
      refine ⟨t,?_,?_⟩
      · rw [pushBytes_open hs hn (by omega) hl,hopen,ok_bind]
        have hfirst : (l.take n).foldlM (ChunkWriter.pushByte start n)
            ⟨s.out ++ opening s.sequence (min l.length n),l.length - min l.length n,
              min l.length n,s.sequence + 1⟩ = .ok _ :=
          pushBytes_of_room (by dsimp only; omega)
        rw [foldlM_take_drop _ _ n,hfirst,ok_bind]
        exact hrun
      · rw [hout,chunks_of_ne_nil hn hl,segmentsOf,htake]
        simp only [List.append_assoc]

/-- The bytes left to write count down with every byte. -/
theorem pushBytes_remaining {l : List ℕ} {s t : ChunkWriter}
    (h : l.foldlM (ChunkWriter.pushByte start n) s = .ok t)
    (hn : 0 < n) (hl : l.length ≤ s.chunkRemaining + s.payloadRemaining) :
    t.chunkRemaining + t.payloadRemaining + l.length = s.chunkRemaining + s.payloadRemaining := by
  induction l generalizing s with
  | nil =>
      cases h
      rfl
  | cons byte l ih =>
      rw [List.foldlM_cons] at h
      rw [List.length_cons] at hl ⊢
      obtain ⟨s',hstep,h⟩ := bind_eq_ok.mp h
      have hs' : s'.chunkRemaining + s'.payloadRemaining + 1 =
          s.chunkRemaining + s.payloadRemaining := by
        unfold ChunkWriter.pushByte at hstep
        obtain ⟨u,hu,hstep⟩ := bind_eq_ok.mp hstep
        cases hstep
        dsimp only
        by_cases hc : s.chunkRemaining = 0
        · rw [if_pos hc] at hu
          unfold ChunkWriter.openChunk at hu
          obtain ⟨opening,-,hu⟩ := bind_eq_ok.mp hu
          cases hu
          dsimp only
          omega
        · rw [if_neg hc] at hu
          cases hu
          omega
      have := ih h (by omega)
      omega

end

/-- The slices of one packet header are its bytes. -/
theorem writePptHeader_eq {fuel : ℕ} {header : List ℕ} {s : ChunkWriter}
    (hfuel : header.length ≤ fuel) (hs : header.length ≤ s.chunkRemaining + s.payloadRemaining) :
    writePptHeader fuel header s =
      header.foldlM (ChunkWriter.pushByte beginPptMarker packetHeaderMarkerPayloadLimit) s := by
  induction fuel generalizing header s with
  | zero =>
      rw [List.length_eq_zero_iff.mp (Nat.le_zero.mp hfuel)]
      rfl
  | succ fuel ih =>
      unfold writePptHeader
      by_cases hnil : header = []
      · rw [hnil]
        rfl
      · have hpos := List.length_pos_iff.mpr hnil
        rw [if_neg (by simpa using hnil)]
        -- what a turn does once a segment is open
        have hturn {t : ChunkWriter} (ht : t.chunkRemaining ≠ 0)
            (hle : header.length ≤ t.chunkRemaining + t.payloadRemaining) :
            writePptHeader fuel (header.drop (min t.chunkRemaining header.length))
              { t with
                out := t.out ++ header.take (min t.chunkRemaining header.length)
                chunkRemaining := t.chunkRemaining - min t.chunkRemaining header.length } =
              header.foldlM
                (ChunkWriter.pushByte beginPptMarker packetHeaderMarkerPayloadLimit) t := by
          rw [ih (by rw [List.length_drop]; omega) (by rw [List.length_drop]; dsimp only; omega)]
          have hlen : (header.take (min t.chunkRemaining header.length)).length =
              min t.chunkRemaining header.length := by
            rw [List.length_take,Nat.min_eq_left (Nat.min_le_right _ _)]
          have hfirst := @pushBytes_of_room beginPptMarker packetHeaderMarkerPayloadLimit t
            (header.take (min t.chunkRemaining header.length)) (by omega)
          rw [foldlM_take_drop t header (min t.chunkRemaining header.length),hfirst,ok_bind,hlen]
        by_cases hc : s.chunkRemaining = 0
        · rw [if_pos hc,pushBytes_open hc (by decide) (by omega) hnil]
          cases hopen : s.openChunk beginPptMarker packetHeaderMarkerPayloadLimit with
          | error e => rfl
          | ok t =>
              unfold ChunkWriter.openChunk at hopen
              obtain ⟨opening,-,hopen⟩ := bind_eq_ok.mp hopen
              cases hopen
              rw [ok_bind,ok_bind]
              refine hturn ?_ ?_
              · dsimp only
                have : 0 < packetHeaderMarkerPayloadLimit := by decide
                omega
              · dsimp only
                omega
        · rw [if_neg hc,ok_bind]
          exact hturn hc hs

/-- The headers of a tile-part are written byte by byte. -/
theorem writePptHeaders_eq {headers : List (List ℕ)} {s : ChunkWriter}
    (hs : headers.flatten.length ≤ s.chunkRemaining + s.payloadRemaining) :
    headers.foldlM (fun s header => writePptHeader header.length header s) s =
      headers.flatten.foldlM
        (ChunkWriter.pushByte beginPptMarker packetHeaderMarkerPayloadLimit) s := by
  induction headers generalizing s with
  | nil => rfl
  | cons header headers ih =>
      rw [List.flatten_cons,List.length_append] at hs
      rw [List.foldlM_cons,List.flatten_cons,List.foldlM_append,
        writePptHeader_eq le_rfl (by omega)]
      cases hrun : header.foldlM
        (ChunkWriter.pushByte beginPptMarker packetHeaderMarkerPayloadLimit) s with
      | error e => rfl
      | ok t =>
          have := pushBytes_remaining hrun (by decide) (by omega)
          exact ih (by omega)

/-! ## Reading a segment -/

theorem readU16_beBytes {n : ℕ} (h : n < 2 ^ 16) (rest : List ℕ) :
    readU16 (beBytes16 n ++ rest) = some (n,rest) := by
  unfold beBytes16 readU16
  rw [List.cons_append,List.cons_append,List.nil_append]
  refine congrArg (fun m => some (m,rest)) ?_
  omega

theorem readU32_beBytes {n : ℕ} (h : n < 2 ^ 32) (rest : List ℕ) :
    readU32 (beBytes32 n ++ rest) = some (n,rest) := by
  unfold beBytes32 readU32
  simp only [List.cons_append,List.nil_append]
  refine congrArg (fun m => some (m,rest)) ?_
  omega

theorem readBytes_append (l rest : List ℕ) : readBytes l.length (l ++ rest) = some (l,rest) := by
  unfold readBytes
  rw [if_pos (by simp),List.take_left,List.drop_left]

theorem readBytes_eq_none {n : ℕ} {l : List ℕ} (h : l.length < n) : readBytes n l = none :=
  if_neg (by omega)

theorem sequencedSegment_ok (marker : String) {payload : List ℕ} (h : payload.length + 3 < 2 ^ 16)
    (sequence : ℕ) (rest : List ℕ) :
    sequencedSegment marker
      (beBytes16 (payload.length + 3) ++ [sequence] ++ payload ++ rest) =
      .ok (⟨sequence,payload⟩,rest) := by
  have hpayload : markerSegmentPayload
      (beBytes16 (payload.length + 3) ++ [sequence] ++ payload ++ rest) =
      some (sequence :: payload,rest) := by
    unfold markerSegmentPayload
    rw [List.append_assoc,List.append_assoc,readU16_beBytes h]
    have hread := readBytes_append (sequence :: payload) rest
    rw [List.length_cons] at hread
    simp only [Option.bind_eq_bind,Option.bind_some]
    rw [if_neg (by omega)]
    exact hread
  unfold sequencedSegment
  rw [hpayload]

/-- Payloads under consecutive sequence numbers. -/
def sequenced {α : Type} (sequence : ℕ) : List α → List (Sequenced α)
  | [] => []
  | payload :: payloads => ⟨sequence, payload⟩ :: sequenced (sequence + 1) payloads

theorem sequenced_payload {α : Type} (sequence : ℕ) (payloads : List α) :
    (sequenced sequence payloads).map Sequenced.payload = payloads := by
  induction payloads generalizing sequence with
  | nil => rfl
  | cons payload payloads ih => rw [sequenced,List.map_cons,ih]

theorem le_of_mem_sequenced {α : Type} {sequence : ℕ} {payloads : List α} {s : Sequenced α}
    (h : s ∈ sequenced sequence payloads) : sequence ≤ s.sequenceIdx := by
  induction payloads generalizing sequence with
  | nil => cases h
  | cons payload payloads ih =>
      rcases List.mem_cons.mp h with rfl | h
      · exact le_rfl
      · exact (Nat.le_succ _).trans (ih h)

/-- Segments read in the order of their numbers are sorted. -/
theorem sortSegments_sequenced {α : Type} (sequence : ℕ) (payloads : List α) :
    sortSegments (sequenced sequence payloads) = sequenced sequence payloads := by
  refine List.Pairwise.insertionSort_eq ?_
  induction payloads generalizing sequence with
  | nil => exact .nil
  | cons payload payloads ih =>
      refine List.pairwise_cons.mpr ⟨fun s hs => ?_,ih (sequence + 1)⟩
      exact le_of_lt (List.cons_lt_cons_iff.mpr (.inl (le_of_mem_sequenced hs)))

theorem segmentsOf_length (code sequence : ℕ) (pieces : List (List ℕ)) :
    pieces.length ≤ (segmentsOf (segmentOpening code) sequence pieces).length := by
  induction pieces generalizing sequence with
  | nil => exact Nat.zero_le _
  | cons piece pieces ih =>
      have := ih (sequence + 1)
      rw [segmentsOf,List.length_cons,List.length_append,List.length_append]
      simp only [segmentOpening,beBytes16,List.length_append,List.length_cons]
      omega

/-- Payload pieces small enough for the length field. -/
def Fits (pieces : List (List ℕ)) : Prop := ∀ piece ∈ pieces, piece.length + 3 < 2 ^ 16

theorem fits_chunks {n : ℕ} (hn : 0 < n) (hle : n + 3 < 2 ^ 16) (l : List ℕ) :
    Fits (chunks n l) := by
  intro piece h
  have := (length_of_mem_chunks hn h).2
  omega

theorem readMarker_segment (code sequence : ℕ) (piece rest : List ℕ) :
    readMarker (segmentOpening code sequence piece.length ++ piece ++ rest) =
      some (code,beBytes16 (piece.length + 3) ++ [sequence] ++ piece ++ rest) := by
  simp [segmentOpening,readMarker]

theorem sequenced_append {α : Type} (l : List (Sequenced α)) (sequence : ℕ) (payload : α)
    (payloads : List α) : l ++ [⟨sequence,payload⟩] ++ sequenced (sequence + 1) payloads =
      l ++ sequenced sequence (payload :: payloads) := by
  rw [List.append_assoc]
  rfl

/-- The PLT segments of a payload in the loop of a tile-part header. -/
theorem tilePartMarkers_plt {maxOwnedBytes : ℕ} {ppmPresent : Bool} {pieces : List (List ℕ)}
    (h : Fits pieces) (fuel sequence : ℕ) (rest : List ℕ) (found : TilePartMarkers) :
    tilePartMarkers maxOwnedBytes ppmPresent (pieces.length + fuel)
        (segmentsOf (segmentOpening markers.PLT) sequence pieces ++ rest) found =
      pieces.mapM (fun piece => decodePacketLengths piece maxOwnedBytes "PLT") >>= fun lengths =>
        tilePartMarkers maxOwnedBytes ppmPresent fuel rest
          { found with packetLengths := found.packetLengths ++ sequenced sequence lengths } := by
  induction pieces generalizing sequence found with
  | nil => simp [segmentsOf,sequenced,pure,Except.pure,ok_bind]
  | cons piece pieces ih =>
      have hseg := sequencedSegment_ok "PLT" (h piece (by simp)) sequence
        (segmentsOf (segmentOpening markers.PLT) (sequence + 1) pieces ++ rest)
      rw [List.length_cons,show pieces.length + 1 + fuel = pieces.length + fuel + 1 by omega,
        segmentsOf,List.append_assoc,tilePartMarkers,readMarker_segment,List.mapM_cons]
      dsimp only
      rw [if_neg (by decide),if_neg (by decide),if_neg (by decide),if_pos rfl,pltMarker,hseg,
        ok_bind]
      dsimp only
      cases decodePacketLengths piece maxOwnedBytes "PLT" with
      | error e => rfl
      | ok lengths =>
          simp only [ok_bind]
          rw [ih (fun p hp => h p (List.mem_cons_of_mem _ hp))]
          cases pieces.mapM fun piece => decodePacketLengths piece maxOwnedBytes "PLT" with
          | error e => rfl
          | ok ls =>
              simp only [ok_bind,pure,Except.pure,sequenced_append]

/-- The PPT segments of a payload in the loop of a tile-part header. -/
theorem tilePartMarkers_ppt {maxOwnedBytes : ℕ} {pieces : List (List ℕ)} (h : Fits pieces)
    (fuel sequence : ℕ) (rest : List ℕ) (found : TilePartMarkers) :
    tilePartMarkers maxOwnedBytes false (pieces.length + fuel)
        (segmentsOf (segmentOpening markers.PPT) sequence pieces ++ rest) found =
      tilePartMarkers maxOwnedBytes false fuel rest
        { found with pptHeaders := found.pptHeaders ++ sequenced sequence pieces } := by
  induction pieces generalizing sequence found with
  | nil => simp [segmentsOf,sequenced]
  | cons piece pieces ih =>
      have hseg := sequencedSegment_ok "PPT" (h piece (by simp)) sequence
        (segmentsOf (segmentOpening markers.PPT) (sequence + 1) pieces ++ rest)
      rw [List.length_cons,show pieces.length + 1 + fuel = pieces.length + fuel + 1 by omega,
        segmentsOf,List.append_assoc,tilePartMarkers,readMarker_segment]
      dsimp only
      rw [if_neg (by decide),if_neg (by decide),if_pos rfl,if_neg (by decide),pptMarker,hseg,
        ok_bind]
      dsimp only
      rw [ih (fun p hp => h p (List.mem_cons_of_mem _ hp)),sequenced_append]

/-- What the main header makes of the payload of a PLM segment. -/
def decodePlm (maxOwnedBytes : ℕ) (payload : List ℕ) : Except DecodeError (List ℕ) := do
  let lengths ← visitPlmChunks payload.length payload
  validateOutputBytes lengths.length maxOwnedBytes
  .ok lengths

/-- The PLM segments of a payload in the loop of the main header. -/
theorem mainMarkers_plm {maxOwnedBytes : ℕ} {pieces : List (List ℕ)} (h : Fits pieces)
    (fuel sequence : ℕ) (rest : List ℕ) (found : MainMarkers) :
    mainMarkers maxOwnedBytes (pieces.length + fuel)
        (segmentsOf (segmentOpening markers.PLM) sequence pieces ++ rest) found =
      pieces.mapM (decodePlm maxOwnedBytes) >>= fun lengths =>
        mainMarkers maxOwnedBytes fuel rest
          { found with plmMarkers := found.plmMarkers ++ sequenced sequence lengths } := by
  induction pieces generalizing sequence found with
  | nil => simp [segmentsOf,sequenced,pure,Except.pure,ok_bind]
  | cons piece pieces ih =>
      have hseg := sequencedSegment_ok "PLM" (h piece (by simp)) sequence
        (segmentsOf (segmentOpening markers.PLM) (sequence + 1) pieces ++ rest)
      rw [List.length_cons,show pieces.length + 1 + fuel = pieces.length + fuel + 1 by omega,
        segmentsOf,List.append_assoc,mainMarkers,readMarker_segment,List.mapM_cons]
      dsimp only
      rw [if_neg (by decide),if_pos rfl,plmMarker,hseg,ok_bind]
      have hplm : decodePlm maxOwnedBytes piece = visitPlmChunks piece.length piece >>=
          fun lengths => validateOutputBytes lengths.length maxOwnedBytes >>= fun _ =>
            .ok lengths := rfl
      rw [hplm]
      dsimp only
      cases visitPlmChunks piece.length piece with
      | error e => rfl
      | ok lengths =>
          rw [ok_bind,ok_bind]
          cases validateOutputBytes lengths.length maxOwnedBytes with
          | error e => rfl
          | ok u =>
              simp only [ok_bind]
              rw [ih (fun p hp => h p (List.mem_cons_of_mem _ hp))]
              cases pieces.mapM (decodePlm maxOwnedBytes) with
              | error e => rfl
              | ok ls => simp only [ok_bind,pure,Except.pure,sequenced_append]

/-- The PPM segments of a payload in the loop of the main header. -/
theorem mainMarkers_ppm {maxOwnedBytes : ℕ} {pieces : List (List ℕ)} (h : Fits pieces)
    (fuel sequence : ℕ) (rest : List ℕ) (found : MainMarkers) :
    mainMarkers maxOwnedBytes (pieces.length + fuel)
        (segmentsOf (segmentOpening markers.PPM) sequence pieces ++ rest) found =
      mainMarkers maxOwnedBytes fuel rest
        { found with ppmMarkers := found.ppmMarkers ++ sequenced sequence pieces } := by
  induction pieces generalizing sequence found with
  | nil => simp [segmentsOf,sequenced]
  | cons piece pieces ih =>
      have hseg := sequencedSegment_ok "PPM" (h piece (by simp)) sequence
        (segmentsOf (segmentOpening markers.PPM) (sequence + 1) pieces ++ rest)
      rw [List.length_cons,show pieces.length + 1 + fuel = pieces.length + fuel + 1 by omega,
        segmentsOf,List.append_assoc,mainMarkers,readMarker_segment]
      dsimp only
      rw [if_neg (by decide),if_neg (by decide),if_pos rfl,ppmMarker,hseg,ok_bind]
      dsimp only
      rw [ih (fun p hp => h p (List.mem_cons_of_mem _ hp)),sequenced_append]

end J2kNative.PacketMarkerSpecs
