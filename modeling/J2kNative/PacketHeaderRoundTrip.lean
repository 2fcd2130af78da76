import J2kNative.PacketLengthRoundTrip

/-!
# Packet headers through PPT and PPM

The cursor of a tile-part keeps one reader for every piece of the separated
headers and moves on only between packets. The PPT writer cuts the headers at the
size limit of a segment, so they come back exactly when no cut falls inside a
header; the PPM writer cuts between headers, and they always come back.
-/
namespace J2kNative.PacketHeaderRoundTrip
open Fallible StreamCuts PacketMarkers MarkerSegments PacketMarkerSpecs PacketLengthRoundTrip

/-! ## Headers under the cursor -/

theorem advance_of_ne_nil {piece : List ℕ} (h : piece ≠ []) (pieces : List (List ℕ)) :
    TilePartCursor.advance piece pieces = ⟨piece,pieces⟩ := by
  obtain ⟨b,l,rfl⟩ := List.exists_cons_of_ne_nil h
  cases pieces <;> rfl

theorem readHeaders_cons (cursor : TilePartCursor) (size : ℕ) (sizes : List ℕ) :
    cursor.readHeaders (size :: sizes) =
      (readBytes size (TilePartCursor.advance cursor.header cursor.retainedHeaders).header).bind
        fun r => (TilePartCursor.readHeaders
          ⟨r.2,(TilePartCursor.advance cursor.header cursor.retainedHeaders).retainedHeaders⟩
          sizes).map (r.1 :: ·) := by
  rw [TilePartCursor.readHeaders]
  cases readBytes size (TilePartCursor.advance cursor.header cursor.retainedHeaders).header with
  | none => rfl
  | some r => simp only [Option.bind_eq_bind,Option.bind_some,Option.map_eq_bind]; rfl

theorem readHeaders_nil_cons (piece : List ℕ) (pieces : List (List ℕ)) {sizes : List ℕ}
    (h : sizes ≠ []) : TilePartCursor.readHeaders ⟨[],piece :: pieces⟩ sizes =
      TilePartCursor.readHeaders ⟨piece,pieces⟩ sizes := by
  obtain ⟨size,sizes,rfl⟩ := List.exists_cons_of_ne_nil h
  rw [readHeaders_cons,readHeaders_cons]
  rfl

/-- The reader presented holds a header or it does not. -/
theorem readHeaders_step {header piece : List ℕ} {headers pieces : List (List ℕ)}
    (h : (header :: headers).flatten = piece ++ pieces.flatten)
    (hadvance : TilePartCursor.advance piece pieces = ⟨piece,pieces⟩)
    (hpiece : piece ≠ [] ∨ header = [])
    (ih : ∀ d, headers.flatten = d ++ pieces.flatten →
      (TilePartCursor.readHeaders ⟨d,pieces⟩ (headers.map List.length) = some headers ↔
        Aligned headers (d :: pieces))) :
    TilePartCursor.readHeaders ⟨piece,pieces⟩ ((header :: headers).map List.length) =
      some (header :: headers) ↔ Aligned (header :: headers) (piece :: pieces) := by
  rw [List.map_cons,readHeaders_cons,hadvance]
  rw [List.flatten_cons] at h
  rcases Nat.lt_or_ge piece.length header.length with hlt | hle
  · have hne : piece ≠ [] := hpiece.resolve_right fun h => by simp [h] at hlt
    rw [readBytes_eq_none hlt]
    exact iff_of_false (fun h => by cases h) (not_aligned_of_length_lt hne hlt)
  · obtain ⟨d,rfl⟩ := split_of_length_le h hle
    rw [List.append_assoc] at h
    rw [readBytes_append,Option.bind_some,aligned_shift,← ih d (List.append_cancel_left h)]
    cases TilePartCursor.readHeaders ⟨d,pieces⟩ (headers.map List.length) with
    | none => simp
    | some ls => simp

/-- Headers in pieces are read whole exactly when the pieces are cut between headers. -/
theorem readHeaders_iff {headers : List (List ℕ)} {piece : List ℕ} {pieces : List (List ℕ)}
    (h : headers.flatten = piece ++ pieces.flatten) :
    TilePartCursor.readHeaders ⟨piece,pieces⟩ (headers.map List.length) = some headers ↔
      Aligned headers (piece :: pieces) := by
  induction headers generalizing piece pieces with
  | nil =>
      refine iff_of_true rfl fun p hp => ?_
      have hle := hp.le
      rw [List.flatten_cons,← h] at hle
      rw [Nat.le_zero.mp hle]
      exact isCut_zero _
  | cons header headers ih =>
      induction pieces generalizing piece with
      | nil =>
          by_cases hne : piece = []
          · subst hne
            have hnil : header = [] := by
              rw [List.flatten_cons] at h
              exact (List.append_eq_nil_iff.mp h).1
            exact readHeaders_step h rfl (.inr hnil) fun d hd => ih hd
          · exact readHeaders_step h (advance_of_ne_nil hne _) (.inl hne) fun d hd => ih hd
      | cons next pieces ihp =>
          by_cases hne : piece = []
          · subst hne
            rw [readHeaders_nil_cons _ _ (by simp),aligned_nil_piece]
            exact ihp (by rw [h,List.nil_append,List.flatten_cons])
          · exact readHeaders_step h (advance_of_ne_nil hne _) (.inl hne) fun d hd => ih hd

/-- The same for the readers of a tile-part. -/
theorem cursor_readHeaders_iff {headers pieces : List (List ℕ)}
    (h : headers.flatten = pieces.flatten) (body : List ℕ) :
    (TilePartCursor.new pieces body).readHeaders (headers.map List.length) = some headers ↔
      Aligned headers pieces := by
  cases pieces with
  | cons piece pieces => exact readHeaders_iff h
  | nil =>
      have hnil : ∀ header ∈ headers, header = [] := List.flatten_eq_nil_iff.mp h
      refine iff_of_true ?_ fun p hp => ?_
      · clear h
        induction headers with
        | nil => rfl
        | cons header headers ih =>
            have hrest := ih fun x hx => hnil x (List.mem_cons_of_mem _ hx)
            rw [hnil header (by simp)]
            simp only [TilePartCursor.new] at hrest ⊢
            have hadvance : TilePartCursor.advance body [] = ⟨body,[]⟩ := by
              cases body <;> rfl
            rw [List.map_cons,readHeaders_cons,hadvance,List.length_nil]
            simp [readBytes,hrest]
      · rw [isCut_nil.mp hp]
        exact isCut_zero _

/-! ## PPT -/

def pptSegments (headers : List (List ℕ)) : List ℕ :=
  segmentsOf (segmentOpening markers.PPT) 0 (chunks packetHeaderMarkerPayloadLimit headers.flatten)

theorem sizes_foldl (headers : List (List ℕ)) :
    headers.foldl (fun bytes header => bytes + header.length) 0 = headers.flatten.length := by
  rw [List.length_flatten,List.sum_eq_foldl,List.foldl_map]

theorem writePptMarkers_ok (out : List ℕ) {headers : List (List ℕ)}
    (h : (headers.flatten.length + packetHeaderMarkerPayloadLimit - 1) /
      packetHeaderMarkerPayloadLimit ≤ 256) :
    writePptMarkers out headers = .ok (out ++ pptSegments headers) := by
  obtain ⟨t,hrun,hout⟩ := pushBytes_eq (n := packetHeaderMarkerPayloadLimit) (by decide)
    (fun _ hs _ hn => beginPptMarker_ok hs hn) (s := ⟨out,headers.flatten.length,0,0⟩)
    (l := headers.flatten) rfl rfl (by rw [chunks_length (by decide)]; simpa using h)
  obtain ⟨n,hn⟩ := chunkedMarkerBytes_total (k := 5)
    (e := "PPT packet headers require more than 256 marker segments") h
  unfold writePptMarkers
  rw [sizes_foldl]
  dsimp only
  rw [hn,ok_bind,writePptHeaders_eq (by simp),hrun,ok_bind,hout]
  rfl

theorem writePptMarkers_eq (out : List ℕ) {headers : List (List ℕ)} {written : List ℕ}
    (h : writePptMarkers out headers = .ok written) : written = out ++ pptSegments headers := by
  have hwritten := h
  unfold writePptMarkers at h
  rw [sizes_foldl] at h
  obtain ⟨n,hcount,-⟩ := bind_eq_ok.mp h
  rw [writePptMarkers_ok out (chunkedMarkerBytes_ok (by decide) hcount)] at hwritten
  exact (Except.ok.inj hwritten).symm

theorem tilePartPacketHeaders_iff {maxOwnedBytes : ℕ} (headers : List (List ℕ)) (rest : List ℕ) :
    tilePartPacketHeaders maxOwnedBytes (pptSegments headers ++ [0xFF,markers.SOD] ++ rest)
        (headers.map List.length) = .ok (some headers) ↔
      CutsBetween packetHeaderMarkerPayloadLimit (headers.map List.length) := by
  have hfits : Fits (chunks packetHeaderMarkerPayloadLimit headers.flatten) :=
    fits_chunks (by decide) (by decide) _
  have hlen := segmentsOf_length markers.PPT 0
    (chunks packetHeaderMarkerPayloadLimit headers.flatten)
  obtain ⟨fuel,hfuel⟩ := fuel_split
    (n := (chunks packetHeaderMarkerPayloadLimit headers.flatten).length)
    (k := (pptSegments headers ++ [0xFF,markers.SOD] ++ rest).length) (by
      rw [List.length_append,List.length_append]
      exact hlen.trans (by rw [pptSegments]; omega))
  rw [← aligned_chunks_iff_cutsBetween (by decide),tilePartPacketHeaders,hfuel,List.append_assoc,
    pptSegments,tilePartMarkers_ppt hfits]
  generalize hpieces : chunks packetHeaderMarkerPayloadLimit headers.flatten = pieces
  have hflat : headers.flatten = pieces.flatten := by
    rw [← hpieces,chunks_flatten (by decide)]
  have hend : tilePartMarkers maxOwnedBytes false (fuel + 1) ([0xFF,markers.SOD] ++ rest)
      ⟨[],[] ++ sequenced 0 pieces⟩ = .ok (⟨[],[] ++ sequenced 0 pieces⟩,rest) := rfl
  have hheaders : tilePartHeaders ([] ++ sequenced 0 pieces) [] 0 = .ok (pieces,0) := by
    rw [List.nil_append,tilePartHeaders,sortSegments_sequenced,sequenced_payload]
    simp [ppmHeaderCount,ok_bind]
  rw [hend,ok_bind]
  dsimp only
  rw [hheaders,ok_bind,Except.ok.injEq,cursor_readHeaders_iff hflat]

/-! ## What the PPM writer writes -/

/-- The entries of a tile-part: its headers, the first under the length of them all. -/
def tileEntries : List (List ℕ) → List PpmHeader
  | [] => []
  | header :: headers =>
      ⟨some (header :: headers).flatten.length, header⟩ :: headers.map fun header => ⟨none, header⟩

def cursorEntries (headers : List (List ℕ)) (tiles : List (List (List ℕ))) : List PpmHeader :=
  (headers.map fun header => ⟨none, header⟩) ++ tiles.flatMap tileEntries

/-- The length that an entry carries fits its four bytes. -/
def Sized (entry : PpmHeader) : Prop := ∀ len, entry.tilePartLen = some len → len < 2 ^ 32

theorem sized_none (header : List ℕ) : Sized ⟨none,header⟩ := fun _ h => by cases h

theorem nextPpmHeader_spec (headers : List (List ℕ)) (tiles : List (List (List ℕ)))
    {r : Option (PpmHeader × HeaderCursor)} (h : nextPpmHeader headers tiles = .ok r) :
    (r = none ∧ cursorEntries headers tiles = []) ∨
      ∃ header after, r = some (header,after) ∧ Sized header ∧
        cursorEntries headers tiles = header :: cursorEntries after.headers after.tiles := by
  induction tiles generalizing headers with
  | nil =>
      cases headers with
      | nil =>
          cases h
          exact .inl ⟨rfl,rfl⟩
      | cons header headers =>
          cases h
          exact .inr ⟨_,_,rfl,sized_none _,rfl⟩
  | cons tile tiles ih =>
      cases headers with
      | cons header headers =>
          cases h
          exact .inr ⟨_,_,rfl,sized_none _,rfl⟩
      | nil =>
          cases tile with
          | nil => exact ih [] h
          | cons header headers =>
              rw [nextPpmHeader,ppmTilePartHeaderLen,sizes_foldl] at h
              split_ifs at h with hlen
              · cases h
                refine .inr ⟨_,_,rfl,fun len hsome => ?_,rfl⟩
                rwa [← Option.some.inj hsome]
              · cases h

theorem entryLen_eq (header : PpmHeader) : header.bytes.length = header.entryLen := by
  obtain ⟨len,data⟩ := header
  cases len with
  | none => simp [PpmHeader.bytes,PpmHeader.entryLen]
  | some len =>
      rw [PpmHeader.bytes,PpmHeader.entryLen,List.length_append,Nat.add_comm]
      rfl

/-- Bytes of entries. -/
def entryBytes (entries : List PpmHeader) : List ℕ := entries.flatMap PpmHeader.bytes

theorem entryBytes_append (l r : List PpmHeader) :
    entryBytes (l ++ r) = entryBytes l ++ entryBytes r := List.flatMap_append

theorem nextPpmChunkLoop_spec {fuel : ℕ} {start last : HeaderCursor}
    {taken taken' : List PpmHeader} {payload payload' : ℕ}
    (hpayload : payload = (entryBytes taken).length)
    (hle : payload ≤ packetHeaderMarkerPayloadLimit)
    (hfuel : (cursorEntries start.headers start.tiles).length < fuel)
    (h : nextPpmChunkLoop fuel start taken payload = .ok (last,taken',payload')) :
    ∃ new, taken' = taken ++ new ∧ (∀ entry ∈ new, Sized entry) ∧
      payload' = (entryBytes taken').length ∧ payload' ≤ packetHeaderMarkerPayloadLimit ∧
      cursorEntries start.headers start.tiles = new ++ cursorEntries last.headers last.tiles ∧
      (payload' = 0 → cursorEntries last.headers last.tiles = []) := by
  induction fuel generalizing start taken payload with
  | zero => omega
  | succ fuel ih =>
      rw [nextPpmChunkLoop] at h
      obtain ⟨r,hr,h⟩ := bind_eq_ok.mp h
      rcases nextPpmHeader_spec _ _ hr with ⟨rfl,hnil⟩ | ⟨header,after,rfl,hsized,hcons⟩
      · cases h
        exact ⟨[],by simp,by simp,hpayload,hle,by simp,fun _ => hnil⟩
      · dsimp only at h
        split_ifs at h with hlong hfull
        · cases h
          exact ⟨[],by simp,by simp,hpayload,hle,by simp,fun h0 => absurd h0 hfull.1⟩
        · rw [hcons,List.length_cons] at hfuel
          have hentry := entryLen_eq header
          have hsmall : payload + header.entryLen ≤ packetHeaderMarkerPayloadLimit := by
            have hlimit : header.entryLen ≤ packetHeaderMarkerPayloadLimit := by
              unfold PpmHeader.entryLen
              unfold ppmPacketHeaderLimit at hlong
              have : packetHeaderMarkerPayloadLimit = 65532 := rfl
              split_ifs <;> omega
            by_cases h0 : payload = 0
            · omega
            · exact Nat.not_lt.mp fun hlt => hfull ⟨h0,hlt⟩
          obtain ⟨new,rfl,hnew,hpayload',hle',hentries,hzero⟩ := ih (by
            rw [entryBytes_append,List.length_append,← hpayload]
            simp [entryBytes,hentry]) hsmall (by omega) h
          refine ⟨header :: new,by simp,?_,hpayload',hle',?_,hzero⟩
          · exact List.forall_mem_cons.mpr ⟨hsized,hnew⟩
          · rw [hcons,hentries,List.cons_append]

theorem cursor_size (cursor : HeaderCursor) :
    (cursorEntries cursor.headers cursor.tiles).length = cursor.size := by
  have htile (tile : List (List ℕ)) : (tileEntries tile).length = tile.length := by
    cases tile <;> simp [tileEntries]
  unfold cursorEntries HeaderCursor.size
  rw [List.length_append,List.length_map,List.length_flatMap,List.length_flatten]
  simp only [htile]

theorem nextPpmChunk_spec {start : HeaderCursor} {r : Option (HeaderCursor × List PpmHeader × ℕ)}
    (h : nextPpmChunk start = .ok r) :
    (r = none ∧ entryBytes (cursorEntries start.headers start.tiles) = []) ∨
      ∃ last taken payload, r = some (last,taken,payload) ∧ payload = (entryBytes taken).length ∧
        payload ≤ packetHeaderMarkerPayloadLimit ∧ taken ≠ [] ∧ (∀ entry ∈ taken, Sized entry) ∧
        cursorEntries start.headers start.tiles = taken ++ cursorEntries last.headers last.tiles := by
  unfold nextPpmChunk at h
  obtain ⟨⟨last,taken,payload⟩,hloop,h⟩ := bind_eq_ok.mp h
  obtain ⟨new,rfl,hnew,hpayload,hle,hentries,hzero⟩ := nextPpmChunkLoop_spec rfl (Nat.zero_le _)
    (by rw [cursor_size]; omega) hloop
  dsimp only at h
  split_ifs at h with h0
  · cases h
    refine .inr ⟨_,_,_,rfl,hpayload,hle,?_,hnew,hentries⟩
    rintro rfl
    exact h0 hpayload
  · cases h
    have hnil : payload = 0 := not_not.mp h0
    refine .inl ⟨rfl,?_⟩
    rw [hentries,hzero hnil,List.append_nil]
    exact List.length_eq_zero_iff.mp (hpayload.symm.trans hnil)

/-- The chunks hold the entries in turn; what is left over has no bytes. -/
theorem ppmChunks_spec {fuel : ℕ} {cursor : HeaderCursor} {count : ℕ}
    {chunks : List (List PpmHeader × ℕ)}
    (hfuel : (cursorEntries cursor.headers cursor.tiles).length < fuel)
    (h : ppmChunks fuel cursor count = .ok chunks) :
    (∃ tail, entryBytes tail = [] ∧
      cursorEntries cursor.headers cursor.tiles = (chunks.map Prod.fst).flatten ++ tail) ∧
    (∀ chunk ∈ chunks, chunk.2 = (entryBytes chunk.1).length ∧
      chunk.2 ≤ packetHeaderMarkerPayloadLimit ∧ ∀ entry ∈ chunk.1, Sized entry) ∧ (count ≤ 256 → count + chunks.length ≤ 256) := by
  induction fuel generalizing cursor count chunks with
  | zero => omega
  | succ fuel ih =>
      rw [ppmChunks] at h
      obtain ⟨r,hr,h⟩ := bind_eq_ok.mp h
      rcases nextPpmChunk_spec hr with ⟨rfl,hnil⟩ |
        ⟨last,taken,payload,rfl,hpayload,hle,hne,htaken,hentries⟩
      · cases h
        exact ⟨⟨_,hnil,by simp⟩,by simp,fun hc => by simpa using hc⟩
      · dsimp only at h
        split_ifs at h with hmax
        obtain ⟨rest,hrest,h⟩ := bind_eq_ok.mp h
        cases h
        have hlen := List.length_pos_iff.mpr hne
        rw [hentries,List.length_append] at hfuel
        obtain ⟨⟨tail,htail,heq⟩,hall,hcount⟩ := ih (by omega) hrest
        refine ⟨⟨tail,htail,?_⟩,?_,fun _ => ?_⟩
        · rw [hentries,heq,List.map_cons,List.flatten_cons,List.append_assoc]
        · intro chunk hchunk
          rcases List.mem_cons.mp hchunk with rfl | hchunk
          · exact ⟨hpayload,hle,htaken⟩
          · exact hall chunk hchunk
        · have hmax' : count + 1 ≤ 256 := Nat.not_lt.mp hmax
          have := hcount hmax'
          rw [List.length_cons]
          omega

theorem writePpmMarker_eq {out : List ℕ} {sequence : ℕ} {chunk : List PpmHeader × ℕ}
    (hs : sequence < 256) (hlen : chunk.2 = (entryBytes chunk.1).length)
    (hle : chunk.2 ≤ packetHeaderMarkerPayloadLimit) :
    writePpmMarker out sequence chunk =
      .ok (out ++ (segmentOpening markers.PPM sequence (entryBytes chunk.1).length ++
        entryBytes chunk.1)) := by
  have hlimit : packetHeaderMarkerPayloadLimit = 65532 := rfl
  obtain ⟨h₁,h₂⟩ := writeHeader_ok (n := chunk.2 + 3) (by omega) hs
    "validated PPM marker length exceeds u16" "validated PPM marker sequence exceeds u8"
  have hfold (out : List ℕ) (entries : List PpmHeader) :
      entries.foldl (fun out header => out ++ header.bytes) out = out ++ entryBytes entries := by
    induction entries generalizing out with
    | nil => simp [entryBytes]
    | cons entry entries ih =>
        rw [List.foldl_cons,ih]
        simp [entryBytes]
  unfold writePpmMarker
  rw [h₁,h₂,ok_bind,ok_bind,hfold,hlen]
  simp [segmentOpening]

theorem writePpmChunks_eq {out : List ℕ} {chunks : List (List PpmHeader × ℕ)} {sequence : ℕ}
    (hall : ∀ chunk ∈ chunks, chunk.2 = (entryBytes chunk.1).length ∧
      chunk.2 ≤ packetHeaderMarkerPayloadLimit) (hcount : sequence + chunks.length ≤ 256) :
    (chunks.zipIdx sequence).foldlM
        (fun out (chunk,sequence) => writePpmMarker out sequence chunk) out =
      .ok (out ++ segmentsOf (segmentOpening markers.PPM) sequence
        (chunks.map fun chunk => entryBytes chunk.1)) := by
  induction chunks generalizing out sequence with
  | nil => simp [segmentsOf,pure,Except.pure]
  | cons chunk chunks ih =>
      obtain ⟨hlen,hle⟩ := hall chunk (by simp)
      rw [List.length_cons] at hcount
      rw [List.zipIdx_cons,List.foldlM_cons]
      dsimp only
      rw [writePpmMarker_eq (by omega) hlen hle,ok_bind,
        ih (fun c hc => hall c (List.mem_cons_of_mem _ hc)) (by omega),List.map_cons,segmentsOf,
        List.append_assoc]

/-- The segments of the main header hold the entries of the tile-parts whole. -/
theorem writePpmMarkers_eq {out written : List ℕ} {tiles : List (List (List ℕ))}
    (h : writePpmMarkers out tiles = .ok written) : ∃ groups : List (List PpmHeader),
    written = out ++ segmentsOf (segmentOpening markers.PPM) 0 (groups.map entryBytes) ∧
      Fits (groups.map entryBytes) ∧ groups.length ≤ 256 ∧
      (∀ tile ∈ tiles, tile ≠ [] ∧ tile.flatten.length < 2 ^ 32) ∧
      ∃ tail, entryBytes tail = [] ∧ tiles.flatMap tileEntries = groups.flatten ++ tail := by
  unfold writePpmMarkers at h
  split_ifs at h with hempty
  obtain ⟨chunks,hchunks,h⟩ := bind_eq_ok.mp h
  obtain ⟨⟨tail,htail,hentries⟩,hall,hcount⟩ := ppmChunks_spec (by
    rw [cursor_size]
    simp [HeaderCursor.size]) hchunks
  rw [writePpmChunks_eq (fun chunk hc => ⟨(hall chunk hc).1,(hall chunk hc).2.1⟩)
    (by simpa using hcount (Nat.zero_le _))] at h
  refine ⟨chunks.map Prod.fst,?_,?_,?_,fun tile htile => ?_,tail,htail,hentries⟩
  · rw [List.map_map]
    exact (Except.ok.inj h).symm
  · intro piece hpiece
    rw [List.map_map] at hpiece
    obtain ⟨chunk,hchunk,rfl⟩ := List.mem_map.mp hpiece
    obtain ⟨hlen,hle,-⟩ := hall chunk hchunk
    have : packetHeaderMarkerPayloadLimit = 65532 := rfl
    change (entryBytes chunk.1).length + 3 < 2 ^ 16
    omega
  · rw [List.length_map]
    simpa using hcount (Nat.zero_le _)
  · have hne : tile ≠ [] := fun h => hempty (List.any_eq_true.mpr ⟨tile,htile,by simp [h]⟩)
    obtain ⟨header,headers,rfl⟩ := List.exists_cons_of_ne_nil hne
    have hmem : (⟨some (header :: headers).flatten.length,header⟩ : PpmHeader) ∈
        (chunks.map Prod.fst).flatten ++ tail := by
      rw [← hentries]
      exact List.mem_flatMap.mpr ⟨_,htile,by simp [tileEntries]⟩
    refine ⟨hne,?_⟩
    rcases List.mem_append.mp hmem with hmem | hmem
    · obtain ⟨group,hgroup,hmem⟩ := List.mem_flatten.mp hmem
      obtain ⟨chunk,hchunk,rfl⟩ := List.mem_map.mp hgroup
      exact (hall chunk hchunk).2.2 _ hmem _ rfl
    · have hnil := List.flatMap_eq_nil_iff.mp htail _ hmem
      simp [PpmHeader.bytes,beBytes32] at hnil

end J2kNative.PacketHeaderRoundTrip
