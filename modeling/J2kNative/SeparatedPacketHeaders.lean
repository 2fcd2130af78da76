import J2kNative.PacketHeaderRoundTrip

/-!
# Assembly of the separated packet headers

The main header joins the PPM payloads to one stream, reads from it the length of
each tile-part's headers and takes the headers in fragments, one from each segment
that holds some. Since the writer cuts between entries, the fragments are cut
between headers.
-/
namespace J2kNative.SeparatedPacketHeaders
open Fallible StreamCuts PacketMarkers MarkerSegments PacketMarkerSpecs PacketLengthRoundTrip
open PacketHeaderRoundTrip

/-! ## Pieces without the empty ones before them -/

/-- The first piece that holds a byte, and the pieces behind it. -/
theorem exists_first_piece {pieces : List (List ℕ)} (h : pieces.flatten ≠ []) :
    ∃ piece rest, piece ≠ [] ∧ pieces.flatten = piece ++ rest.flatten ∧
      (∀ q, IsCut pieces q ↔ IsCut (piece :: rest) q) ∧
      nextByte pieces = nextByte (piece :: rest) ∧
      ∀ n, takeFragment n pieces = takeFragment n (piece :: rest) := by
  induction pieces with
  | nil => exact absurd rfl h
  | cons piece pieces ih =>
      by_cases hne : piece = []
      · subst hne
        obtain ⟨first,rest,hfirst,hflat,hcut,hbyte,hfrag⟩ := ih (by simpa using h)
        refine ⟨first,rest,hfirst,by simpa using hflat,fun q => ?_,hbyte,hfrag⟩
        rw [isCut_nil_cons,hcut]
      · exact ⟨piece,pieces,hne,rfl,fun _ => Iff.rfl,rfl,fun _ => rfl⟩

/-- The length that starts a tile-part's entries is read off one piece. -/
theorem readPacketLen_spec {n : ℕ} (hn : n < 2 ^ 32) {header : List ℕ}
    {tokens pieces : List (List ℕ)}
    (hflat : ((beBytes32 n ++ header) :: tokens).flatten = pieces.flatten)
    (haligned : Aligned ((beBytes32 n ++ header) :: tokens) pieces) :
    ∃ pieces', readPacketLen pieces = .ok (some (n,pieces')) ∧
      (header :: tokens).flatten = pieces'.flatten ∧ Aligned (header :: tokens) pieces' := by
  have hne : pieces.flatten ≠ [] := by
    rw [← hflat]
    simp [beBytes32]
  obtain ⟨piece,rest,hpiece,hpieces,hcut,hbyte,-⟩ := exists_first_piece hne
  have haligned' : Aligned ((beBytes32 n ++ header) :: tokens) (piece :: rest) :=
    fun q hq => haligned q ((hcut q).mpr hq)
  rw [hpieces,List.flatten_cons] at hflat
  have hle : (beBytes32 n ++ header).length ≤ piece.length :=
    Nat.not_lt.mp fun hlt => not_aligned_of_length_lt hpiece hlt haligned'
  obtain ⟨c,rfl⟩ := split_of_length_le hflat hle
  refine ⟨(header ++ c) :: rest,?_,?_,aligned_shift.mpr (aligned_shift.mp haligned')⟩
  · unfold readPacketLen
    rw [hbyte]
    have hvalue := readU32_beBytes hn []
    simp only [beBytes32,readU32,List.cons_append,List.nil_append,Option.some.injEq,
      Prod.mk.injEq,and_true] at hvalue
    simp only [beBytes32,List.cons_append,List.nil_append,nextByte,Option.bind_eq_bind,
      Option.bind_some]
    rw [hvalue]
  · rw [List.append_assoc] at hflat
    rw [List.flatten_cons,List.flatten_cons]
    simpa using hflat

/-- Fragments take `n` bytes off the pieces and cut only where these are cut. -/
theorem takeFragments_spec {fuel n : ℕ} {pieces : List (List ℕ)} (hn : 0 < n) (hfuel : n ≤ fuel)
    (hlen : n ≤ pieces.flatten.length) : ∃ init last pieces',
      takeFragments fuel n pieces = .ok (init ++ [last],pieces') ∧
      (∀ p ∈ init, p.endsTilePart = false) ∧ last.endsTilePart = true ∧
      pieces.flatten = ((init ++ [last]).map PpmPacket.data).flatten ++ pieces'.flatten ∧
      ((init ++ [last]).map PpmPacket.data).flatten.length = n ∧
      (∀ q, IsCut ((init ++ [last]).map PpmPacket.data) q → q = n ∨ IsCut pieces q) ∧
      (∀ q, IsCut pieces' q → q = 0 ∨ IsCut pieces (n + q)) := by
  induction fuel generalizing n pieces with
  | zero => omega
  | succ fuel ih =>
      have hne : pieces.flatten ≠ [] := fun h => by
        rw [h] at hlen
        exact absurd hlen (Nat.not_le.mpr hn)
      obtain ⟨piece,rest,hpiece,hpieces,hcut,-,hfrag⟩ := exists_first_piece hne
      have hpos := List.length_pos_iff.mpr hpiece
      have htake : takeFragment n pieces = some (piece.take n,piece.drop n :: rest) := by
        rw [hfrag,takeFragment,if_neg (by simpa using hpiece)]
      rw [takeFragments,if_neg (by omega),htake]
      dsimp only
      rcases Nat.lt_or_ge piece.length n with hlt | hle
      · -- the piece ends before the tile-part does
        rw [List.take_of_length_le hlt.le,List.drop_of_length_le hlt.le]
        rw [hpieces,List.length_append] at hlen
        obtain ⟨init,last,pieces',hrun,hinit,hlast,hflat,hsize,hcuts,hrest⟩ :=
          @ih (n - piece.length) ([] :: rest) (by omega) (by omega)
            (by rw [List.flatten_cons,List.nil_append]; omega)
        refine ⟨⟨piece,decide (n - piece.length = 0)⟩ :: init,last,pieces',?_,?_,hlast,?_,?_,?_,?_⟩
        · rw [hrun]
          rfl
        · intro p hp
          rcases List.mem_cons.mp hp with rfl | hp
          · exact decide_eq_false (by omega)
          · exact hinit p hp
        · rw [List.flatten_cons,List.nil_append] at hflat
          rw [hpieces,hflat,List.cons_append,List.map_cons,List.flatten_cons,List.append_assoc]
        · rw [List.cons_append,List.map_cons,List.flatten_cons,List.length_append,hsize]
          dsimp only
          omega
        · intro q hq
          rw [List.cons_append,List.map_cons] at hq
          rcases isCut_cons.mp hq with rfl | ⟨r,hr,rfl⟩
          · exact .inr (isCut_zero _)
          · rcases hcuts r hr with rfl | hr'
            · exact .inl (by dsimp only; omega)
            · rw [isCut_nil_cons] at hr'
              exact .inr ((hcut _).mpr (isCut_cons.mpr (.inr ⟨r,hr',rfl⟩)))
        · intro q hq
          rcases hrest q hq with rfl | hq'
          · exact .inl rfl
          · rw [isCut_nil_cons] at hq'
            exact .inr ((hcut _).mpr (isCut_cons.mpr (.inr ⟨_,hq',by omega⟩)))
      · -- the last fragment
        have hsize : (piece.take n).length = n := by
          rw [List.length_take,Nat.min_eq_left hle]
        refine ⟨[],⟨piece.take n,true⟩,piece.drop n :: rest,?_,by simp,rfl,?_,?_,?_,?_⟩
        · rw [hsize,Nat.sub_self]
          cases fuel with
          | zero => rfl
          | succ fuel => rfl
        · rw [hpieces]
          simp [← List.append_assoc]
        · simpa using hle
        · intro q hq
          rcases isCut_cons.mp hq with rfl | ⟨r,hr,rfl⟩
          · exact .inr (isCut_zero _)
          · have := isCut_nil.mp hr
            exact .inl (by dsimp only; omega)
        · intro q hq
          rcases isCut_cons.mp hq with rfl | ⟨r,hr,rfl⟩
          · exact .inl rfl
          · refine .inr ((hcut _).mpr (isCut_cons.mpr (.inr ⟨r,hr,?_⟩)))
            rw [List.length_drop]
            omega

/-! ## All tile-parts -/

/-- The packets of a tile-part: the last alone ends it, they hold its headers, and are cut
between these. -/
structure TileFragments (headers : List (List ℕ)) (packets : List PpmPacket) : Prop where
  ends : ∃ init last, packets = init ++ [last] ∧ (∀ p ∈ init, p.endsTilePart = false) ∧
    last.endsTilePart = true
  flatten : headers.flatten = (packets.map PpmPacket.data).flatten
  aligned : Aligned headers (packets.map PpmPacket.data)

theorem nextByte_of_flatten_nil {pieces : List (List ℕ)} (h : pieces.flatten = []) :
    nextByte pieces = none := by
  induction pieces with
  | nil => rfl
  | cons piece pieces ih =>
      obtain ⟨rfl,hrest⟩ := List.append_eq_nil_iff.mp (List.flatten_cons ▸ h)
      exact ih hrest

/-- Bytes of the entries of a tile-part. -/
theorem tileEntries_bytes (header : List ℕ) (headers : List (List ℕ)) :
    (tileEntries (header :: headers)).map PpmHeader.bytes =
      (beBytes32 (header :: headers).flatten.length ++ header) :: headers := by
  have hid : PpmHeader.bytes ∘ (fun header => ⟨none,header⟩) = id := rfl
  rw [tileEntries,List.map_cons,List.map_map,hid,List.map_id]
  rfl

/-- A tile-part taken off a stream that is cut between its headers and the tokens behind. -/
theorem takeFragments_tile {headers tokens pieces : List (List ℕ)}
    (hpos : 0 < headers.flatten.length) (hflat : (headers ++ tokens).flatten = pieces.flatten)
    (haligned : Aligned (headers ++ tokens) pieces) : ∃ fragments pieces',
      takeFragments headers.flatten.length headers.flatten.length pieces =
        .ok (fragments,pieces') ∧ TileFragments headers fragments ∧
      tokens.flatten = pieces'.flatten ∧ Aligned tokens pieces' := by
  rw [List.flatten_append] at hflat
  obtain ⟨init,last,pieces',hrun,hinit,hlast,hpieces,hlen,hcuts,hrest⟩ :=
    @takeFragments_spec _ _ pieces hpos le_rfl (by
      rw [← hflat,List.length_append]
      exact Nat.le_add_right _ _)
  obtain ⟨hheaders,htokens⟩ := List.append_inj (hflat.trans hpieces) hlen.symm
  refine ⟨_,pieces',hrun,⟨⟨init,last,rfl,hinit,hlast⟩,hheaders,fun q hq => ?_⟩,htokens,
    fun q hq => ?_⟩
  · rcases hcuts q hq with rfl | hq'
    · exact isCut_length headers
    · exact isCut_of_append_left (haligned q hq') (by rw [← hlen]; exact hq.le)
  · rcases hrest q hq with rfl | hq'
    · exact isCut_zero tokens
    · exact isCut_of_append_right (haligned _ hq')

theorem flattenPackets_spec {fuel : ℕ} {tiles : List (List (List ℕ))} {pieces : List (List ℕ)}
    (htiles : ∀ tile ∈ tiles, tile ≠ [] ∧ tile.flatten.length < 2 ^ 32)
    (hfuel : tiles.length < fuel)
    (hflat : ((tiles.flatMap tileEntries).map PpmHeader.bytes).flatten = pieces.flatten)
    (haligned : Aligned ((tiles.flatMap tileEntries).map PpmHeader.bytes) pieces) :
    ∃ fragments, flattenPackets fuel pieces = .ok fragments.flatten ∧
      List.Forall₂ TileFragments tiles fragments := by
  induction tiles generalizing fuel pieces with
  | nil =>
      obtain ⟨fuel,rfl⟩ := Nat.exists_eq_add_of_lt hfuel
      refine ⟨[],?_,.nil⟩
      rw [flattenPackets,readPacketLen,nextByte_of_flatten_nil hflat.symm]
      rfl
  | cons tile tiles ih =>
      obtain ⟨⟨hne,hlen⟩,hrest⟩ := List.forall_mem_cons.mp htiles
      obtain ⟨header,headers,rfl⟩ := List.exists_cons_of_ne_nil hne
      obtain ⟨fuel,rfl⟩ : ∃ k, fuel = k + 1 := ⟨fuel - 1,by omega⟩
      rw [List.flatMap_cons,List.map_append,tileEntries_bytes,List.cons_append] at hflat haligned
      obtain ⟨pieces₁,hread,hflat₁,haligned₁⟩ := readPacketLen_spec hlen hflat haligned
      rw [flattenPackets,hread,ok_bind]
      dsimp only
      rw [List.length_cons] at hfuel
      by_cases h0 : (header :: headers).flatten.length = 0
      · -- a tile-part without header bytes
        have hnil := List.length_eq_zero_iff.mp h0
        rw [← List.cons_append,List.flatten_append,hnil,List.nil_append] at hflat₁
        obtain ⟨fragments,hrun,hall⟩ := ih hrest (Nat.lt_of_succ_lt_succ hfuel) hflat₁ fun q hq => by
          have hcut := haligned₁ q hq
          rw [← List.cons_append] at hcut
          exact isCut_of_append_right (l := header :: headers) (by rwa [h0,Nat.zero_add])
        refine ⟨[⟨[],true⟩] :: fragments,?_,.cons ⟨⟨[],⟨[],true⟩,rfl,by simp,rfl⟩,?_,?_⟩ hall⟩
        · rw [if_pos h0,hrun]
          rfl
        · simpa using hnil
        · intro q hq
          have hle := hq.le
          rw [Nat.le_zero.mp hle]
          exact isCut_zero _
      · obtain ⟨fragments,pieces₂,htake,hfragments,hflat₂,haligned₂⟩ :=
          takeFragments_tile (Nat.pos_of_ne_zero h0) hflat₁ haligned₁
        obtain ⟨rest,hrun,hall⟩ := ih hrest (Nat.lt_of_succ_lt_succ hfuel) hflat₂ haligned₂
        refine ⟨fragments :: rest,?_,.cons hfragments hall⟩
        rw [if_neg h0,htake,ok_bind]
        dsimp only
        rw [hrun]
        rfl

/-! ## Reading the tile-parts -/

/-- The packets from `done` on, up to the first end of a tile-part. -/
theorem tilePartHeaders_spec {headers : List (List ℕ)} {packets : List PpmPacket}
    (h : TileFragments headers packets) (done rest : List PpmPacket) :
    tilePartHeaders [] (done ++ (packets ++ rest)) done.length =
      .ok (packets.map PpmPacket.data,(done ++ packets).length) := by
  obtain ⟨init,last,rfl,hinit,hlast⟩ := h.ends
  have hfind : ((init ++ [last]) ++ rest).findIdx? PpmPacket.endsTilePart = some init.length := by
    rw [List.append_assoc,List.findIdx?_append,List.findIdx?_eq_none_iff.mpr hinit]
    simp [List.findIdx?_cons,hlast]
  have hcount : ppmHeaderCount (done ++ (init ++ [last] ++ rest)) done.length =
      .ok (init ++ [last]).length := by
    rw [ppmHeaderCount,if_neg (by simp),if_neg (by simp),List.drop_left,hfind]
    simp
  rw [tilePartHeaders,hcount,ok_bind,List.drop_left,List.take_left,← List.length_append]
  rfl

theorem readTileParts_spec {tiles : List (List (List ℕ))} {fragments : List (List PpmPacket)}
    (h : List.Forall₂ TileFragments tiles fragments) (done : List PpmPacket) :
    readTileParts (done ++ fragments.flatten) done.length
      (tiles.map fun headers => headers.map List.length) = .ok (tiles.map some) := by
  induction h generalizing done with
  | nil => rfl
  | cons hfirst hrest ih =>
      rename_i headers packets tiles fragments
      have hread : (TilePartCursor.new (packets.map PpmPacket.data) []).readHeaders
          (headers.map List.length) = some headers :=
        (cursor_readHeaders_iff hfirst.flatten []).mpr hfirst.aligned
      rw [List.map_cons,readTileParts,List.flatten_cons,tilePartHeaders_spec hfirst,ok_bind]
      dsimp only
      rw [← List.append_assoc,ih,ok_bind,hread]
      rfl

theorem tryFlattenPpmPackets_sequenced {pieces : List (List ℕ)} (h : pieces.length ≤ 256) :
    tryFlattenPpmPackets (sequenced 0 pieces) =
      flattenPackets (pieces.flatten.length + 1) pieces := by
  have hnumbers (sequence : ℕ) (pieces : List (List ℕ)) (h : sequence + pieces.length ≤ 256) :
      ((sequenced sequence pieces).zipIdx sequence).any (fun x =>
        x.2 ≥ 2 ^ 8 || x.1.sequenceIdx != x.2) = false := by
    induction pieces generalizing sequence with
    | nil => rfl
    | cons piece pieces ih =>
        rw [List.length_cons] at h
        have hlt : sequence < 2 ^ 8 := by omega
        rw [sequenced,List.zipIdx_cons,List.any_cons,ih (sequence + 1) (by omega)]
        simpa using hlt
  unfold tryFlattenPpmPackets
  rw [hnumbers 0 pieces (by omega),if_neg (by simp),List.flatMap_def,sequenced_payload]

/-- The entries of the tile-parts, whole in each segment, come back as the headers. -/
theorem ppm_headers_spec {tiles : List (List (List ℕ))} {groups : List (List PpmHeader)}
    {tail : List PpmHeader} (hcount : groups.length ≤ 256)
    (htiles : ∀ tile ∈ tiles, tile ≠ [] ∧ tile.flatten.length < 2 ^ 32)
    (htail : entryBytes tail = [])
    (hentries : tiles.flatMap tileEntries = groups.flatten ++ tail) :
    (tryFlattenPpmPackets (sequenced 0 (groups.map entryBytes)) >>= fun packets =>
      readTileParts packets 0 (tiles.map fun headers => headers.map List.length)) =
      .ok (tiles.map some) := by
  have hbytes : ((tiles.flatMap tileEntries).map PpmHeader.bytes).flatten =
      (groups.map entryBytes).flatten := by
    rw [hentries,← List.flatMap_def,List.flatMap_append]
    change entryBytes groups.flatten ++ entryBytes tail = _
    rw [htail,List.append_nil,entryBytes,List.flatMap_def,List.map_flatten,List.flatten_flatten,
      List.map_map]
    rfl
  have haligned : Aligned ((tiles.flatMap tileEntries).map PpmHeader.bytes)
      (groups.map entryBytes) := by
    intro q hq
    rw [hentries,List.map_append,List.map_flatten]
    refine IsCut.append_left (aligned_of_groups _ q ?_) _
    rw [List.map_map]
    exact hq
  have hfuel : tiles.length < (groups.map entryBytes).flatten.length + 1 := by
    rw [← hbytes]
    clear hbytes haligned hentries
    induction tiles with
    | nil => simp
    | cons tile tiles ih =>
        obtain ⟨⟨hne,-⟩,hrest⟩ := List.forall_mem_cons.mp htiles
        obtain ⟨header,headers,rfl⟩ := List.exists_cons_of_ne_nil hne
        have := ih hrest
        rw [List.flatMap_cons,List.map_append,tileEntries_bytes,List.flatten_append,
          List.length_append,List.flatten_cons,List.length_append,List.length_append,
          List.length_cons]
        have : (beBytes32 (header :: headers).flatten.length).length = 4 := rfl
        omega
  obtain ⟨fragments,hrun,hall⟩ := flattenPackets_spec htiles hfuel hbytes haligned
  rw [tryFlattenPpmPackets_sequenced (by simpa using hcount),hrun,ok_bind]
  exact readTileParts_spec hall []

/-- What the main header announces for the tile-parts that the writer accepted. -/
theorem mainPacketHeaders_eq {maxOwnedBytes : ℕ} {out written : List ℕ}
    {tiles : List (List (List ℕ))} (h : writePpmMarkers out tiles = .ok written)
    (rest : List ℕ) : ∃ segments, written = out ++ segments ∧
      mainPacketHeaders maxOwnedBytes (segments ++ [0xFF,markers.SOT] ++ rest)
        (tiles.map fun headers => headers.map List.length) = .ok (tiles.map some) := by
  obtain ⟨groups,hwritten,hfits,hcount,htiles,tail,htail,hentries⟩ := writePpmMarkers_eq h
  refine ⟨_,hwritten,?_⟩
  have hlen := segmentsOf_length markers.PPM 0 (groups.map entryBytes)
  obtain ⟨fuel,hfuel⟩ := fuel_split (n := (groups.map entryBytes).length)
    (k := (segmentsOf (segmentOpening markers.PPM) 0 (groups.map entryBytes) ++
      [0xFF,markers.SOT] ++ rest).length) (by
      rw [List.length_append,List.length_append]
      omega)
  rw [mainPacketHeaders,hfuel,List.append_assoc,mainMarkers_ppm hfits]
  have hend : mainMarkers maxOwnedBytes (fuel + 1) ([0xFF,markers.SOT] ++ rest)
      ⟨[],[] ++ sequenced 0 (groups.map entryBytes)⟩ =
      .ok (⟨[],[] ++ sequenced 0 (groups.map entryBytes)⟩,[0xFF,markers.SOT] ++ rest) := rfl
  rw [hend,ok_bind]
  dsimp only
  rw [List.nil_append,sortSegments_sequenced]
  exact ppm_headers_spec hcount htiles htail hentries

/-- Separated packet headers round trip: of a tile-part, exactly when no segment ends inside
a header; of the main header, always. -/
theorem separated_packet_headers_round_trip_iff (maxOwnedBytes : ℕ) (out rest : List ℕ) :
    (∀ headers written, writePptMarkers out headers = .ok written →
      ∃ segments, written = out ++ segments ∧
        (tilePartPacketHeaders maxOwnedBytes (segments ++ [0xFF,markers.SOD] ++ rest)
            (headers.map List.length) = .ok (some headers) ↔
          CutsBetween packetHeaderMarkerPayloadLimit (headers.map List.length))) ∧
    (∀ tiles written, writePpmMarkers out tiles = .ok written →
      ∃ segments, written = out ++ segments ∧
        mainPacketHeaders maxOwnedBytes (segments ++ [0xFF,markers.SOT] ++ rest)
          (tiles.map fun headers => headers.map List.length) = .ok (tiles.map some)) :=
  ⟨fun headers _ h => ⟨pptSegments headers,writePptMarkers_eq out h,
      tilePartPacketHeaders_iff headers rest⟩,
    fun _ _ h => mainPacketHeaders_eq h rest⟩

theorem separated_packet_headers_round_trip_two_packets :
    (∃ written, writePptMarkers [] [[0xC0,0x40],[0x00]] = .ok written ∧
      tilePartPacketHeaders 0 (written ++ [0xFF,markers.SOD] ++ []) [2,1] =
        .ok (some [[0xC0,0x40],[0x00]])) ∧
    ∃ written, writePpmMarkers [] [[[0xC0,0x40]],[[0x00]]] = .ok written ∧
      mainPacketHeaders 0 (written ++ [0xFF,markers.SOT] ++ []) [[2],[1]] =
        .ok [some [[0xC0,0x40]],some [[0x00]]] := by
  obtain ⟨hppt,hppm⟩ := separated_packet_headers_round_trip_iff 0 [] []
  constructor
  · obtain ⟨segments,hwritten,hiff⟩ := hppt [[0xC0,0x40],[0x00]]
      [0xFF,0x61,0,6,0,0xC0,0x40,0x00] (by decide)
    refine ⟨segments,?_,hiff.mpr fun k hk => ⟨0,?_⟩⟩
    · rw [List.nil_append] at hwritten
      rw [← hwritten]
      decide
    · have hzero : k = 0 := by
        change k * 65532 < 3 at hk
        omega
      rw [hzero]
      rfl
  · obtain ⟨segments,hwritten,hread⟩ := hppm [[[0xC0,0x40]],[[0x00]]]
      [0xFF,0x60,0,14,0,0,0,0,2,0xC0,0x40,0,0,0,1,0x00] (by decide)
    refine ⟨segments,?_,hread⟩
    rw [List.nil_append] at hwritten
    rw [← hwritten]
    decide

/-- A header up to the last byte of a segment, then a header of two bytes. -/
def splitHeaders : List (List ℕ) := [List.replicate 65531 0,[0,0]]

theorem splitHeaders_sizes : splitHeaders.map List.length = [65531,2] := by
  rw [splitHeaders,List.map_cons,List.map_singleton,List.length_replicate]
  rfl

theorem splitHeaders_not_cutsBetween :
    ¬ CutsBetween packetHeaderMarkerPayloadLimit (splitHeaders.map List.length) := by
  intro h
  rw [splitHeaders_sizes,show packetHeaderMarkerPayloadLimit = 65532 from rfl] at h
  obtain ⟨i,hi⟩ := h 1 (by decide)
  rcases i with _ | _ | i
  · rw [List.take_zero,List.sum_nil] at hi
    omega
  · rw [List.take_succ_cons,List.take_zero,List.sum_cons,List.sum_nil] at hi
    omega
  · rw [List.take_of_length_le (by simp),List.sum_cons,List.sum_cons,List.sum_nil] at hi
    omega

/-- The writer cuts the second header in two, and the cursor does not read it. -/
theorem packet_header_split : ∃ written, writePptMarkers [] splitHeaders = .ok written ∧
    ∀ maxOwnedBytes rest, tilePartPacketHeaders maxOwnedBytes
      (written ++ [0xFF,markers.SOD] ++ rest) (splitHeaders.map List.length) ≠
        .ok (some splitHeaders) := by
  have hlen : splitHeaders.flatten.length = 65533 := by
    rw [List.length_flatten,splitHeaders_sizes]
    rfl
  have hwritten := @writePptMarkers_ok [] splitHeaders (by rw [hlen]; decide)
  refine ⟨_,hwritten,fun maxOwnedBytes rest hread => ?_⟩
  rw [List.nil_append,tilePartPacketHeaders_iff] at hread
  exact splitHeaders_not_cutsBetween hread

end J2kNative.SeparatedPacketHeaders
