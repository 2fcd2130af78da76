import J2kNative.CodestreamWriter
import J2kNative.PacketLengthRoundTrip
import J2kNative.PacketHeaderRoundTrip

/-!
# The codestream has the length computed for it

Every writer appends bytes that do not depend on what precedes them, as many as the
accounting counts. The bytes of a tile-part are those that its `Psot` field spans.
-/
namespace J2kNative.CodestreamAccounting
open Fallible StreamCuts PacketMarkers MarkerSegments PacketMarkerSpecs PacketLengthRoundTrip
  PacketHeaderRoundTrip MainHeader CodestreamWriter

/-! ## Checked sums -/

theorem checkedAddBytes_ok {left right total : ℕ} {what : String}
    (h : checkedAddBytes left right what = .ok total) : total = left + right := by
  unfold checkedAddBytes at h
  split_ifs at h
  exact (Except.ok.inj h).symm

theorem checkedElementBytes_ok {count size total : ℕ} {what : String}
    (h : checkedElementBytes count size what = .ok total) : total = count * size := by
  unfold checkedElementBytes at h
  split_ifs at h
  exact (Except.ok.inj h).symm

theorem ok_of_optional {α : Type} {c : Bool} {x : Except EncodeError α} {a b : α}
    (h : (if c then x else .ok a) = .ok b) : (c = true ∧ x = .ok b) ∨ (c = false ∧ b = a) := by
  cases c with
  | true => exact .inl ⟨rfl, h⟩
  | false => exact .inr ⟨rfl, (Except.ok.inj h).symm⟩

/-! ## The main header -/

@[simp] theorem beBytes16_length (n : ℕ) : (beBytes16 n).length = 2 := rfl
@[simp] theorem beBytes32_length (n : ℕ) : (beBytes32 n).length = 4 := rfl

/-- Bytes of the entries of a quantization marker. -/
def stepsLen (reversible : Bool) (count : ℕ) : ℕ := if reversible then count else count * 2

theorem steps_length (reversible : Bool) (stepSizes : List (ℕ × ℕ)) :
    (stepSizes.flatMap (stepBytes reversible)).length = stepsLen reversible stepSizes.length := by
  rw [List.length_flatMap]
  cases reversible with
  | true => simp [stepBytes, stepsLen]
  | false => simp [stepBytes, stepsLen]

theorem quantizationMarker_length {name : String} {code : ℕ} {index bytes : List ℕ}
    {params : EncodeParams} {stepSizes : List (ℕ × ℕ)}
    (h : quantizationMarker name code index params stepSizes = .ok bytes) :
    bytes.length = 5 + index.length + stepsLen params.reversible stepSizes.length := by
  unfold quantizationMarker at h
  obtain ⟨stepCount, -, h⟩ := bind_eq_ok.mp h
  obtain ⟨stepLen, -, h⟩ := bind_eq_ok.mp h
  obtain ⟨markerLen, -, h⟩ := bind_eq_ok.mp h
  split at h
  · cases h
  · cases h
    simp only [List.length_append, List.length_cons, List.length_nil, beBytes16_length,
      steps_length]
    omega

theorem quantizationMarkerBytes_ok {reversible : Bool} {stepCount componentBytes total : ℕ}
    {what : String} (h : quantizationMarkerBytes reversible stepCount componentBytes what = .ok total) :
    total = 5 + componentBytes + stepsLen reversible stepCount := by
  unfold quantizationMarkerBytes at h
  unfold stepsLen
  dsimp only at h
  split_ifs at h ⊢
  all_goals exact (Except.ok.inj h).symm

/-- Bytes of the QCC segment of a component, if it has one. -/
def qccLen (params : EncodeParams) (steps : List (ℕ × ℕ)) : ℕ :=
  if steps.isEmpty then 0
  else 5 + componentBytes params + stepsLen params.reversible steps.length

def rgnLen (params : EncodeParams) (shift : ℕ) : ℕ := if shift = 0 then 0 else rgnBytes params

theorem addQccBytes_ok {params : EncodeParams} {bytes total : ℕ} {steps : List (ℕ × ℕ)}
    (h : addQccBytes params bytes steps = .ok total) : total = bytes + qccLen params steps := by
  unfold addQccBytes at h
  unfold qccLen
  split_ifs at h ⊢ with hempty
  · exact (Except.ok.inj h).symm
  · obtain ⟨segment, hsegment, h⟩ := bind_eq_ok.mp h
    rw [checkedAddBytes_ok h, quantizationMarkerBytes_ok hsegment]

theorem addRgnBytes_ok {params : EncodeParams} {bytes total shift : ℕ}
    (h : addRgnBytes params bytes shift = .ok total) : total = bytes + rgnLen params shift := by
  unfold addRgnBytes at h
  unfold rgnLen
  by_cases hshift : shift = 0
  · rw [if_neg (not_not.mpr hshift)] at h
    rw [if_pos hshift]
    exact (Except.ok.inj h).symm
  · rw [if_pos hshift] at h
    rw [if_neg hshift]
    exact checkedAddBytes_ok h

/-- A loop over the indices that looks each up sees the items up to the last index. -/
theorem sum_range_getElem? {α : Type} (l : List α) (cost : α → ℕ) (n : ℕ) :
    ((List.range n).map fun i => (l[i]?).elim 0 cost).sum = ((l.take n).map cost).sum := by
  induction n with
  | zero => simp
  | succ n ih =>
      rw [List.range_succ, List.map_append, List.sum_append, ih, List.take_add_one,
        List.map_append, List.sum_append, List.map_singleton]
      cases l[n]? with
      | none => rfl
      | some a => rfl

theorem qccMarkers_length {params : EncodeParams} {bytes : List ℕ}
    (h : qccMarkers params = .ok bytes) : bytes.length =
      ((params.componentQuantizationStepSizes.take params.numComponents).map
        (qccLen params)).sum := by
  unfold qccMarkers at h
  obtain ⟨segments, hsegments, h⟩ := bind_eq_ok.mp h
  cases h
  rw [← sum_range_getElem?, List.length_flatten]
  refine congrArg List.sum (map_eq_of_forall₂ ((mapM_forall₂ hsegments).imp ?_))
  intro i segment hsegment
  cases hsteps : params.componentQuantizationStepSizes[i]? with
  | none =>
      rw [hsteps] at hsegment
      cases hsegment
      rfl
  | some steps =>
      rw [hsteps] at hsegment
      dsimp only at hsegment
      rw [Option.elim_some, qccLen]
      split_ifs at hsegment ⊢
      · cases hsegment
        rfl
      · rw [quantizationMarker_length hsegment]
        unfold componentIndexBytes componentBytes
        split_ifs <;> rfl

theorem rgnMarkers_length (params : EncodeParams) : (rgnMarkers params).length =
    ((params.roiComponentShifts.take params.numComponents).map (rgnLen params)).sum := by
  unfold rgnMarkers
  rw [← sum_range_getElem?, List.length_flatMap]
  refine congrArg List.sum (List.map_congr_left fun i _ => ?_)
  cases params.roiComponentShifts[i]? with
  | none => rfl
  | some shift =>
      rw [Option.elim_some]
      dsimp only
      unfold rgnLen
      split_ifs with hshift
      · rfl
      · unfold rgnMarker rgnBytes
        split_ifs <;> rfl

theorem sizMarker_length (params : EncodeParams) :
    (sizMarker params).length = 40 + params.numComponents * 3 := by
  unfold sizMarker
  simp only [List.length_append, List.length_cons, List.length_nil, beBytes16_length,
    beBytes32_length, List.length_flatMap]
  have hcomponent : ∀ i, (sizComponent params i).length = 3 := fun i => rfl
  simp only [hcomponent, List.map_const', List.sum_replicate_nat, List.length_range]

theorem codMarker_length {params : EncodeParams} {bytes : List ℕ}
    (h : codMarker params = .ok bytes) : bytes.length = 14 + params.precinctExponents.length := by
  unfold codMarker at h
  obtain ⟨markerLen, -, h⟩ := bind_eq_ok.mp h
  cases h
  simp only [List.length_append, List.length_cons, List.length_nil, beBytes16_length,
    List.length_map]

/-- The accounting of the main header counts the bytes of its markers. -/
theorem mainHeaderPrefix_length {params : EncodeParams} {stepSizes : List (ℕ × ℕ)} {bytes : List ℕ}
    {total : ℕ} (hbytes : mainHeaderPrefix params stepSizes = .ok bytes)
    (htotal : mainHeaderPrefixLen params stepSizes = .ok total) : bytes.length = total := by
  unfold mainHeaderPrefix at hbytes
  obtain ⟨cod, hcod, hbytes⟩ := bind_eq_ok.mp hbytes
  obtain ⟨qcd, hqcd, hbytes⟩ := bind_eq_ok.mp hbytes
  obtain ⟨qcc, hqcc, hbytes⟩ := bind_eq_ok.mp hbytes
  cases hbytes
  unfold mainHeaderPrefixLen at htotal
  obtain ⟨siz, hsiz, htotal⟩ := bind_eq_ok.mp htotal
  obtain ⟨a, ha, htotal⟩ := bind_eq_ok.mp htotal
  obtain ⟨b, hb, htotal⟩ := bind_eq_ok.mp htotal
  obtain ⟨c, hc, htotal⟩ := bind_eq_ok.mp htotal
  obtain ⟨precincts, hprecincts, htotal⟩ := bind_eq_ok.mp htotal
  obtain ⟨d, hd, htotal⟩ := bind_eq_ok.mp htotal
  obtain ⟨e, he, htotal⟩ := bind_eq_ok.mp htotal
  obtain ⟨step, hstep, htotal⟩ := bind_eq_ok.mp htotal
  obtain ⟨f, hf, htotal⟩ := bind_eq_ok.mp htotal
  obtain ⟨g, hg, htotal⟩ := bind_eq_ok.mp htotal
  have hcap : c = b + (if params.blockCodingMode = .highThroughput then capMarker params
      else []).length := by
    split_ifs at hc ⊢
    · rw [checkedAddBytes_ok hc]
      rfl
    · exact (Except.ok.inj hc).symm
  split_ifs at hprecincts with hfit
  have hprecincts := Except.ok.inj hprecincts
  have hqccs := foldlM_total (qccLen params) (f := addQccBytes params) (fun _ _ _ => addQccBytes_ok) hg
  have hrgns := foldlM_total (rgnLen params) (f := addRgnBytes params) (fun _ _ _ => addRgnBytes_ok) htotal
  have hqcdLen := quantizationMarker_length hqcd
  have hsteps := quantizationMarkerBytes_ok hstep
  rw [checkedElementBytes_ok hsiz] at hb
  rw [checkedAddBytes_ok ha] at hb
  rw [checkedAddBytes_ok hb] at hcap
  rw [checkedAddBytes_ok hd, ← hprecincts] at he
  rw [checkedAddBytes_ok he] at hf
  rw [checkedAddBytes_ok hf, hsteps] at hqccs
  rw [hrgns, hqccs, hcap]
  simp only [List.length_append, List.length_cons, List.length_nil, sizMarker_length,
    codMarker_length hcod, hqcdLen, qccMarkers_length hqcc, rgnMarkers_length]
  omega

/-! ## Packet marker segments -/

/-- A writer that appends these bytes, whatever precedes them. -/
def Puts (write : List ℕ → Except EncodeError (List ℕ)) (bytes : List ℕ) : Prop :=
  ∀ out, write out = .ok (out ++ bytes)

theorem puts_nil : Puts (fun out => .ok out) [] := fun out => by rw [List.append_nil]

theorem Puts.optional {write : List ℕ → Except EncodeError (List ℕ)} {bytes : List ℕ} {c : Bool}
    (h : c = true → Puts write bytes) :
    Puts (fun out => if c then write out else .ok out) (if c then bytes else []) := by
  cases c with
  | true => exact h rfl
  | false => exact puts_nil

theorem Puts.bind {f g : List ℕ → Except EncodeError (List ℕ)} {a b : List ℕ} (hf : Puts f a)
    (hg : Puts g b) : Puts (fun out => f out >>= g) (a ++ b) := by
  intro out
  dsimp only
  rw [hf out, ok_bind, hg (out ++ a), List.append_assoc]

theorem puts_append (bytes : List ℕ) : Puts (fun out => .ok (out ++ bytes)) bytes := fun _ => rfl

theorem Puts.foldlM {α : Type} {write : List ℕ → α → Except EncodeError (List ℕ)}
    {bytes : α → List ℕ} {l : List α} (h : ∀ a ∈ l, Puts (fun out => write out a) (bytes a)) :
    Puts (fun out => l.foldlM write out) (l.flatMap bytes) := by
  induction l with
  | nil => exact puts_nil
  | cons a l ih =>
      intro out
      have hfirst : write out a = .ok (out ++ bytes a) := h a List.mem_cons_self out
      have hrest : l.foldlM write (out ++ bytes a) = .ok (out ++ bytes a ++ l.flatMap bytes) :=
        ih (fun b hb => h b (List.mem_cons_of_mem _ hb)) (out ++ bytes a)
      dsimp only
      rw [List.foldlM_cons, hfirst, ok_bind, hrest, List.flatMap_cons, List.append_assoc]

theorem segments_length {opening : ℕ → ℕ → List ℕ} (overhead : ℕ)
    (hopening : ∀ sequence len, (opening sequence len).length = overhead) (sequence : ℕ)
    (pieces : List (List ℕ)) : (segmentsOf opening sequence pieces).length =
      pieces.flatten.length + pieces.length * overhead := by
  induction pieces generalizing sequence with
  | nil => simp [segmentsOf]
  | cons piece pieces ih =>
      rw [segmentsOf, List.length_append, List.length_append, ih, hopening, List.flatten_cons,
        List.length_append, List.length_cons, Nat.succ_mul]
      omega

theorem packetMarkers_ok {α : Type} {result : Except String α} {a : α}
    (h : packetMarkers result = .ok a) : result = .ok a := by
  cases result with
  | error e => cases h
  | ok b => exact congrArg Except.ok (Except.ok.inj h)

/-- What a chunked marker accounts for are its pieces behind their openings. -/
theorem chunkedMarkerBytes_eq {n overhead total : ℕ} (hn : 0 < n) {stream : List ℕ}
    {what : String} (h : chunkedMarkerBytes stream.length n overhead what = .ok total) :
    total = stream.length + (chunks n stream).length * overhead := by
  unfold chunkedMarkerBytes at h
  dsimp only at h
  split_ifs at h with hzero hcount
  · rw [List.length_eq_zero_iff.mp hzero, chunks_nil]
    simpa using (Except.ok.inj h).symm
  · rw [chunks_length hn]
    exact (Except.ok.inj h).symm

theorem pltMarkers_spec {lengths : List ℕ} (hlengths : ∀ v ∈ lengths, v < 2 ^ 32) {total : ℕ}
    (h : pltMarkerBytes lengths = .ok total) :
    Puts (fun out => packetMarkers (writePltMarkers out lengths)) (pltSegments lengths) ∧
      (pltSegments lengths).length = total := by
  have hbytes := packetMarkers_ok h
  rw [packetLengthPayloadLen_eq] at hbytes
  constructor
  · intro out
    dsimp only
    rw [writePltMarkers_ok out hlengths (chunkedMarkerBytes_ok (by decide) hbytes)]
    rfl
  · rw [← lengthStream_length hlengths] at hbytes
    rw [chunkedMarkerBytes_eq (by decide) hbytes, pltSegments,
      segments_length 5 (fun _ _ => rfl), chunks_flatten (by decide)]

theorem pptMarkers_spec {headers : List (List ℕ)} {total : ℕ}
    (h : pptMarkerBytes headers = .ok total) :
    Puts (fun out => packetMarkers (writePptMarkers out headers)) (pptSegments headers) ∧
      (pptSegments headers).length = total := by
  have hbytes := packetMarkers_ok h
  rw [sizes_foldl] at hbytes
  constructor
  · intro out
    dsimp only
    rw [writePptMarkers_ok out (chunkedMarkerBytes_ok (by decide) hbytes)]
    rfl
  · rw [chunkedMarkerBytes_eq (by decide) hbytes, pptSegments,
      segments_length 5 (fun _ _ => rfl), chunks_flatten (by decide)]

theorem tiles_foldl (tiles : List TilePartData) :
    tiles.foldl (fun bytes tile => bytes + packetLengthPayloadLen tile.packetLengths) 0 =
      (tiles.map TilePartData.packetLengths).foldl
        (fun bytes lengths => bytes + packetLengthPayloadLen lengths) 0 := by
  rw [List.foldl_map]

theorem packetLengths_lt (tiles : List TilePartData) :
    ∀ v ∈ (tiles.map TilePartData.packetLengths).flatten, v < 2 ^ 32 := by
  intro v hv
  obtain ⟨lengths, hlengths, hv⟩ := List.mem_flatten.mp hv
  obtain ⟨tile, -, rfl⟩ := List.mem_map.mp hlengths
  exact tile.packetLengths_lt v hv

theorem plmMarkers_spec {tiles : List TilePartData} {total : ℕ}
    (h : plmMarkerBytes tiles = .ok total) : ∃ bytes, bytes.length = total ∧
      Puts (fun out => packetMarkers
        (writePlmMarkers out (tiles.map TilePartData.packetLengths))) bytes := by
  have hlengths := packetLengths_lt tiles
  have hbytes := packetMarkers_ok h
  rw [tiles_foldl, tiles_payload] at hbytes
  refine ⟨segmentsOf (fun sequence len =>
      segmentOpening PacketMarkers.markers.PLM sequence (len + 4) ++ beBytes32 len) 0
    (chunks plmChunkSize (lengthStream (tiles.map TilePartData.packetLengths).flatten)),
    ?_, fun out => ?_⟩
  · rw [← lengthStream_length hlengths] at hbytes
    rw [chunkedMarkerBytes_eq (by decide) hbytes,
      segments_length 9 (fun _ _ => rfl), chunks_flatten (by decide)]
  · have hrun := writePacketLengthChunks_eq (m := .plm) (by decide)
      (fun _ hs _ hn => beginPacketLengthMarker_plm hs hn) out hlengths
      (chunkedMarkerBytes_ok (by decide) hbytes)
    unfold writePlmMarkers
    dsimp only
    rw [tiles_payload, hbytes, ok_bind, hrun]
    rfl

theorem ppmChunks_total {chunks : List (List PpmHeader × ℕ)}
    (h : ∀ chunk ∈ chunks, chunk.2 = (entryBytes chunk.1).length) :
    (segmentsOf (segmentOpening PacketMarkers.markers.PPM) 0
      (chunks.map fun chunk => entryBytes chunk.1)).length =
      (chunks.map fun chunk => chunk.2 + 5).sum := by
  rw [segments_length 5 (fun _ _ => rfl)]
  induction chunks with
  | nil => rfl
  | cons chunk chunks ih =>
      have hrest := ih fun c hc => h c (List.mem_cons_of_mem _ hc)
      have hlen := h chunk List.mem_cons_self
      rw [List.map_cons, List.map_cons, List.flatten_cons, List.length_append, List.length_cons,
        List.sum_cons, hlen]
      omega

theorem ppmMarkers_spec {tiles : List TilePartData} {total : ℕ}
    (h : ppmMarkerBytes tiles = .ok total) : ∃ bytes, bytes.length = total ∧
      Puts (fun out => packetMarkers
        (writePpmMarkers out (tiles.map TilePartData.packetHeaders))) bytes := by
  unfold ppmMarkerBytes at h
  split_ifs at h with hempty
  obtain ⟨chunks, hchunks, htotal⟩ := bind_eq_ok.mp h
  have hchunks := packetMarkers_ok hchunks
  obtain ⟨-, hall, hcount⟩ := ppmChunks_spec (by
    rw [cursor_size]
    simp [HeaderCursor.size]) hchunks
  have htotal := foldlM_total (fun chunk : List PpmHeader × ℕ => chunk.2 + 5)
    (fun _ _ _ => checkedAddBytes_ok) htotal
  refine ⟨segmentsOf (segmentOpening PacketMarkers.markers.PPM) 0
    (chunks.map fun chunk => entryBytes chunk.1), ?_, fun out => ?_⟩
  · rw [ppmChunks_total fun chunk hc => (hall chunk hc).1, htotal, Nat.zero_add]
  · have hrun := @writePpmChunks_eq out chunks 0
      (fun chunk hc => ⟨(hall chunk hc).1, (hall chunk hc).2.1⟩)
      (show 0 + chunks.length ≤ 256 from hcount (Nat.zero_le _))
    have hany : (tiles.map TilePartData.packetHeaders).any List.isEmpty = false := by
      rw [List.any_map]
      exact Bool.not_eq_true _ ▸ hempty
    unfold writePpmMarkers
    dsimp only
    rw [hany, if_neg (by decide), hchunks, ok_bind, hrun]
    rfl

/-! ## Tile-parts -/

/-- Everything of a tile-part behind its SOT segment. -/
def tilePartBody (params : EncodeParams) (tile : TilePartData) : List ℕ :=
  (if params.writePlt then pltSegments tile.packetLengths else []) ++
    (if params.writePpt then pptSegments tile.packetHeaders else []) ++
    [0xFF, PacketMarkers.markers.SOD] ++ tile.data

def tilePartBytes (params : EncodeParams) (tile : TilePartData) : List ℕ :=
  sotMarker tile.tileIndex (10 + (tilePartBody params tile).length) tile.tilePartIndex
    tile.numTileParts ++ tilePartBody params tile

theorem tilePartBytes_length (params : EncodeParams) (tile : TilePartData) :
    (tilePartBytes params tile).length = 12 + (tilePartBody params tile).length := by
  rw [tilePartBytes, List.length_append]
  rfl

/-- The accounting of a tile-part counts its bytes, and the writer writes them. -/
theorem tilePartLen_spec {params : EncodeParams} {tile : TilePartData} {total : ℕ}
    (h : tilePartLen params tile = .ok total) :
    Puts (fun out => writeTilePart params out tile) (tilePartBytes params tile) ∧
      (tilePartBytes params tile).length = total ∧ total < 2 ^ 32 := by
  have hlen := h
  unfold tilePartLen at hlen
  obtain ⟨plt, hplt, hlen⟩ := bind_eq_ok.mp hlen
  obtain ⟨a, ha, hlen⟩ := bind_eq_ok.mp hlen
  obtain ⟨ppt, hppt, hlen⟩ := bind_eq_ok.mp hlen
  obtain ⟨b, hb, hlen⟩ := bind_eq_ok.mp hlen
  obtain ⟨c, hc, hlen⟩ := bind_eq_ok.mp hlen
  split_ifs at hlen with hbound
  have htotal := Except.ok.inj hlen
  have hpltPuts : Puts (fun out => if params.writePlt then
      packetMarkers (writePltMarkers out tile.packetLengths) else .ok out)
        (if params.writePlt then pltSegments tile.packetLengths else []) := by
    refine Puts.optional fun hwrite => ?_
    rw [hwrite] at hplt
    exact (pltMarkers_spec tile.packetLengths_lt hplt).1
  have hpptPuts : Puts (fun out => if params.writePpt then
      packetMarkers (writePptMarkers out tile.packetHeaders) else .ok out)
        (if params.writePpt then pptSegments tile.packetHeaders else []) := by
    refine Puts.optional fun hwrite => ?_
    rw [hwrite] at hppt
    exact (pptMarkers_spec hppt).1
  have hpltLen : (if params.writePlt then pltSegments tile.packetLengths else []).length = plt := by
    rcases ok_of_optional hplt with ⟨hwrite, hplt⟩ | ⟨hwrite, rfl⟩
    · rw [hwrite]
      exact (pltMarkers_spec tile.packetLengths_lt hplt).2
    · rw [hwrite]
      rfl
  have hpptLen : (if params.writePpt then pptSegments tile.packetHeaders else []).length = ppt := by
    rcases ok_of_optional hppt with ⟨hwrite, hppt⟩ | ⟨hwrite, rfl⟩
    · rw [hwrite]
      exact (pptMarkers_spec hppt).2
    · rw [hwrite]
      rfl
  have hbody : (tilePartBody params tile).length = plt + ppt + 2 + tile.data.length := by
    rw [tilePartBody, List.length_append, List.length_append, List.length_append, hpltLen, hpptLen]
    rfl
  have hsum : total = 14 + plt + ppt + tile.data.length := by
    rw [← htotal, checkedAddBytes_ok hc, checkedAddBytes_ok hb, checkedAddBytes_ok ha]
  refine ⟨fun out => ?_, ?_, htotal ▸ hbound⟩
  · have hminus : total - 2 = 10 + (tilePartBody params tile).length := by omega
    have hend : Puts (fun out => .ok (out ++ [0xFF, PacketMarkers.markers.SOD] ++ tile.data))
        ([0xFF, PacketMarkers.markers.SOD] ++ tile.data) :=
      fun out => congrArg Except.ok (List.append_assoc _ _ _)
    have hrun := hpltPuts.bind (hpptPuts.bind hend) (out ++ sotMarker tile.tileIndex (total - 2)
      tile.tilePartIndex tile.numTileParts)
    unfold writeTilePart
    dsimp only
    rw [h, ok_bind]
    refine hrun.trans (congrArg Except.ok ?_)
    rw [tilePartBytes, ← hminus, tilePartBody]
    simp only [List.append_assoc]
  · rw [tilePartBytes_length]
    omega

/-- The tile-parts of a codestream, each accounted for. -/
theorem tileParts_total {params : EncodeParams} {tiles : List TilePartData} {bytes total : ℕ}
    (h : tiles.foldlM (fun bytes tile => do
      checkedAddBytes bytes (← tilePartLen params tile) "codestream tile-part bytes") bytes =
        .ok total) :
    total = bytes + (tiles.flatMap (tilePartBytes params)).length ∧
      ∀ tile ∈ tiles, ∃ n, tilePartLen params tile = .ok n := by
  induction tiles generalizing bytes with
  | nil =>
      cases h
      exact ⟨rfl, nofun⟩
  | cons tile tiles ih =>
      rw [List.foldlM_cons] at h
      obtain ⟨next, hnext, h⟩ := bind_eq_ok.mp h
      obtain ⟨n, hn, hnext⟩ := bind_eq_ok.mp hnext
      obtain ⟨htotal, hall⟩ := ih h
      have hlen := (tilePartLen_spec hn).2.1
      constructor
      · rw [htotal, checkedAddBytes_ok hnext, List.flatMap_cons, List.length_append, hlen]
        omega
      · intro t ht
        rcases List.mem_cons.mp ht with rfl | ht
        · exact ⟨n, hn⟩
        · exact hall t ht

/-! ## The whole codestream -/

def tlmBytes (params : EncodeParams) (tile : TilePartData) : List ℕ :=
  tlmMarker tile.tileIndex (tilePartBytes params tile).length

theorem writeTlmMarkers_puts {params : EncodeParams} {tiles : List TilePartData}
    (h : ∀ tile ∈ tiles, ∃ n, tilePartLen params tile = .ok n) :
    Puts (fun out => writeTlmMarkers params out tiles) (tiles.flatMap (tlmBytes params)) := by
  refine Puts.foldlM fun tile htile out => ?_
  obtain ⟨n, hn⟩ := h tile htile
  dsimp only
  rw [hn, ok_bind, tlmBytes, (tilePartLen_spec hn).2.1]

theorem writeTileParts_puts {params : EncodeParams} {tiles : List TilePartData}
    (h : ∀ tile ∈ tiles, ∃ n, tilePartLen params tile = .ok n) :
    Puts (fun out => tiles.foldlM (writeTilePart params) out)
      (tiles.flatMap (tilePartBytes params)) := by
  refine Puts.foldlM fun tile htile => ?_
  obtain ⟨n, hn⟩ := h tile htile
  exact (tilePartLen_spec hn).1

theorem tlm_length (params : EncodeParams) (tiles : List TilePartData) :
    (tiles.flatMap (tlmBytes params)).length = tiles.length * 12 := by
  rw [List.length_flatMap]
  have hone : ∀ tile, (tlmBytes params tile).length = 12 := fun _ => rfl
  simp only [hone, List.map_const', List.sum_replicate_nat]

/-- The optional segments between the main header and the tile-parts. -/
theorem writeMarkers_puts {params : EncodeParams} {tiles : List TilePartData}
    {stepSizes : List (ℕ × ℕ)} (plm ppm : List ℕ)
    (hplm : params.writePlm = true → Puts (fun out => packetMarkers
      (writePlmMarkers out (tiles.map TilePartData.packetLengths))) plm)
    (hppm : params.writePpm = true → Puts (fun out => packetMarkers
      (writePpmMarkers out (tiles.map TilePartData.packetHeaders))) ppm)
    (htiles : ∀ tile ∈ tiles, ∃ n, tilePartLen params tile = .ok n)
    {header : List ℕ} (hheader : mainHeaderPrefix params stepSizes = .ok header) :
    writeMarkers params tiles stepSizes = .ok (header ++
      ((if params.writePlm then plm else []) ++ (if params.writePpm then ppm else []) ++
        (if params.writeTlm then tiles.flatMap (tlmBytes params) else [])) ++
      tiles.flatMap (tilePartBytes params) ++ [0xFF, PacketMarkers.markers.EOC]) := by
  have hplmRun := Puts.optional hplm
  have hppmRun := Puts.optional hppm
  have htlmRun := Puts.optional (c := params.writeTlm) fun _ => writeTlmMarkers_puts htiles
  have hpartsRun := writeTileParts_puts htiles
  have hrun := hplmRun.bind (hppmRun.bind (htlmRun.bind (hpartsRun.bind
    (puts_append [0xFF, PacketMarkers.markers.EOC])))) header
  unfold writeMarkers
  rw [hheader]
  refine hrun.trans (congrArg Except.ok ?_)
  simp only [List.append_assoc]

/-- What the accounting of a codestream says: all of it is counted, and but for the main
header nothing keeps it from being written. -/
def Accounted (params : EncodeParams) (tiles : List TilePartData) (stepSizes : List (ℕ × ℕ))
    (total : ℕ) : Prop :=
  (∀ tile ∈ tiles, (tilePartBytes params tile).length < 2 ^ 32) ∧
  ∀ header, mainHeaderPrefix params stepSizes = .ok header → ∃ optional,
    writeMarkers params tiles stepSizes = .ok (header ++ optional ++
      tiles.flatMap (tilePartBytes params) ++ [0xFF, PacketMarkers.markers.EOC]) ∧
    total = header.length + optional.length +
      (tiles.flatMap (tilePartBytes params)).length + 2

theorem tileParts_lt {params : EncodeParams} {tiles : List TilePartData}
    (h : ∀ tile ∈ tiles, ∃ n, tilePartLen params tile = .ok n) :
    ∀ tile ∈ tiles, (tilePartBytes params tile).length < 2 ^ 32 := by
  intro tile htile
  obtain ⟨n, hn⟩ := h tile htile
  obtain ⟨-, hlen, hlt⟩ := tilePartLen_spec hn
  omega

theorem length_optional {α : Type} {l : List α} {n : ℕ} {c : Bool}
    (h : (c = true ∧ l.length = n) ∨ (c = false ∧ n = 0)) :
    (if c then l else []).length = n := by
  rcases h with ⟨rfl, h⟩ | ⟨rfl, rfl⟩
  · exact h
  · rfl

theorem tilePartsOutputLen_spec {params : EncodeParams} {tiles : List TilePartData}
    {stepSizes : List (ℕ × ℕ)} {total : ℕ}
    (h : tilePartsOutputLen params tiles stepSizes = .ok total) :
    Accounted params tiles stepSizes total := by
  unfold tilePartsOutputLen at h
  obtain ⟨main, hmain, h⟩ := bind_eq_ok.mp h
  obtain ⟨plm, hplm, h⟩ := bind_eq_ok.mp h
  obtain ⟨a, ha, h⟩ := bind_eq_ok.mp h
  obtain ⟨ppm, hppm, h⟩ := bind_eq_ok.mp h
  obtain ⟨b, hb, h⟩ := bind_eq_ok.mp h
  obtain ⟨tlm, htlm, h⟩ := bind_eq_ok.mp h
  obtain ⟨c, hc, h⟩ := bind_eq_ok.mp h
  obtain ⟨d, hd, h⟩ := bind_eq_ok.mp h
  obtain ⟨hsum, htiles⟩ := tileParts_total hd
  refine ⟨tileParts_lt htiles, fun header hheader => ?_⟩
  obtain ⟨plmBytes, hplmLen, hplmPuts⟩ : ∃ bytes : List ℕ,
      ((params.writePlm = true ∧ bytes.length = plm) ∨ (params.writePlm = false ∧ plm = 0)) ∧
      (params.writePlm = true → Puts (fun out => packetMarkers
        (writePlmMarkers out (tiles.map TilePartData.packetLengths))) bytes) := by
    rcases ok_of_optional hplm with ⟨hwrite, hplm⟩ | ⟨hwrite, hzero⟩
    · obtain ⟨bytes, hlen, hputs⟩ := plmMarkers_spec hplm
      exact ⟨bytes, .inl ⟨hwrite, hlen⟩, fun _ => hputs⟩
    · exact ⟨[], .inr ⟨hwrite, hzero⟩, fun hw => absurd (hw.symm.trans hwrite) (by decide)⟩
  obtain ⟨ppmBytes, hppmLen, hppmPuts⟩ : ∃ bytes : List ℕ,
      ((params.writePpm = true ∧ bytes.length = ppm) ∨ (params.writePpm = false ∧ ppm = 0)) ∧
      (params.writePpm = true → Puts (fun out => packetMarkers
        (writePpmMarkers out (tiles.map TilePartData.packetHeaders))) bytes) := by
    rcases ok_of_optional hppm with ⟨hwrite, hppm⟩ | ⟨hwrite, hzero⟩
    · obtain ⟨bytes, hlen, hputs⟩ := ppmMarkers_spec hppm
      exact ⟨bytes, .inl ⟨hwrite, hlen⟩, fun _ => hputs⟩
    · exact ⟨[], .inr ⟨hwrite, hzero⟩, fun hw => absurd (hw.symm.trans hwrite) (by decide)⟩
  have htlmLen : (if params.writeTlm then tiles.flatMap (tlmBytes params) else []).length =
      tlm := by
    refine length_optional ?_
    rcases ok_of_optional htlm with ⟨hwrite, htlm⟩ | ⟨hwrite, hzero⟩
    · exact .inl ⟨hwrite, (tlm_length params tiles).trans (checkedElementBytes_ok htlm).symm⟩
    · exact .inr ⟨hwrite, hzero⟩
  refine ⟨_, writeMarkers_puts plmBytes ppmBytes hplmPuts hppmPuts htiles hheader, ?_⟩
  rw [checkedAddBytes_ok h, hsum, checkedAddBytes_ok hc, checkedAddBytes_ok hb,
    checkedAddBytes_ok ha, ← mainHeaderPrefix_length hheader hmain, List.length_append,
    List.length_append, length_optional hplmLen, length_optional hppmLen, htlmLen]
  omega

/-- The shortcut for one tile-part without packet markers counts the same. -/
theorem singleTileOutputLen_spec {params : EncodeParams} {tile : TilePartData}
    {stepSizes : List (ℕ × ℕ)} {total : ℕ} (hplt : params.writePlt = false)
    (hplm : params.writePlm = false) (hppm : params.writePpm = false)
    (hppt : params.writePpt = false)
    (h : singleTileOutputLen params tile.data.length stepSizes = .ok total) :
    Accounted params [tile] stepSizes total := by
  unfold singleTileOutputLen at h
  by_cases hbound : tile.data.length + 14 ≥ 2 ^ 32
  · rw [if_pos hbound] at h
    cases h
  rw [if_neg hbound] at h
  obtain ⟨main, hmain, h⟩ := bind_eq_ok.mp h
  obtain ⟨a, ha, h⟩ := bind_eq_ok.mp h
  obtain ⟨b, hb, h⟩ := bind_eq_ok.mp h
  obtain ⟨c, hc, h⟩ := bind_eq_ok.mp h
  have hpart : tilePartLen params tile = .ok (14 + tile.data.length) := by
    have hfits : ∀ left right what, left + right < 2 ^ 32 →
        checkedAddBytes left right what = .ok (left + right) := fun left right what hlt => by
      unfold checkedAddBytes usizeMax
      rw [if_pos (by omega)]
    unfold tilePartLen
    rw [hplt, hppt, if_neg (by decide), if_neg (by decide), ok_bind, hfits _ _ _ (by omega),
      ok_bind, ok_bind, hfits _ _ _ (by omega), ok_bind, hfits _ _ _ (by omega), ok_bind,
      if_pos (by omega)]
  have htiles : ∀ t ∈ [tile], ∃ n, tilePartLen params t = .ok n := by
    intro t ht
    rw [List.mem_singleton.mp ht]
    exact ⟨_, hpart⟩
  refine ⟨tileParts_lt htiles, fun header hheader => ?_⟩
  refine ⟨_, writeMarkers_puts [] []
    (fun hw => absurd (hw.symm.trans hplm) (by decide))
    (fun hw => absurd (hw.symm.trans hppm) (by decide)) htiles hheader, ?_⟩
  have htlmLen : (if params.writeTlm then [tile].flatMap (tlmBytes params) else []).length + main =
      a := by
    rcases ok_of_optional ha with ⟨hwrite, ha⟩ | ⟨hwrite, hzero⟩
    · rw [hwrite, if_pos rfl, tlm_length, checkedAddBytes_ok ha, List.length_singleton]
      omega
    · rw [hwrite, hzero]
      exact Nat.zero_add _
  have hone : ([tile].flatMap (tilePartBytes params)).length = 14 + tile.data.length := by
    rw [List.flatMap_singleton, (tilePartLen_spec hpart).2.1]
  simp only [hplm, hppm, Bool.false_eq_true, if_false, List.nil_append]
  rw [checkedAddBytes_ok h, checkedAddBytes_ok hc, checkedAddBytes_ok hb, hone, ← htlmLen,
    ← mainHeaderPrefix_length hheader hmain]
  omega

theorem codestreamTilesOutputLen_spec {params : EncodeParams} {tiles : List TilePartData}
    {stepSizes : List (ℕ × ℕ)} {total : ℕ}
    (h : codestreamTilesOutputLen params tiles stepSizes = .ok total) :
    Accounted params tiles stepSizes total := by
  unfold codestreamTilesOutputLen at h
  split at h
  · split at h
    · rename_i hmarkers
      simp only [Bool.not_eq_true, Bool.or_eq_false_iff] at hmarkers
      obtain ⟨⟨⟨hplt, hplm⟩, hppm⟩, hppt⟩ := hmarkers
      exact singleTileOutputLen_spec hplt hplm hppm hppt h
    · exact tilePartsOutputLen_spec h
  · exact tilePartsOutputLen_spec h

/-! ## Psot -/

/-- Tile index and `Psot` of the SOT segment that begins the data. -/
def readSot (data : List ℕ) : Option (ℕ × ℕ) := do
  let (code, data) ← readMarker data
  if code ≠ PacketMarkers.markers.SOT then none
  else
    let (_, data) ← readU16 data
    let (tileIndex, data) ← readU16 data
    let (psot, _) ← readU32 data
    some (tileIndex, psot)

theorem readSot_sotMarker {tileIndex n : ℕ} (htile : tileIndex < 2 ^ 16) (hn : n + 2 < 2 ^ 32)
    (tilePartIndex numTileParts : ℕ) (rest : List ℕ) :
    readSot (sotMarker tileIndex n tilePartIndex numTileParts ++ rest) =
      some (tileIndex, n + 2) := by
  have hdata : sotMarker tileIndex n tilePartIndex numTileParts ++ rest =
      0xFF :: PacketMarkers.markers.SOT :: (beBytes16 10 ++ (beBytes16 tileIndex ++
        (beBytes32 (n + 2) ++ ([tilePartIndex, numTileParts] ++ rest)))) := by
    simp only [sotMarker, List.append_assoc, List.cons_append, List.nil_append]
  have hmarker : ∀ rest, readMarker (0xFF :: PacketMarkers.markers.SOT :: rest) =
      some (PacketMarkers.markers.SOT, rest) := fun _ => rfl
  unfold readSot
  rw [hdata, hmarker]
  dsimp only [Option.bind_eq_bind, Option.bind_some]
  rw [if_neg (by decide), readU16_beBytes (by decide), Option.bind_some]
  dsimp only
  rw [readU16_beBytes htile, Option.bind_some]
  dsimp only
  rw [readU32_beBytes hn, Option.bind_some]

/-- The tile-parts follow one another from `start 0` on, each as long as its `Psot` says, and
EOC stands behind the last. -/
def PsotExact (tiles : List TilePartData) (codestream : List ℕ) : Prop :=
  ∃ start : ℕ → ℕ, codestream.drop (start tiles.length) = [0xFF, PacketMarkers.markers.EOC] ∧
    ∀ i tile, tiles[i]? = some tile → start i < start (i + 1) ∧
      readSot (codestream.drop (start i)) = some (tile.tileIndex, start (i + 1) - start i)

theorem psotExact_of_tileParts {params : EncodeParams} {tiles : List TilePartData}
    (hlt : ∀ tile ∈ tiles, (tilePartBytes params tile).length < 2 ^ 32) (header : List ℕ) :
    PsotExact tiles (header ++ tiles.flatMap (tilePartBytes params) ++
      [0xFF, PacketMarkers.markers.EOC]) := by
  refine ⟨fun i => header.length + ((tiles.take i).flatMap (tilePartBytes params)).length,
    ?_, fun i tile htile => ?_⟩
  · dsimp only
    rw [List.take_length, ← List.length_append, List.drop_left]
  · obtain ⟨hi, hget⟩ := List.getElem?_eq_some_iff.mp htile
    have hsplit : tiles = tiles.take i ++ tile :: tiles.drop (i + 1) := by
      rw [← hget, List.cons_getElem_drop_succ, List.take_append_drop]
    have hlen := tilePartBytes_length params tile
    have hnext : ((tiles.take (i + 1)).flatMap (tilePartBytes params)).length =
        ((tiles.take i).flatMap (tilePartBytes params)).length +
          (tilePartBytes params tile).length := by
      rw [List.take_add_one, htile, List.flatMap_append, List.length_append]
      simp only [Option.toList_some, List.flatMap_singleton]
    have hbound := hlt tile (List.mem_of_getElem? htile)
    have hdrop : (header ++ tiles.flatMap (tilePartBytes params) ++
        [0xFF, PacketMarkers.markers.EOC]).drop
          (header.length + ((tiles.take i).flatMap (tilePartBytes params)).length) =
        tilePartBytes params tile ++ ((tiles.drop (i + 1)).flatMap (tilePartBytes params) ++
          [0xFF, PacketMarkers.markers.EOC]) := by
      have hparts : tiles.flatMap (tilePartBytes params) =
          (tiles.take i).flatMap (tilePartBytes params) ++ (tilePartBytes params tile ++
            (tiles.drop (i + 1)).flatMap (tilePartBytes params)) := by
        conv_lhs => rw [hsplit]
        rw [List.flatMap_append, List.flatMap_cons]
      rw [hparts, ← List.length_append, ← List.append_assoc header, List.append_assoc (header ++ _),
        List.drop_left, List.append_assoc]
    have hread := readSot_sotMarker tile.tileIndex_lt (n := 10 + (tilePartBody params tile).length)
      (by omega) tile.tilePartIndex tile.numTileParts (tilePartBody params tile ++
        ((tiles.drop (i + 1)).flatMap (tilePartBytes params) ++
          [0xFF, PacketMarkers.markers.EOC]))
    rw [← List.append_assoc, ← tilePartBytes, ← hdrop] at hread
    dsimp only
    rw [hread, hnext]
    exact ⟨by omega, congrArg (fun n => some (tile.tileIndex, n)) (by omega)⟩

/-! ## The length check never fails -/

theorem checkedAddBytes_ne {left right : ℕ} {what : String} :
    checkedAddBytes left right what ≠ .error lengthMismatch := by
  unfold checkedAddBytes
  split_ifs <;> exact nofun

theorem checkedElementBytes_ne {count size : ℕ} {what : String} :
    checkedElementBytes count size what ≠ .error lengthMismatch := by
  unfold checkedElementBytes
  split_ifs <;> exact nofun

theorem packetMarkers_ne {α : Type} (result : Except String α) :
    packetMarkers result ≠ .error lengthMismatch := by
  cases result with
  | ok a => exact nofun
  | error what =>
      intro h
      have herror : packetMarkerError what = lengthMismatch := Except.error.inj h
      unfold packetMarkerError lengthMismatch at herror
      split_ifs at herror with hvalidated
      have hwhat := EncodeError.internalInvariant.inj herror
      rw [hwhat] at hvalidated
      exact absurd hvalidated (by decide)

theorem optional_ne {α : Type} {c : Prop} [Decidable c] {x : Except EncodeError α} {a : α}
    (h : x ≠ .error lengthMismatch) : (if c then x else .ok a) ≠ .error lengthMismatch := by
  split_ifs
  · exact h
  · exact nofun

theorem quantizationMarkerBytes_ne {reversible : Bool} {stepCount componentBytes : ℕ}
    {what : String} : quantizationMarkerBytes reversible stepCount componentBytes what ≠
      .error lengthMismatch := by
  unfold quantizationMarkerBytes
  dsimp only
  split_ifs <;> exact nofun

theorem mainHeaderPrefixLen_ne (params : EncodeParams) (stepSizes : List (ℕ × ℕ)) :
    mainHeaderPrefixLen params stepSizes ≠ .error lengthMismatch := by
  have hqcc : ∀ bytes steps, addQccBytes params bytes steps ≠ .error lengthMismatch :=
    fun bytes steps => by
      unfold addQccBytes
      split_ifs
      · exact nofun
      · exact bind_ne_error quantizationMarkerBytes_ne fun _ => checkedAddBytes_ne
  have hrgn : ∀ bytes shift, addRgnBytes params bytes shift ≠ .error lengthMismatch :=
    fun _ _ => optional_ne checkedAddBytes_ne
  have hprecincts : (if params.precinctExponents.length + 12 < 2 ^ 16
      then .ok params.precinctExponents.length
      else .error (.invalidInput
        "codestream precinct exponent count exceeds COD marker capacity")) ≠
      (.error lengthMismatch : Except EncodeError ℕ) := by
    split_ifs <;> exact nofun
  unfold mainHeaderPrefixLen
  exact bind_ne_error checkedElementBytes_ne fun _ => bind_ne_error checkedAddBytes_ne fun _ =>
    bind_ne_error checkedAddBytes_ne fun _ => bind_ne_error (optional_ne checkedAddBytes_ne)
    fun _ => bind_ne_error hprecincts fun _ => bind_ne_error checkedAddBytes_ne fun _ =>
    bind_ne_error checkedAddBytes_ne fun _ => bind_ne_error quantizationMarkerBytes_ne fun _ =>
    bind_ne_error checkedAddBytes_ne fun _ => bind_ne_error (foldlM_ne_error hqcc _ _) fun _ =>
    foldlM_ne_error hrgn _ _

theorem tilePartLen_ne (params : EncodeParams) (tile : TilePartData) :
    tilePartLen params tile ≠ .error lengthMismatch := by
  unfold tilePartLen
  refine bind_ne_error (optional_ne (packetMarkers_ne _)) fun _ =>
    bind_ne_error checkedAddBytes_ne fun _ => bind_ne_error (optional_ne (packetMarkers_ne _))
    fun _ => bind_ne_error checkedAddBytes_ne fun _ => bind_ne_error checkedAddBytes_ne
    fun _ => ?_
  split_ifs <;> exact nofun

theorem ppmMarkerBytes_ne (tiles : List TilePartData) :
    ppmMarkerBytes tiles ≠ .error lengthMismatch := by
  unfold ppmMarkerBytes
  split_ifs
  · exact nofun
  · exact bind_ne_error (packetMarkers_ne _) fun _ =>
      foldlM_ne_error (fun _ _ => checkedAddBytes_ne) _ _

theorem codestreamTilesOutputLen_ne (params : EncodeParams) (tiles : List TilePartData)
    (stepSizes : List (ℕ × ℕ)) :
    codestreamTilesOutputLen params tiles stepSizes ≠ .error lengthMismatch := by
  have hsingle : ∀ n, singleTileOutputLen params n stepSizes ≠ .error lengthMismatch :=
    fun n => by
      unfold singleTileOutputLen
      split_ifs
      · exact nofun
      · exact bind_ne_error (mainHeaderPrefixLen_ne _ _) fun _ =>
          bind_ne_error checkedAddBytes_ne fun _ => bind_ne_error checkedAddBytes_ne fun _ =>
          bind_ne_error checkedAddBytes_ne fun _ => checkedAddBytes_ne
      · exact bind_ne_error (mainHeaderPrefixLen_ne _ _) fun _ =>
          bind_ne_error nofun fun _ => bind_ne_error checkedAddBytes_ne fun _ =>
          bind_ne_error checkedAddBytes_ne fun _ => checkedAddBytes_ne
  have hparts : tilePartsOutputLen params tiles stepSizes ≠ .error lengthMismatch := by
    have htile : ∀ bytes tile, (do
        checkedAddBytes bytes (← tilePartLen params tile) "codestream tile-part bytes") ≠
          (.error lengthMismatch : Except EncodeError ℕ) :=
      fun bytes tile => bind_ne_error (tilePartLen_ne _ _) fun _ => checkedAddBytes_ne
    unfold tilePartsOutputLen
    exact bind_ne_error (mainHeaderPrefixLen_ne _ _) fun _ =>
      bind_ne_error (optional_ne (packetMarkers_ne _)) fun _ =>
      bind_ne_error checkedAddBytes_ne fun _ =>
      bind_ne_error (optional_ne (ppmMarkerBytes_ne _)) fun _ =>
      bind_ne_error checkedAddBytes_ne fun _ =>
      bind_ne_error (optional_ne checkedElementBytes_ne) fun _ =>
      bind_ne_error checkedAddBytes_ne fun _ =>
      bind_ne_error (foldlM_ne_error htile _ _) fun _ => checkedAddBytes_ne
  unfold codestreamTilesOutputLen
  split
  · split
    · exact hsingle _
    · exact hparts
  · exact hparts

/-- What was accounted for is written in full, so the length cannot differ. -/
theorem writeCodestreamTiles_ne (allocator : Allocator)
    {checkWriterPeak : ℕ → ℕ → Except EncodeError Unit} {params : EncodeParams}
    {tiles : List TilePartData} {stepSizes : List (ℕ × ℕ)}
    (hcheck : ∀ call bytes, checkWriterPeak call bytes ≠ .error lengthMismatch) :
    writeCodestreamTiles allocator checkWriterPeak params tiles stepSizes ≠
      .error lengthMismatch := by
  unfold writeCodestreamTiles
  cases hlen : codestreamTilesOutputLen params tiles stepSizes with
  | error e =>
      intro h
      have herror : e = lengthMismatch := Except.error.inj h
      exact codestreamTilesOutputLen_ne params tiles stepSizes (hlen.trans (by rw [herror]))
  | ok outputLen =>
      rw [ok_bind]
      refine bind_ne_error (hcheck 0 outputLen) fun _ => ?_
      cases hreserve : allocator.reserve outputLen with
      | none => exact nofun
      | some capacity =>
          dsimp only
          rw [ok_bind]
          refine bind_ne_error (hcheck 1 capacity) fun _ => ?_
          cases hheader : mainHeaderPrefix params stepSizes with
          | error what =>
              unfold writeMarkers
              rw [hheader]
              exact nofun
          | ok header =>
              obtain ⟨optional, hrun, htotal⟩ :=
                (codestreamTilesOutputLen_spec hlen).2 header hheader
              have hbytes : (header ++ optional ++ tiles.flatMap (tilePartBytes params) ++
                  [0xFF, PacketMarkers.markers.EOC]).length = outputLen := by
                rw [htotal, List.length_append, List.length_append, List.length_append]
                rfl
              have hfits := allocator.le_reserve outputLen capacity hreserve
              rw [hrun, ok_bind, hbytes, if_pos hfits, if_neg (by simp)]
              exact nofun

/-- The computed length is that of the codestream, every `Psot` spans its tile-part, and
only the caller's own check can report a length mismatch. -/
theorem codestream_length_accounted (allocator : Allocator)
    (checkWriterPeak : ℕ → ℕ → Except EncodeError Unit) (params : EncodeParams)
    (tiles : List TilePartData) (stepSizes : List (ℕ × ℕ)) :
    (∀ accounted, writeCodestreamTiles allocator checkWriterPeak params tiles stepSizes =
        .ok accounted →
      codestreamTilesOutputLen params tiles stepSizes = .ok accounted.codestream.length ∧
        PsotExact tiles accounted.codestream) ∧
    (writeCodestreamTiles allocator checkWriterPeak params tiles stepSizes =
        .error lengthMismatch →
      ∃ call bytes, checkWriterPeak call bytes = .error lengthMismatch) := by
  unfold writeCodestreamTiles
  constructor
  · intro accounted h
    obtain ⟨outputLen, hlen, h⟩ := bind_eq_ok.mp h
    obtain ⟨-, -, h⟩ := bind_eq_ok.mp h
    obtain ⟨capacity, -, h⟩ := bind_eq_ok.mp h
    obtain ⟨-, -, h⟩ := bind_eq_ok.mp h
    obtain ⟨out, hout, h⟩ := bind_eq_ok.mp h
    obtain ⟨htiles, hwrites⟩ := codestreamTilesOutputLen_spec hlen
    obtain ⟨header, hheader, hrest⟩ := bind_eq_ok.mp hout
    have hheader := mapError_eq_ok.mp hheader
    obtain ⟨optional, hrun, htotal⟩ := hwrites header hheader
    have hbytes := Except.ok.inj (hout.symm.trans hrun)
    by_cases hsame : out.length = outputLen
    · dsimp only at h
      generalize (if out.length ≤ capacity then capacity else out.length) = grown at h
      split at h
      · cases h
      · rw [← Except.ok.inj h]
        refine ⟨hlen.trans (congrArg Except.ok hsame.symm), ?_⟩
        rw [hbytes]
        exact psotExact_of_tileParts htiles _
    · rw [if_pos (.inl hsame)] at h
      cases h
  · intro h
    by_contra hnone
    refine writeCodestreamTiles_ne allocator ?_ h
    exact fun call bytes hcheck => hnone ⟨call, bytes, hcheck⟩

/-- One tile-part with a PLT segment. -/
theorem codestream_length_accounted_plt :
    ∃ (allocator : Allocator) (params : EncodeParams) (tile : TilePartData)
      (accounted : AccountedCodestream),
      writeCodestreamTiles allocator (fun _ _ => .ok ()) params [tile] [(8, 0)] = .ok accounted ∧
      codestreamTilesOutputLen params [tile] [(8, 0)] = .ok accounted.codestream.length ∧
      PsotExact [tile] accounted.codestream := by
  let allocator : Allocator := ⟨some, fun _ _ h => le_of_eq (Option.some.inj h)⟩
  let params : EncodeParams :=
    { EncodeParams.default with width := 1, height := 1, writePlt := true }
  let tile : TilePartData :=
    ⟨0, 0, 1, [1, 2], [2], [], by decide, by decide, by decide, by decide⟩
  have hrun : writeCodestreamTiles allocator (fun _ _ => .ok ()) params [tile] [(8, 0)] = .ok
      ⟨[255, 79, 255, 81, 0, 41, 0, 0, 0, 0, 0, 1, 0, 0, 0, 1, 0, 0, 0, 0, 0, 0, 0, 0, 0, 0, 0, 1,
        0, 0, 0, 1, 0, 0, 0, 0, 0, 0, 0, 0, 0, 1, 7, 1, 1, 255, 82, 0, 12, 0, 0, 0, 1, 0, 5, 4, 4,
        0, 1, 255, 92, 0, 4, 32, 64, 255, 144, 0, 10, 0, 0, 0, 0, 0, 22, 0, 1, 255, 88, 0, 4, 0, 2,
        255, 147, 1, 2, 255, 217], 89⟩ := by decide +kernel
  exact ⟨allocator, params, tile, _, hrun,
    (codestream_length_accounted allocator _ params [tile] [(8, 0)]).1 _ hrun⟩

end J2kNative.CodestreamAccounting
