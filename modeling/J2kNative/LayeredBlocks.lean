import J2kNative.ClassicBlockRoundTrip
import J2kNative.LayeredPackets
import J2kNative.PacketContributions

/-!
# Blocks in quality layers

A block whose passes are terminated one by one is told over the layers, a run of its segments with
each. Behind all layers the decoder finds the segments of the encoder again and makes the
coefficients of them.
-/
namespace J2kNative.LayeredPackets
open Fallible PacketAssembly PacketParsing ClassicEncoder
open HtContributions (Segment)
open PayloadPlan (EncodedCodeBlock EncodedSegment)

/-! ## Segments of stored layers -/

/-- The state of the loop of `decode_inner` over the segments of all layers: the segments that are
complete and the current one, each with its data and its passes. -/
structure LayerRun where
  lastSegmentIdx : ℕ
  codingPasses : ℕ
  complete : List (List ℕ × ℕ)
  current : List ℕ × ℕ
  deriving DecidableEq, Repr

def advanceSegment (s : LayerRun) (idx : ℕ) : Option LayerRun :=
  if idx = s.lastSegmentIdx then some s
  else if s.lastSegmentIdx + 1 ≠ idx then none
  else some ⟨idx,s.codingPasses,s.complete ++ [s.current],([],0)⟩

/-- One turn of the loop. -/
def addLayerSegment (s : LayerRun) (segment : Segment × List ℕ) : Option LayerRun := do
  let s ← advanceSegment s segment.1.idx
  if s.codingPasses + segment.1.codingPasses ≥ 256 then none
  else some { s with
    codingPasses := s.codingPasses + segment.1.codingPasses
    current := (s.current.1 ++ segment.2,s.current.2 + segment.1.codingPasses) }

def segmentsOfLayers (layers : List (Option (List (Segment × List ℕ)))) :
    Option (List (List ℕ × ℕ)) := do
  let s ← (layers.filterMap id).flatten.foldlM addLayerSegment ⟨0,0,[],([],0)⟩
  some (s.complete ++ [s.current])

/-- The coefficients that a decoder makes of a stored block. It leaves out blocks that no packet
included, whose coefficients stay zero. -/
def blockCoefficients (c : BlockContents) (width height totalBitplanes : ℕ)
    (subBandType : TileTree.SubBandType) (style : ClassicDecoder.CodeBlockStyle) (strict : Bool) :
    Except ClassicDecoder.DecodingError (ℕ → ℕ → ℤ) :=
  if !c.included then .ok fun _ _ => 0
  else match segmentsOfLayers c.layers with
    | none => do
        let _ ← ClassicDecoder.resetForJob width height c.missingBitPlanes c.numberOfCodingPasses
          subBandType style totalBitplanes strict
        .error .codeBlockDecodeFailure
    | some segments => do
        let ctx ← ClassicDecoder.decode segments width height c.missingBitPlanes
          c.numberOfCodingPasses totalBitplanes subBandType style strict
        .ok fun x y => ClassicDecoder.getI64 (ctx.coefficients ((y + 1) * (width + 2) + (x + 1)))

/-! ## Segments of one pass -/

/-- Segments of one pass each, from a pass on. -/
def OnePass : ℕ → List EncodedSegment → Prop
  | _, [] => True
  | codingPass, segment :: segments =>
      segment.startCodingPass = codingPass ∧ segment.endCodingPass = codingPass + 1 ∧
        OnePass (codingPass + 1) segments

/-- The segments as the packets tell them and bring their data. -/
def storedSegments (data : List ℕ) : ℕ → List EncodedSegment → List (Segment × List ℕ)
  | _, [] => []
  | codingPass, segment :: segments =>
      (⟨codingPass,1,segment.dataLength⟩,(sliceSegment data segment).data) ::
        storedSegments data (codingPass + 1) segments

section
variable {data : List ℕ} {segments segments' : List EncodedSegment} {codingPass : ℕ}

theorem onePass_append : OnePass codingPass (segments ++ segments') ↔
    OnePass codingPass segments ∧ OnePass (codingPass + segments.length) segments' := by
  induction segments generalizing codingPass with
  | nil => simp [OnePass]
  | cons segment segments ih =>
      simp only [List.cons_append,OnePass,ih,List.length_cons,and_assoc]
      rw [Nat.add_right_comm,Nat.add_assoc codingPass]

theorem storedSegments_append : storedSegments data codingPass (segments ++ segments') =
    storedSegments data codingPass segments ++
      storedSegments data (codingPass + segments.length) segments' := by
  induction segments generalizing codingPass with
  | nil => simp [storedSegments]
  | cons segment segments ih =>
      simp only [List.cons_append,storedSegments,ih,List.length_cons]
      rw [Nat.add_right_comm,Nat.add_assoc codingPass]

theorem OnePass.sum (h : OnePass codingPass segments) :
    (segments.map fun segment => segment.endCodingPass - segment.startCodingPass).sum =
      segments.length := by
  induction segments generalizing codingPass with
  | nil => rfl
  | cons segment segments ih =>
      obtain ⟨hstart,hstop,hrest⟩ := h
      rw [List.map_cons,List.sum_cons,ih hrest,hstart,hstop,List.length_cons]
      omega

/-- Under termination on each pass a segment holds one pass. -/
theorem onePass_of_contiguous {b : CodeBlock} (hterminated : b.style.terminationOnEachPass = true)
    {start stop : ℕ} (h : Contiguous start (segments.map (sliceSegment data)) stop)
    (hshared : ∀ segment ∈ segments, segment.startCodingPass < segment.endCodingPass ∧
      ∀ p, segment.startCodingPass ≤ p → p < segment.endCodingPass →
        ClassicSegments.segmentIndex b.cutStyle p =
          ClassicSegments.segmentIndex b.cutStyle segment.startCodingPass) :
    OnePass start segments ∧ stop = start + segments.length := by
  induction segments generalizing start with
  | nil => exact ⟨trivial,h.symm⟩
  | cons segment segments ih =>
      obtain ⟨hstart,hle,hrest⟩ := h
      obtain ⟨⟨hlt,hsame⟩,hshared⟩ := List.forall_mem_cons.mp hshared
      have hstop : segment.endCodingPass = segment.startCodingPass + 1 := by
        by_contra hne
        have := hsame (segment.startCodingPass + 1) (Nat.le_succ _) (by omega)
        simp [ClassicSegments.segmentIndex,CodeBlock.cutStyle,hterminated] at this
      have hstart : segment.startCodingPass = start := hstart
      have hrest : Contiguous segment.endCodingPass (segments.map (sliceSegment data)) stop := hrest
      obtain ⟨hone,hcount⟩ := ih hrest hshared
      rw [hstop,hstart] at hone hcount
      refine ⟨⟨hstart,hstop.trans (by rw [hstart]),hone⟩,?_⟩
      rw [hcount,List.length_cons]
      omega

/-! ## Runs over the stored segments -/

/-- The loop over stored segments behind a first one. -/
theorem addLayerSegment_stored {complete : List (List ℕ × ℕ)} {current : List ℕ × ℕ}
    (hroom : codingPass + 1 + segments.length < 256) :
    ∃ s, (storedSegments data (codingPass + 1) segments).foldlM addLayerSegment
        ⟨codingPass,codingPass + 1,complete,current⟩ = some s ∧ s.complete ++ [s.current] =
      complete ++ current :: segments.map fun s => ((sliceSegment data s).data,1) := by
  induction segments generalizing codingPass complete current with
  | nil => exact ⟨_,rfl,rfl⟩
  | cons segment segments ih =>
      rw [List.length_cons] at hroom
      have hstep : addLayerSegment ⟨codingPass,codingPass + 1,complete,current⟩
          (⟨codingPass + 1,1,segment.dataLength⟩,(sliceSegment data segment).data) =
          some ⟨codingPass + 1,codingPass + 1 + 1,complete ++ [current],
            ((sliceSegment data segment).data,1)⟩ := by
        unfold addLayerSegment advanceSegment
        simp
        omega
      obtain ⟨s,hrun,hs⟩ := @ih (codingPass + 1) (complete ++ [current])
        ((sliceSegment data segment).data,1) (by omega)
      refine ⟨s,?_,?_⟩
      · rw [storedSegments,List.foldlM_cons,hstep]
        exact hrun
      · rw [hs,List.append_assoc]
        rfl

/-- The segments of all layers are those of the encoder. -/
theorem segmentsOfLayers_stored {layers : List (Option (List (Segment × List ℕ)))}
    (hlayers : (layers.filterMap id).flatten = storedSegments data 0 segments)
    (hne : segments ≠ []) (hroom : segments.length < 256) :
    segmentsOfLayers layers = some (segments.map fun s => ((sliceSegment data s).data,1)) := by
  obtain ⟨segment,segments,rfl⟩ := List.exists_cons_of_ne_nil hne
  rw [List.length_cons] at hroom
  have hfirst : addLayerSegment ⟨0,0,[],([],0)⟩
      (⟨0,1,segment.dataLength⟩,(sliceSegment data segment).data) =
      some ⟨0,0 + 1,[],((sliceSegment data segment).data,1)⟩ := by
    unfold addLayerSegment advanceSegment
    simp
  obtain ⟨s,hrun,hs⟩ := @addLayerSegment_stored data segments 0 []
    ((sliceSegment data segment).data,1) (by omega)
  unfold segmentsOfLayers
  rw [hlayers,storedSegments,List.foldlM_cons,hfirst]
  simp only [Option.bind_eq_bind,Option.bind_some]
  rw [hrun,Option.bind_some,hs]
  rfl

end

/-! ## Layers of segments in order -/

section
variable {α : Type} {zs : List (α × ℕ)}

/-- What has the least key comes first in a list in order of its keys. -/
theorem filter_append_filter_not {first : ℕ} (hsorted : zs.Pairwise fun z z' => z.2 ≤ z'.2)
    (hle : ∀ z ∈ zs, first ≤ z.2) :
    zs.filter (fun z => z.2 = first) ++ zs.filter (fun z => z.2 ≠ first) = zs := by
  induction zs with
  | nil => rfl
  | cons z zs ih =>
      obtain ⟨hz,hsorted⟩ := List.pairwise_cons.mp hsorted
      obtain ⟨hfirst,hle⟩ := List.forall_mem_cons.mp hle
      by_cases hsame : z.2 = first
      · rw [List.filter_cons_of_pos (by simpa using hsame),
          List.filter_cons_of_neg (by simpa using hsame),List.cons_append,ih hsorted hle]
      · have hlater : ∀ z' ∈ zs, z'.2 ≠ first := fun z' hz' => by
          have := hz z' hz'
          omega
        rw [List.filter_cons_of_neg (by simpa using hsame),
          List.filter_cons_of_pos (by simpa using hsame),
          List.filter_eq_nil_iff.mpr (by simpa using hlater),
          List.filter_eq_self.mpr (by simpa using hlater),List.nil_append]

/-- A list in order of its keys, key after key. -/
theorem flatMap_filter_range' {k first : ℕ} (hsorted : zs.Pairwise fun z z' => z.2 ≤ z'.2)
    (hbetween : ∀ z ∈ zs, first ≤ z.2 ∧ z.2 < first + k) :
    (List.range' first k).flatMap (fun l => zs.filter fun z => z.2 = l) = zs := by
  induction k generalizing first zs with
  | zero =>
      have hnil : zs = [] := List.eq_nil_iff_forall_not_mem.mpr fun z hz => by
        have := hbetween z hz
        omega
      rw [hnil]
      rfl
  | succ k ih =>
      have hrest : (List.range' (first + 1) k).flatMap (fun l => zs.filter fun z => z.2 = l) =
          zs.filter fun z => z.2 ≠ first := by
        rw [← @ih (zs.filter fun z => z.2 ≠ first) (first + 1) (hsorted.filter _) fun z hz => by
          obtain ⟨hz,hne⟩ := List.mem_filter.mp hz
          have := hbetween z hz
          have := of_decide_eq_true hne
          omega]
        refine List.flatMap_congr fun l hl => ?_
        rw [List.filter_filter]
        refine List.filter_congr fun z _ => ?_
        have := (List.mem_range'_1.mp hl).1
        by_cases hz : z.2 = l
        · simp [hz]
          omega
        · simp [hz]
      rw [List.range'_succ,List.flatMap_cons,hrest]
      exact filter_append_filter_not hsorted fun z hz => (hbetween z hz).1

end

section
variable {encoded : EncodedCodeBlock} {segmentLayers : List ℕ}

/-- Segments whose layers are in order are told layer after layer. -/
theorem segmentsOfLayer_flatMap {numLayers : ℕ}
    (hlength : segmentLayers.length = encoded.segments.length)
    (hsorted : segmentLayers.Pairwise (· ≤ ·)) (hlt : ∀ layer ∈ segmentLayers, layer < numLayers) :
    (List.range numLayers).flatMap (segmentsOfLayer encoded segmentLayers) = encoded.segments := by
  have hsecond : (encoded.segments.zip segmentLayers).map Prod.snd = segmentLayers :=
    List.map_snd_zip hlength.le
  have hzip : (encoded.segments.zip segmentLayers).Pairwise fun z z' => z.2 ≤ z'.2 :=
    List.pairwise_map.mp (hsecond.symm ▸ hsorted)
  have hall := @flatMap_filter_range' _ _ numLayers 0 hzip fun z hz => by
    have := hlt z.2 (hsecond ▸ List.mem_map_of_mem hz)
    omega
  have hmap := congrArg (List.map Prod.fst) hall
  rw [List.map_flatMap,List.map_fst_zip hlength.ge] at hmap
  rw [List.range_eq_range']
  exact hmap

end

/-! ## Contents behind some layers -/

def LayeredPreparedBlock.segments (block : LayeredPreparedBlock) (layer : ℕ) : List EncodedSegment :=
  segmentsOfLayer block.encoded block.segmentLayers layer

/-- The passes of the layers before a layer. -/
def LayeredPreparedBlock.passesBefore (block : LayeredPreparedBlock) (layer : ℕ) : ℕ :=
  ((List.range layer).flatMap block.segments).length

/-- What a decoder holds of the block behind the layers before a layer. -/
def LayeredPreparedBlock.contents (block : LayeredPreparedBlock) (numLayers layer : ℕ) :
    BlockContents :=
  ⟨decide (0 < block.passesBefore layer),
    if 0 < block.passesBefore layer then block.encoded.numZeroBitplanes else 0,
    block.passesBefore layer,((List.range layer).filter fun l => block.segments l ≠ []).length,
    (List.range numLayers).map fun l => if l < layer ∧ block.segments l ≠ [] then
      some (storedSegments block.encoded.data (block.passesBefore l) (block.segments l)) else none⟩

/-- A block of terminated passes whose layers are in order. -/
structure LayeredPreparedBlock.Terminated (block : LayeredPreparedBlock) (numLayers : ℕ) : Prop where
  one : OnePass 0 block.encoded.segments
  inside : ∀ segment ∈ block.encoded.segments,
    segment.dataOffset + segment.dataLength ≤ block.encoded.data.length
  count : block.encoded.segments.length ≤ HtContributions.maxCodingPasses
  zeros : block.encoded.numZeroBitplanes ≤ 255
  sorted : block.segmentLayers.Pairwise (· ≤ ·)
  assigned : block.Assigned numLayers

section
variable {block : LayeredPreparedBlock} {numLayers layer : ℕ}

theorem passesBefore_succ (block : LayeredPreparedBlock) (layer : ℕ) :
    block.passesBefore (layer + 1) = block.passesBefore layer + (block.segments layer).length := by
  unfold LayeredPreparedBlock.passesBefore
  rw [List.range_succ,List.flatMap_append,List.length_append,List.flatMap_singleton]

theorem filter_lt_succ {α : Type} (zs : List (α × ℕ)) (layer : ℕ) :
    (zs.filter fun z => z.2 < layer + 1).length =
      (zs.filter fun z => z.2 < layer).length + (zs.filter fun z => z.2 = layer).length := by
  induction zs with
  | nil => rfl
  | cons z zs ih =>
      rw [List.filter_cons,List.filter_cons,List.filter_cons]
      rcases Nat.lt_trichotomy z.2 layer with h | h | h
      · rw [if_pos (decide_eq_true (Nat.lt_succ_of_lt h)),if_pos (decide_eq_true h),
          if_neg (by simpa using h.ne),List.length_cons,List.length_cons,ih]
        omega
      · rw [if_pos (decide_eq_true (by omega)),if_neg (by simpa using h.ge),
          if_pos (decide_eq_true h),List.length_cons,List.length_cons,ih]
        omega
      · rw [if_neg (by simpa using Nat.succ_le_of_lt h),if_neg (by simpa using h.le),
          if_neg (by simpa using h.ne'),ih]

theorem passesBefore_eq (block : LayeredPreparedBlock) (layer : ℕ) : block.passesBefore layer =
    ((block.encoded.segments.zip block.segmentLayers).filter fun z => z.2 < layer).length := by
  induction layer with
  | zero => simp [LayeredPreparedBlock.passesBefore]
  | succ layer ih =>
      rw [passesBefore_succ,ih,filter_lt_succ]
      simp [LayeredPreparedBlock.segments,segmentsOfLayer]

theorem filter_length_succ (block : LayeredPreparedBlock) (layer : ℕ) :
    ((List.range (layer + 1)).filter fun l => block.segments l ≠ []).length =
      ((List.range layer).filter fun l => block.segments l ≠ []).length +
        if block.segments layer = [] then 0 else 1 := by
  rw [List.range_succ,List.filter_append,List.length_append]
  by_cases h : block.segments layer = [] <;> simp [h]

/-- Every layer with data brings a pass. -/
theorem filter_length_le (block : LayeredPreparedBlock) (layer : ℕ) :
    ((List.range layer).filter fun l => block.segments l ≠ []).length ≤ block.passesBefore layer := by
  induction layer with
  | zero => exact Nat.zero_le _
  | succ layer ih =>
      rw [filter_length_succ,passesBefore_succ]
      split_ifs with h
      · omega
      · have := List.length_pos_iff.mpr h
        omega

theorem segments_split (h : block.Terminated numLayers) (hlt : layer < numLayers) :
    ∃ rest, block.encoded.segments =
      (List.range layer).flatMap block.segments ++ (block.segments layer ++ rest) := by
  have hall := segmentsOfLayer_flatMap h.assigned.1 h.sorted h.assigned.2
  have hrange : List.range numLayers =
      List.range layer ++ layer :: List.range' (layer + 1) (numLayers - layer - 1) := by
    rw [List.range_eq_range',List.range_eq_range',← List.range'_succ]
    have happend := @List.range'_append_1 0 layer (numLayers - layer - 1 + 1)
    rw [Nat.zero_add] at happend
    rw [happend]
    congr 1
    omega
  rw [hrange,List.flatMap_append,List.flatMap_cons] at hall
  exact ⟨_,hall.symm⟩

/-- The segments of a layer hold one pass each, from the passes before it on. -/
theorem LayeredPreparedBlock.Terminated.onePass (h : block.Terminated numLayers)
    (hlt : layer < numLayers) : OnePass (block.passesBefore layer) (block.segments layer) := by
  obtain ⟨rest,hsplit⟩ := segments_split h hlt
  have hone := h.one
  rw [hsplit,onePass_append,onePass_append,Nat.zero_add] at hone
  exact hone.2.1

theorem LayeredPreparedBlock.Terminated.room (h : block.Terminated numLayers)
    (hlt : layer < numLayers) :
    block.passesBefore layer + (block.segments layer).length ≤ HtContributions.maxCodingPasses := by
  obtain ⟨rest,hsplit⟩ := segments_split h hlt
  have hcount := h.count
  rw [hsplit,List.length_append,List.length_append] at hcount
  unfold LayeredPreparedBlock.passesBefore
  omega

theorem LayeredPreparedBlock.Terminated.inside_layer (h : block.Terminated numLayers)
    (hlt : layer < numLayers) : ∀ segment ∈ block.segments layer,
      segment.dataOffset + segment.dataLength ≤ block.encoded.data.length := by
  obtain ⟨rest,hsplit⟩ := segments_split h hlt
  intro segment hmem
  apply h.inside
  rw [hsplit]
  exact List.mem_append_right _ (List.mem_append_left _ hmem)

theorem segmentRuns_identity (start n : ℕ) :
    segmentRuns (fun p => p) start n = (List.range' start n).map fun p => (p,1) := by
  induction n generalizing start with
  | zero => rfl
  | succ n ih =>
      rw [segmentRuns,ih,List.range'_succ,List.map_cons]
      cases n with
      | zero => rfl
      | succ n =>
          rw [List.range'_succ,List.map_cons]
          exact if_neg (by omega)

/-- What is told and brought of segments of one pass. -/
theorem zip_cutData {data : List ℕ} {segments : List EncodedSegment} {start : ℕ}
    (hinside : ∀ segment ∈ segments, segment.dataOffset + segment.dataLength ≤ data.length) :
    (segmentsOfRuns ((List.range' start segments.length).map fun p => (p,1))
        (segments.map (·.dataLength))).zip
      (cutData (segments.map (·.dataLength))
        (segments.flatMap fun segment => (sliceSegment data segment).data)) =
      storedSegments data start segments := by
  induction segments generalizing start with
  | nil => rfl
  | cons segment segments ih =>
      obtain ⟨hfirst,hinside⟩ := List.forall_mem_cons.mp hinside
      have hlength : (sliceSegment data segment).data.length = segment.dataLength := by
        simp [sliceSegment]
        omega
      rw [List.length_cons,List.range'_succ,List.map_cons,List.map_cons,List.flatMap_cons,cutData,
        ← hlength,List.take_left,List.drop_left,hlength]
      unfold segmentsOfRuns at ih ⊢
      rw [List.zipWith_cons_cons,List.zip_cons_cons,ih hinside]
      rfl

theorem contents_layer (h : layer < numLayers) :
    (block.contents numLayers layer).layers[layer]? = some none := by
  simp [LayeredPreparedBlock.contents,h]

/-- A layer without segments changes nothing. -/
theorem contents_succ_nil (h : block.segments layer = []) :
    block.contents numLayers (layer + 1) = block.contents numLayers layer := by
  unfold LayeredPreparedBlock.contents
  rw [passesBefore_succ,filter_length_succ,h,List.length_nil,Nat.add_zero,if_pos rfl,Nat.add_zero]
  congr 1
  refine List.map_congr_left fun l _ => ?_
  by_cases hl : l = layer
  · rw [hl,h]
    simp
  · have hiff : l < layer + 1 ↔ l < layer := by omega
    simp only [hiff]

/-- What a layer with segments changes. -/
theorem contents_succ_cons (hlt : layer < numLayers) (h : block.segments layer ≠ []) :
    block.contents numLayers (layer + 1) =
      ⟨true,block.encoded.numZeroBitplanes,
        block.passesBefore layer + (block.segments layer).length,
        (block.contents numLayers layer).nonEmptyLayerCount + 1,
        (block.contents numLayers layer).layers.set layer (some
          (storedSegments block.encoded.data (block.passesBefore layer) (block.segments layer)))⟩ := by
  have hpos := List.length_pos_iff.mpr h
  unfold LayeredPreparedBlock.contents
  rw [passesBefore_succ,filter_length_succ,if_neg h,if_pos (by omega)]
  congr 1
  · exact decide_eq_true (by omega)
  · apply List.ext_getElem?
    intro l
    rw [List.getElem?_set]
    by_cases hl : l < numLayers
    · by_cases hsame : layer = l
      · subst hsame
        simp [hl,h]
      · have hiff : l < layer + 1 ↔ l < layer := by omega
        rw [if_neg hsame,List.getElem?_map,List.getElem?_map,List.getElem?_range hl]
        simp only [Option.map_some,hiff]
    · simp [hl]
      omega

/-- Step lemma: the packet of a layer brings what the layer has of the block. -/
theorem LayeredPreparedBlock.Terminated.receive (h : block.Terminated numLayers)
    {style : ClassicSegments.CodeBlockStyle} (hstyle : style.terminationOnEachPass = true)
    (hlt : layer < numLayers) :
    (block.contents numLayers layer).receive style (block.view layer) layer =
      some (block.contents numLayers (layer + 1)) := by
  have hpasses : (block.view layer).numCodingPasses = (block.segments layer).length :=
    (h.onePass hlt).sum
  unfold BlockContents.receive
  rw [if_neg (not_not.mpr (contents_layer hlt)),hpasses]
  by_cases hnil : block.segments layer = []
  · rw [hnil,List.length_nil,if_pos rfl,contents_succ_nil hnil]
  · have hpos := List.length_pos_iff.mpr hnil
    have hroom := h.room hlt
    have hmax : HtContributions.maxCodingPasses = 187 := rfl
    have hindex : passIndex style (block.contents numLayers layer).nonEmptyLayerCount = fun p => p := by
      funext p
      unfold passIndex
      rw [if_pos hstyle]
    have hruns : (block.contents numLayers layer).runs style (block.view layer) =
        (List.range' (block.passesBefore layer) (block.segments layer).length).map fun p => (p,1) := by
      unfold BlockContents.runs
      rw [hindex,hpasses,segmentRuns_identity]
      rfl
    have htold : toldLengths (block.view layer).packetData =
        (block.segments layer).map (·.dataLength) :=
      if_neg fun hlengths => hnil (List.map_eq_nil_iff.mp hlengths)
    have hstored : (block.contents numLayers layer).segments style (block.view layer) =
        storedSegments block.encoded.data (block.passesBefore layer) (block.segments layer) := by
      unfold BlockContents.segments
      rw [hruns,htold]
      exact zip_cutData (h.inside_layer hlt)
    have hadmits : (block.contents numLayers layer).Admits style (block.view layer) := by
      refine ⟨rfl,?_,fun _ => h.zeros,?_,?_⟩
      · rw [hpasses]
        exact hroom
      · have hcount := filter_length_le block layer
        have heq : (block.contents numLayers layer).nonEmptyLayerCount =
            ((List.range layer).filter fun l => block.segments l ≠ []).length := rfl
        omega
      · rw [hruns,List.length_map,List.length_range']
        have hlengths : (block.view layer).packetData.classicSegmentLengths =
            (block.segments layer).map (·.dataLength) := rfl
        have hmode : (block.view layer).packetData.blockCodingMode = .classic := rfl
        unfold PacketHeaders.CodeBlockPacketData.segmentCount
        rw [hmode,hlengths]
        dsimp only
        rw [List.length_map]
        omega
    rw [if_neg (by omega),if_pos hadmits,contents_succ_cons hlt hnil,hstored]
    congr 2
    have hincluded : (block.contents numLayers layer).included =
        decide (0 < block.passesBefore layer) := rfl
    have hzeros : (block.contents numLayers layer).missingBitPlanes =
        if 0 < block.passesBefore layer then block.encoded.numZeroBitplanes else 0 := rfl
    rw [hincluded,hzeros]
    by_cases hbefore : 0 < block.passesBefore layer
    · simp [hbefore]
    · simp [hbefore]
      rfl

/-! ## Coefficients -/

theorem storedSegments_flatMap (block : LayeredPreparedBlock) (data : List ℕ) (layer : ℕ) :
    (List.range layer).flatMap (fun l => storedSegments data (block.passesBefore l)
      (block.segments l)) = storedSegments data 0 ((List.range layer).flatMap block.segments) := by
  induction layer with
  | zero => rfl
  | succ layer ih =>
      rw [List.range_succ,List.flatMap_append,List.flatMap_append,ih,storedSegments_append,
        List.flatMap_singleton,List.flatMap_singleton,Nat.zero_add]
      rfl

/-- Behind all layers the segments of the block have come. -/
theorem contents_flatten (h : block.Terminated numLayers) :
    ((block.contents numLayers numLayers).layers.filterMap id).flatten =
      storedSegments block.encoded.data 0 block.encoded.segments := by
  have hall := segmentsOfLayer_flatMap h.assigned.1 h.sorted h.assigned.2
  have hstored := storedSegments_flatMap block block.encoded.data numLayers
  have hsegments : (List.range numLayers).flatMap block.segments = block.encoded.segments := hall
  rw [hsegments] at hstored
  rw [← hstored]
  unfold LayeredPreparedBlock.contents
  rw [List.filterMap_map,List.flatMap_def]
  have hlt : ∀ l ∈ List.range numLayers, l < numLayers := fun l hl => List.mem_range.mp hl
  generalize List.range numLayers = ls at hlt
  induction ls with
  | nil => rfl
  | cons l ls ih =>
      obtain ⟨hl,hlt⟩ := List.forall_mem_cons.mp hlt
      rw [List.map_cons,List.flatten_cons,← ih hlt]
      by_cases hnil : block.segments l = []
      · simp [hnil,storedSegments]
      · simp [hl,hnil]

variable {b : CodeBlock} {totalBitplanes : ℕ}

/-- What the encoder tells of a block that it took. -/
theorem behind_of_ok {encoded : EncodedCodeBlock}
    (h : b.tryEncodeSegmentedCodeBlock totalBitplanes = .ok encoded) :
    b.maxMagnitude = 0 ∧ encoded = ⟨[],[],0,totalBitplanes⟩ ∨
      0 < b.numBitplanes ∧ ∃ a contexts,
        encoded.numCodingPasses = 1 + 3 * (b.numBitplanes - 1) ∧
        encoded.numZeroBitplanes = totalBitplanes - b.numBitplanes ∧
        ((b.style.terminationOnEachPass || b.style.selectiveArithmeticCodingBypass) = false →
          encoded.segments = [⟨0,encoded.data.length,0,1 + 3 * (b.numBitplanes - 1),true⟩]) ∧
        Behind b b.numBitplanes encoded.data encoded.segments
          (1 + 3 * (b.numBitplanes - 1)) a contexts := by
  obtain ⟨haccepted,hfits⟩ := accepted_of_ok h
  by_cases hpos : 0 < b.numBitplanes
  · obtain ⟨data,segments,a,contexts,hencoded,hnormal,hbehind⟩ :=
      tryEncodeSegmentedCodeBlock_behind haccepted hpos hfits
    rw [h] at hencoded
    obtain heq := Except.ok.inj hencoded
    rw [heq]
    exact .inr ⟨hpos,a,contexts,rfl,rfl,hnormal,hbehind⟩
  · have hzero : b.maxMagnitude = 0 := not_not.mp fun hzero => hpos (numBitplanes_pos.mpr hzero)
    rw [tryEncodeSegmentedCodeBlock_zero haccepted hzero] at h
    exact .inl ⟨hzero,(Except.ok.inj h).symm⟩

/-- The passes of an encoded block under termination on each pass. -/
theorem onePass_of_ok {encoded : EncodedCodeBlock}
    (h : b.tryEncodeSegmentedCodeBlock totalBitplanes = .ok encoded)
    (hterminated : b.style.terminationOnEachPass = true) (hroom : b.numBitplanes ≤ 63) :
    OnePass 0 encoded.segments ∧ encoded.segments.length = encoded.numCodingPasses ∧
      encoded.numCodingPasses ≤ HtContributions.maxCodingPasses := by
  have hmax : HtContributions.maxCodingPasses = 187 := rfl
  rcases behind_of_ok h with ⟨-,rfl⟩ | ⟨hpos,a,contexts,hnumber,-,-,hbehind⟩
  · exact ⟨trivial,rfl,Nat.zero_le _⟩
  · obtain ⟨hone,hcount⟩ := onePass_of_contiguous hterminated hbehind.contiguous hbehind.shared
    exact ⟨hone,by omega,by omega⟩

/-- An encoded block of terminated passes. -/
theorem terminated_of_ok (h : b.tryEncodeSegmentedCodeBlock totalBitplanes = .ok block.encoded)
    (hterminated : b.style.terminationOnEachPass = true) (hroom : b.numBitplanes ≤ 63)
    (hsorted : block.segmentLayers.Pairwise (· ≤ ·)) (hassigned : block.Assigned numLayers) :
    block.Terminated numLayers := by
  have hbits := (accepted_of_ok h).1.bitplanes_le
  obtain ⟨hone,hcount,hmax⟩ := onePass_of_ok h hterminated hroom
  refine ⟨hone,?_,by omega,?_,hsorted,hassigned⟩
  · rcases behind_of_ok h with ⟨-,heq⟩ | ⟨-,a,contexts,-,-,-,hbehind⟩
    · rw [heq]
      nofun
    · exact hbehind.inside
  · rcases behind_of_ok h with ⟨-,heq⟩ | ⟨-,a,contexts,-,hzeros,-,-⟩
    · rw [heq]
      exact hbits.trans (by decide)
    · omega

/-- A segment of one pass is handed to the decoder as one pass. -/
theorem OnePass.layerSegment {start : ℕ} {segments : List EncodedSegment}
    (h : OnePass start segments) (data : List ℕ) :
    (segments.map (sliceSegment data)).map ClassicEncoder.layerSegment =
      segments.map fun s => ((sliceSegment data s).data,1) := by
  induction segments generalizing start with
  | nil => rfl
  | cons segment segments ih =>
      obtain ⟨hstart,hstop,hone⟩ := h
      have hpasses : segment.endCodingPass - segment.startCodingPass = 1 := by omega
      rw [List.map_cons,List.map_cons,List.map_cons,ih hone]
      congr 1
      exact congrArg _ hpasses

/-- The decoder makes the coefficients of the block of what all layers have brought. -/
theorem blockCoefficients_contents
    (h : b.tryEncodeSegmentedCodeBlock totalBitplanes = .ok block.encoded)
    (hterminated : b.style.terminationOnEachPass = true) (hroom : b.numBitplanes ≤ 63)
    (hblock : block.Terminated numLayers) (strict : Bool) :
    ∃ f, blockCoefficients (block.contents numLayers numLayers) b.width b.height totalBitplanes
        b.subBandType b.style strict = .ok f ∧
      ∀ x < b.width, ∀ y < b.height, f x y = b.coefficient x y := by
  have hpasses : block.passesBefore numLayers = block.encoded.segments.length :=
    congrArg List.length
      (segmentsOfLayer_flatMap hblock.assigned.1 hblock.sorted hblock.assigned.2)
  have hincluded : (block.contents numLayers numLayers).included =
      decide (0 < block.encoded.segments.length) := by
    rw [← hpasses]
    rfl
  rcases behind_of_ok h with ⟨hzero,heq⟩ | ⟨hpos,a,contexts,hnumber,hzeros,hnormal,hbehind⟩
  · have hnil : block.encoded.segments = [] := by rw [heq]
    rw [hnil] at hincluded
    refine ⟨fun _ _ => 0,?_,fun x hx y hy => ?_⟩
    · unfold blockCoefficients
      rw [hincluded]
      rfl
    · have hle := b.coefficient_le_maxMagnitude hx hy
      rw [hzero,Nat.le_zero,Int.natAbs_eq_zero] at hle
      exact hle.symm
  · obtain ⟨hone,hcount⟩ := onePass_of_contiguous hterminated hbehind.contiguous hbehind.shared
    have hfits := (accepted_of_ok h).2
    have hne : block.encoded.segments ≠ [] := List.length_pos_iff.mp (by omega)
    have hdecoded := decodesTo_behind hpos hfits hroom hnormal hbehind strict
    obtain ⟨ctx,-,hdecode,hcoefficients⟩ := hdecoded
    have hsegments := segmentsOfLayers_stored (contents_flatten hblock) hne (by omega)
    refine ⟨_,?_,hcoefficients⟩
    have hmissing : (block.contents numLayers numLayers).missingBitPlanes =
        totalBitplanes - b.numBitplanes := by
      have hif : (block.contents numLayers numLayers).missingBitPlanes =
          if 0 < block.passesBefore numLayers then block.encoded.numZeroBitplanes else 0 := rfl
      rw [hif,if_pos (by omega),hzeros]
    have htotal : (block.contents numLayers numLayers).numberOfCodingPasses =
        1 + 3 * (b.numBitplanes - 1) := by
      have hif : (block.contents numLayers numLayers).numberOfCodingPasses =
          block.passesBefore numLayers := rfl
      omega
    have hlayers : layerSegments ⟨block.encoded.data,block.encoded.segments,
        1 + 3 * (b.numBitplanes - 1),totalBitplanes - b.numBitplanes⟩ =
          block.encoded.segments.map fun s => ((sliceSegment block.encoded.data s).data,1) :=
      hone.layerSegment _
    rw [hlayers] at hdecode
    unfold blockCoefficients
    rw [hincluded,decide_eq_true (by omega),Bool.not_true,if_neg Bool.false_ne_true,hsegments]
    dsimp only
    rw [hmissing,htotal,hdecode,Fallible.ok_bind]
    rfl

end

/-! ## Layers without budgets -/

section
variable {encoded : EncodedCodeBlock} {segments : List EncodedSegment} {start numLayers : ℕ}
variable {block : LayeredPreparedBlock} {b : CodeBlock} {totalBitplanes : ℕ}

theorem assignedLayer_mapM {numCodingPasses : ℕ} (hpos : 0 < numLayers)
    (hlt : numCodingPasses < 256) (hone : OnePass start segments)
    (hroom : start + segments.length ≤ numCodingPasses) :
    (segments.mapM fun segment =>
        assignedLayer segment numCodingPasses numLayers (List.range numLayers)) =
      .ok ((List.range' start segments.length).map fun p => p * numLayers / numCodingPasses) := by
  induction segments generalizing start with
  | nil => rfl
  | cons segment segments ih =>
      obtain ⟨rfl,hstop,hone⟩ := hone
      rw [List.length_cons] at hroom
      have hfirst := assignedLayer_onePass hpos hlt hstop (by omega) (Nat.zero_le _)
        (Nat.zero_add numLayers)
      rw [← List.range_eq_range'] at hfirst
      rw [List.mapM_cons,hfirst,ok_bind,ih hone (by omega)]
      rfl

theorem addSegmentPasses_onePass {passes : ℕ} (hone : OnePass start segments)
    (hroom : passes + segments.length < 256) :
    segments.foldlM addSegmentPasses passes = .ok (passes + segments.length) := by
  induction segments generalizing start passes with
  | nil => rfl
  | cons segment segments ih =>
      obtain ⟨rfl,hstop,hone⟩ := hone
      rw [List.length_cons] at hroom
      have hfirst : addSegmentPasses passes segment = .ok (passes + 1) := by
        unfold addSegmentPasses
        rw [hstop,Nat.add_sub_cancel_left,if_neg (by omega),if_neg (by omega)]
      rw [List.foldlM_cons,hfirst,ok_bind,ih hone (by omega),List.length_cons,Nat.add_right_comm,
        Nat.add_assoc]

/-- All layers can be told of a block of terminated passes. -/
theorem classicLayerContributions_of_terminated (h : block.Terminated numLayers) :
    classicLayerContributions block.encoded numLayers block.segmentLayers =
      .ok ((List.range numLayers).map block.view) := by
  have hmax : HtContributions.maxCodingPasses = 187 := rfl
  unfold classicLayerContributions
  rw [if_neg (not_not.mpr h.assigned.1),if_neg (by simpa using h.assigned.2)]
  apply mapM_ok
  intro layer hlayer
  have hlt := List.mem_range.mp hlayer
  have hone : OnePass (block.passesBefore layer)
      (segmentsOfLayer block.encoded block.segmentLayers layer) := h.onePass hlt
  have hroom : block.passesBefore layer +
      (segmentsOfLayer block.encoded block.segmentLayers layer).length ≤
        HtContributions.maxCodingPasses := h.room hlt
  have hpasses := @addSegmentPasses_onePass _ _ 0 hone (by omega)
  have hpayload : (segmentsOfLayer block.encoded block.segmentLayers layer).mapM
      (segmentPayload block.encoded.data) =
        .ok ((segmentsOfLayer block.encoded block.segmentLayers layer).map fun segment =>
          (block.encoded.data.drop segment.dataOffset).take segment.dataLength) :=
    mapM_ok fun segment hsegment => if_pos (h.inside_layer hlt segment hsegment)
  unfold buildClassicLayerContribution LayeredPreparedBlock.view
  dsimp only
  rw [hpasses,ok_bind,hpayload,ok_bind,hone.sum,Nat.zero_add,List.flatMap_def]

theorem passesBefore_evenLayers (hlayers : 0 < numLayers)
    (hcount : encoded.segments.length = encoded.numCodingPasses) {layer : ℕ}
    (hle : layer ≤ numLayers) :
    (⟨encoded,evenLayers encoded.numCodingPasses numLayers⟩ :
        LayeredPreparedBlock).passesBefore layer =
      (encoded.numCodingPasses * layer + numLayers - 1) / numLayers := by
  have hsecond : (encoded.segments.zip (evenLayers encoded.numCodingPasses numLayers)).map
      Prod.snd = evenLayers encoded.numCodingPasses numLayers :=
    List.map_snd_zip (by simp [evenLayers,hcount])
  have heven := @filter_evenLayers encoded.numCodingPasses _ _ hlayers hle
  rw [← hsecond,List.filter_map,List.length_map] at heven
  rw [passesBefore_eq]
  exact heven

theorem evenLayers_assigned (hlayers : 0 < numLayers)
    (hcount : encoded.segments.length = encoded.numCodingPasses) :
    (⟨encoded,evenLayers encoded.numCodingPasses numLayers⟩ :
      LayeredPreparedBlock).Assigned numLayers := by
  constructor
  · simp [evenLayers,hcount]
  · exact lt_of_mem_evenLayers hlayers

theorem classicUnbudgetedSegmentLayers_ok
    (h : b.tryEncodeSegmentedCodeBlock totalBitplanes = .ok encoded)
    (hterminated : b.style.terminationOnEachPass = true) (hroom : b.numBitplanes ≤ 63)
    (hlayers : 0 < numLayers) : classicUnbudgetedSegmentLayers encoded numLayers =
      .ok (evenLayers encoded.numCodingPasses numLayers) := by
  obtain ⟨hone,hcount,hlt⟩ := onePass_of_ok h hterminated hroom
  unfold classicUnbudgetedSegmentLayers
  rw [assignedLayer_mapM hlayers (hlt.trans_lt (by decide)) hone (by omega),hcount,
    ← List.range_eq_range']
  rfl

/-- Without budgets the passes of an encoded block go to the layers evenly and in order, and all
layers can be told of it. -/
theorem classicUnbudgetedSegmentLayers_even
    (h : b.tryEncodeSegmentedCodeBlock totalBitplanes = .ok encoded)
    (hterminated : b.style.terminationOnEachPass = true) (hroom : b.numBitplanes ≤ 63)
    (hlayers : 0 < numLayers) :
    classicUnbudgetedSegmentLayers encoded numLayers =
        .ok (evenLayers encoded.numCodingPasses numLayers) ∧
      (⟨encoded,evenLayers encoded.numCodingPasses numLayers⟩ :
        LayeredPreparedBlock).Terminated numLayers ∧
      classicLayerContributions encoded numLayers (evenLayers encoded.numCodingPasses numLayers) =
        .ok ((List.range numLayers).map (⟨encoded,evenLayers encoded.numCodingPasses numLayers⟩ :
          LayeredPreparedBlock).view) ∧
      ∀ layer < numLayers, ((⟨encoded,evenLayers encoded.numCodingPasses numLayers⟩ :
          LayeredPreparedBlock).view layer).numCodingPasses =
        (encoded.numCodingPasses * (layer + 1) + numLayers - 1) / numLayers -
          (encoded.numCodingPasses * layer + numLayers - 1) / numLayers := by
  obtain ⟨-,hcount,-⟩ := onePass_of_ok h hterminated hroom
  have hblock : (⟨encoded,evenLayers encoded.numCodingPasses numLayers⟩ :
      LayeredPreparedBlock).Terminated numLayers :=
    terminated_of_ok h hterminated hroom evenLayers_sorted (evenLayers_assigned hlayers hcount)
  refine ⟨classicUnbudgetedSegmentLayers_ok h hterminated hroom hlayers,hblock,
    classicLayerContributions_of_terminated hblock,fun layer hlayer => ?_⟩
  have hpasses := (hblock.onePass hlayer).sum
  rw [← passesBefore_evenLayers hlayers hcount (Nat.succ_le_of_lt hlayer),
    ← passesBefore_evenLayers hlayers hcount hlayer.le,passesBefore_succ,Nat.add_sub_cancel_left]
  exact hpasses

/-- Four passes in three layers. -/
theorem classicUnbudgetedSegmentLayers_even_four :
    classicUnbudgetedSegmentLayers ⟨[11,175,255,111,255,31,255,255,127],[⟨0,3,0,1,true⟩,
      ⟨3,2,1,2,true⟩,⟨5,2,2,3,true⟩,⟨7,2,3,4,true⟩],4,1⟩ 3 = .ok [0,0,1,2] := by
  have hencoded : (⟨2,2,fun x y => 3 * x - 2 * y,.highLow,⟨false,false,true,false,false⟩⟩ :
      CodeBlock).tryEncodeSegmentedCodeBlock 3 =
        .ok ⟨[11,175,255,111,255,31,255,255,127],[⟨0,3,0,1,true⟩,⟨3,2,1,2,true⟩,⟨5,2,2,3,true⟩,
          ⟨7,2,3,4,true⟩],4,1⟩ := by
    decide +kernel
  exact (classicUnbudgetedSegmentLayers_even hencoded rfl (Nat.size_le.mpr (by decide))
    (by decide)).1

end

end J2kNative.LayeredPackets
