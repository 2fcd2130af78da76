import J2kNative.PacketAssembly
import J2kNative.PayloadPlan

/-!
# Packets of quality layers

The segments of an encoded block go to quality layers, and what a layer gets of all blocks of a
precinct makes one packet. The packets of a precinct share a state; their descriptors are sorted
into the progression order. Modelled are classic blocks, whose segments are told one by one.
-/
namespace J2kNative.LayeredPackets
open Fallible PacketAssembly
open PayloadPlan (EncodedCodeBlock EncodedSegment)
open PacketPlan (PacketDescriptor PacketizationProgressionOrder sortPacketDescriptorsForProgression)

/-! ## Layers of segments -/

def layerPassCount (numCodingPasses layerCount numLayers : ℕ) : Except String ℕ :=
  if numLayers = 0 then .error "quality layer count must be non-zero"
  else if (numCodingPasses * layerCount + numLayers - 1) / numLayers ≥ 256 then
    .error "quality layer pass allocation overflow"
  else .ok ((numCodingPasses * layerCount + numLayers - 1) / numLayers)

def previousLayerPassCount (numCodingPasses layerIdx numLayers : ℕ) : Except String ℕ :=
  if layerIdx = 0 then .ok 0 else layerPassCount numCodingPasses layerIdx numLayers

def cumulativePasses (numCodingPasses layerIdx numLayers : ℕ) : Except String ℕ :=
  if layerIdx + 1 = numLayers then .ok numCodingPasses
  else layerPassCount numCodingPasses (layerIdx + 1) numLayers

/-- The loop over the layers: the first one whose passes are those of the segment. -/
def assignedLayer (segment : EncodedSegment) (numCodingPasses numLayers : ℕ) :
    List ℕ → Except String ℕ
  | [] => .error "classic quality layer split must align to terminated coding passes"
  | layerIdx :: layers => do
      let previousPass ← previousLayerPassCount numCodingPasses layerIdx numLayers
      let cumulative ← cumulativePasses numCodingPasses layerIdx numLayers
      if segment.startCodingPass ≥ previousPass ∧ segment.endCodingPass ≤ cumulative then
        .ok layerIdx
      else assignedLayer segment numCodingPasses numLayers layers

/-- `classic_unbudgeted_segment_layers_accounted`. -/
def classicUnbudgetedSegmentLayers (encoded : EncodedCodeBlock) (numLayers : ℕ) :
    Except String (List ℕ) :=
  encoded.segments.mapM fun segment =>
    assignedLayer segment encoded.numCodingPasses numLayers (List.range numLayers)

/-- Coding passes as they are spread evenly over the layers. -/
def evenLayers (numCodingPasses numLayers : ℕ) : List ℕ :=
  (List.range numCodingPasses).map fun p => p * numLayers / numCodingPasses

section
variable {numCodingPasses numLayers layerIdx : ℕ}

theorem divCeil_le (hpos : 0 < numLayers) (n p : ℕ) :
    (n + numLayers - 1) / numLayers ≤ p ↔ n ≤ p * numLayers := by
  rw [← Nat.lt_succ_iff,Nat.div_lt_iff_lt_mul hpos,Nat.succ_mul]
  omega

theorem layerPassCount_ok (hpos : 0 < numLayers) (hlt : numCodingPasses < 256)
    (hle : layerIdx ≤ numLayers) : layerPassCount numCodingPasses layerIdx numLayers =
      .ok ((numCodingPasses * layerIdx + numLayers - 1) / numLayers) := by
  have hcount := (divCeil_le hpos (numCodingPasses * layerIdx) numCodingPasses).mpr
    (Nat.mul_le_mul_left _ hle)
  unfold layerPassCount
  rw [if_neg (by omega),if_neg (by omega)]

theorem previousLayerPassCount_ok (hpos : 0 < numLayers) (hlt : numCodingPasses < 256)
    (hle : layerIdx ≤ numLayers) : previousLayerPassCount numCodingPasses layerIdx numLayers =
      .ok ((numCodingPasses * layerIdx + numLayers - 1) / numLayers) := by
  unfold previousLayerPassCount
  split_ifs with hzero
  · rw [hzero,Nat.mul_zero,Nat.zero_add,Nat.div_eq_of_lt (by omega)]
  · exact layerPassCount_ok hpos hlt hle

theorem cumulativePasses_ok (hpos : 0 < numLayers) (hlt : numCodingPasses < 256)
    (hlayer : layerIdx < numLayers) : cumulativePasses numCodingPasses layerIdx numLayers =
      .ok ((numCodingPasses * (layerIdx + 1) + numLayers - 1) / numLayers) := by
  unfold cumulativePasses
  split_ifs with hlast
  · rw [hlast,Nat.add_sub_assoc hpos,Nat.mul_comm,Nat.mul_add_div hpos,
      Nat.div_eq_of_lt (by omega),Nat.add_zero]
  · exact layerPassCount_ok hpos hlt hlayer

/-- The loop stops at the layer in whose share of the passes the segment is. -/
theorem assignedLayer_onePass {segment : EncodedSegment} {first k : ℕ} (hpos : 0 < numLayers)
    (hlt : numCodingPasses < 256) (hpass : segment.endCodingPass = segment.startCodingPass + 1)
    (hinside : segment.startCodingPass < numCodingPasses)
    (hfirst : first ≤ segment.startCodingPass * numLayers / numCodingPasses)
    (hend : first + k = numLayers) :
    assignedLayer segment numCodingPasses numLayers (List.range' first k) =
      .ok (segment.startCodingPass * numLayers / numCodingPasses) := by
  have hpasses : 0 < numCodingPasses := Nat.zero_lt_of_lt hinside
  have hlayer : segment.startCodingPass * numLayers / numCodingPasses < numLayers :=
    Nat.div_lt_of_lt_mul (Nat.mul_lt_mul_of_pos_right hinside hpos)
  induction k generalizing first with
  | zero => omega
  | succ k ih =>
      have hprevious := divCeil_le hpos (numCodingPasses * first) segment.startCodingPass
      have hcumulative := divCeil_le hpos (numCodingPasses * (first + 1)) segment.startCodingPass
      rw [Nat.mul_comm numCodingPasses,← Nat.le_div_iff_mul_le hpasses] at hprevious hcumulative
      rw [List.range'_succ,assignedLayer,previousLayerPassCount_ok hpos hlt (by omega),ok_bind,
        cumulativePasses_ok hpos hlt (by omega),ok_bind,hpass,Nat.mul_comm numCodingPasses,
        Nat.mul_comm numCodingPasses]
      by_cases heq : first = segment.startCodingPass * numLayers / numCodingPasses
      · rw [if_pos ⟨hprevious.mpr hfirst,by omega⟩,← heq]
      · rw [if_neg fun h => by omega]
        exact ih (by omega) (by omega)

theorem evenLayers_sorted : (evenLayers numCodingPasses numLayers).Pairwise (· ≤ ·) := by
  unfold evenLayers
  rw [List.pairwise_map]
  apply List.pairwise_lt_range.imp
  intro p p' hlt
  exact Nat.div_le_div_right (Nat.mul_le_mul_right _ hlt.le)

theorem filter_lt_range (c n : ℕ) : ((List.range n).filter fun p => p < c).length = min c n := by
  induction n with
  | zero => simp
  | succ n ih =>
      rw [List.range_succ,List.filter_append,List.length_append,ih]
      by_cases h : n < c
      · simp [h]
        omega
      · simp [h]
        omega

/-- The passes of the layers before a layer. -/
theorem filter_evenLayers (hpos : 0 < numLayers) (hle : layerIdx ≤ numLayers) :
    ((evenLayers numCodingPasses numLayers).filter fun layer => layer < layerIdx).length =
      (numCodingPasses * layerIdx + numLayers - 1) / numLayers := by
  have hcount := (divCeil_le hpos (numCodingPasses * layerIdx) numCodingPasses).mpr
    (Nat.mul_le_mul_left _ hle)
  have hbefore : ∀ p ∈ List.range numCodingPasses,
      decide (p * numLayers / numCodingPasses < layerIdx) =
        decide (p < (numCodingPasses * layerIdx + numLayers - 1) / numLayers) := by
    intro p hp
    have hpasses : 0 < numCodingPasses := Nat.zero_lt_of_lt (List.mem_range.mp hp)
    rw [decide_eq_decide,Nat.div_lt_iff_lt_mul hpasses,Nat.mul_comm layerIdx,← not_le,← not_le,
      divCeil_le hpos]
  unfold evenLayers
  rw [List.filter_map,List.length_map]
  calc ((List.range numCodingPasses).filter _).length
    _ = ((List.range numCodingPasses).filter fun p =>
          p < (numCodingPasses * layerIdx + numLayers - 1) / numLayers).length :=
        congrArg List.length (List.filter_congr hbefore)
    _ = (numCodingPasses * layerIdx + numLayers - 1) / numLayers := by
        rw [filter_lt_range,Nat.min_eq_left hcount]

theorem lt_of_mem_evenLayers (hpos : 0 < numLayers) :
    ∀ layer ∈ evenLayers numCodingPasses numLayers, layer < numLayers := by
  intro layer hlayer
  obtain ⟨p,hp,rfl⟩ := List.mem_map.mp hlayer
  exact Nat.div_lt_of_lt_mul (Nat.mul_lt_mul_of_pos_right (List.mem_range.mp hp) hpos)

end

/-! ## Contributions -/

/-- The segments that go to a layer. -/
def segmentsOfLayer (encoded : EncodedCodeBlock) (segmentLayers : List ℕ) (layerIdx : ℕ) :
    List EncodedSegment :=
  ((encoded.segments.zip segmentLayers).filter fun s => s.2 = layerIdx).map Prod.fst

def addSegmentPasses (codingPasses : ℕ) (segment : EncodedSegment) : Except String ℕ :=
  if segment.endCodingPass < segment.startCodingPass then
    .error "classic code-block coding-pass range invalid"
  else if codingPasses + (segment.endCodingPass - segment.startCodingPass) ≥ 256 then
    .error "classic code-block contribution pass count overflow"
  else .ok (codingPasses + (segment.endCodingPass - segment.startCodingPass))

/-- The data of a segment. -/
def segmentPayload (data : List ℕ) (segment : EncodedSegment) : Except String (List ℕ) :=
  if segment.dataOffset + segment.dataLength ≤ data.length then
    .ok ((data.drop segment.dataOffset).take segment.dataLength)
  else .error "classic code-block segment range invalid"

def buildClassicLayerContribution (encoded : EncodedCodeBlock) (segmentLayers : List ℕ)
    (layerIdx : ℕ) : Except String CodeBlockView := do
  let codingPasses ← (segmentsOfLayer encoded segmentLayers layerIdx).foldlM addSegmentPasses 0
  let data ← (segmentsOfLayer encoded segmentLayers layerIdx).mapM (segmentPayload encoded.data)
  .ok ⟨data.flatten,0,0,codingPasses,
    (segmentsOfLayer encoded segmentLayers layerIdx).map (·.dataLength),encoded.numZeroBitplanes,
    false,3,.classic⟩

/-- `classic_layer_contributions_accounted`. -/
def classicLayerContributions (encoded : EncodedCodeBlock) (numLayers : ℕ)
    (segmentLayers : List ℕ) : Except String (List CodeBlockView) :=
  if segmentLayers.length ≠ encoded.segments.length then
    .error "classic PCRD segment assignment count mismatch"
  else if segmentLayers.any (· ≥ numLayers) then
    .error "classic PCRD segment layer exceeds layer count"
  else (List.range numLayers).mapM (buildClassicLayerContribution encoded segmentLayers)

/-! ## Packets -/

structure LayeredPreparedBlock where
  encoded : EncodedCodeBlock
  segmentLayers : List ℕ
  deriving DecidableEq, Repr

structure LayeredPreparedSubband where
  numCbsX : ℕ
  numCbsY : ℕ
  blocks : List LayeredPreparedBlock
  deriving DecidableEq, Repr

structure LayeredPreparedPacket where
  component : ℕ
  resolution : ℕ
  precinct : ℕ
  subbands : List LayeredPreparedSubband
  deriving DecidableEq, Repr

/-- One turn of the loop over the blocks of a sub-band. -/
def appendLayeredBlock (numLayers : ℕ) (layerSubbands : List SubbandView)
    (block : LayeredPreparedBlock) : Except String (List SubbandView) := do
  let contributions ← classicLayerContributions block.encoded numLayers block.segmentLayers
  if contributions.length ≠ layerSubbands.length then .error "layer contribution count mismatch"
  else .ok (List.zipWith (fun layerSubband contribution =>
    { layerSubband with codeBlocks := layerSubband.codeBlocks ++ [contribution] })
    layerSubbands contributions)

def appendLayeredSubband (numLayers : ℕ) (layerPackets : List ResolutionView)
    (subband : LayeredPreparedSubband) : Except String (List ResolutionView) := do
  let layerSubbands ← subband.blocks.foldlM (appendLayeredBlock numLayers)
    (List.replicate numLayers ⟨[],subband.numCbsX,subband.numCbsY⟩)
  .ok (List.zipWith (fun layerPacket layerSubband => layerPacket ++ [layerSubband])
    layerPackets layerSubbands)

/-- One packet of every layer. -/
def layerPacketsOf (numLayers : ℕ) (layeredPacket : LayeredPreparedPacket) :
    Except String (List ResolutionView) :=
  layeredPacket.subbands.foldlM (appendLayeredSubband numLayers) (List.replicate numLayers [])

/-- One turn of the loop over the packets of the layers. -/
def pushLayerPacket (layeredPacket : LayeredPreparedPacket) (stateIndex : ℕ)
    (s : List ResolutionView × List PacketDescriptor) (layerPacket : ResolutionView × ℕ) :
    Except String (List ResolutionView × List PacketDescriptor) :=
  if s.1.length ≥ 2 ^ 32 then .error "packet descriptor index exceeds u32"
  else if layerPacket.2 ≥ 256 then .error "quality layer index exceeds u8"
  else .ok (s.1 ++ [layerPacket.1],
    s.2 ++ [⟨s.1.length,stateIndex,layerPacket.2,layeredPacket.resolution,layeredPacket.component,
      layeredPacket.precinct⟩])

def appendLayeredPacket (numLayers : ℕ) (s : List ResolutionView × List PacketDescriptor)
    (layeredPacket : LayeredPreparedPacket × ℕ) :
    Except String (List ResolutionView × List PacketDescriptor) := do
  let layerPackets ← layerPacketsOf numLayers layeredPacket.1
  if layeredPacket.2 ≥ 2 ^ 32 then .error "packet descriptor state index exceeds u32"
  else layerPackets.zipIdx.foldlM (pushLayerPacket layeredPacket.1 layeredPacket.2) s

def buildLayerPackets (layeredPackets : List LayeredPreparedPacket) (numLayers : ℕ)
    (progressionOrder : PacketizationProgressionOrder) :
    Except String (List ResolutionView × List PacketDescriptor) := do
  let s ← layeredPackets.zipIdx.foldlM (appendLayeredPacket numLayers) ([],[])
  .ok (s.1,sortPacketDescriptorsForProgression s.2 progressionOrder)

/-! ## What a layer gets of a block -/

def LayeredPreparedBlock.view (block : LayeredPreparedBlock) (layerIdx : ℕ) : CodeBlockView :=
  let segments := segmentsOfLayer block.encoded block.segmentLayers layerIdx
  ⟨segments.flatMap fun segment =>
      (block.encoded.data.drop segment.dataOffset).take segment.dataLength,0,0,
    (segments.map fun segment => segment.endCodingPass - segment.startCodingPass).sum,
    segments.map (·.dataLength),block.encoded.numZeroBitplanes,false,3,.classic⟩

def LayeredPreparedPacket.view (packet : LayeredPreparedPacket) (layerIdx : ℕ) : ResolutionView :=
  packet.subbands.map fun subband =>
    ⟨subband.blocks.map (·.view layerIdx),subband.numCbsX,subband.numCbsY⟩

section
variable {encoded : EncodedCodeBlock} {block : LayeredPreparedBlock} {numLayers layerIdx : ℕ}
variable {packet : LayeredPreparedPacket}

theorem addSegmentPasses_foldlM {segments : List EncodedSegment} {start passes : ℕ}
    (h : segments.foldlM addSegmentPasses start = .ok passes) : passes = start +
      (segments.map fun segment => segment.endCodingPass - segment.startCodingPass).sum := by
  induction segments generalizing start with
  | nil =>
      cases h
      rfl
  | cons segment segments ih =>
      rw [List.foldlM_cons] at h
      obtain ⟨next,hnext,h⟩ := bind_eq_ok.mp h
      unfold addSegmentPasses at hnext
      split_ifs at hnext
      cases hnext
      rw [ih h,List.map_cons,List.sum_cons,Nat.add_assoc]

theorem segmentPayload_mapM {data : List ℕ} {segments : List EncodedSegment}
    {payloads : List (List ℕ)} (h : segments.mapM (segmentPayload data) = .ok payloads) :
    payloads.flatten = segments.flatMap fun segment =>
      (data.drop segment.dataOffset).take segment.dataLength := by
  have hall := mapM_forall₂ h
  clear h
  induction hall with
  | nil => rfl
  | cons hpayload _ ih =>
      unfold segmentPayload at hpayload
      split_ifs at hpayload
      cases hpayload
      rw [List.flatten_cons,List.flatMap_cons,ih]

theorem buildClassicLayerContribution_ok {view : CodeBlockView}
    (h : buildClassicLayerContribution block.encoded block.segmentLayers layerIdx = .ok view) :
    view = block.view layerIdx := by
  obtain ⟨passes,hpasses,h⟩ := bind_eq_ok.mp h
  obtain ⟨data,hdata,h⟩ := bind_eq_ok.mp h
  cases h
  unfold LayeredPreparedBlock.view
  rw [segmentPayload_mapM hdata,addSegmentPasses_foldlM hpasses,Nat.zero_add]

theorem classicLayerContributions_ok {views : List CodeBlockView}
    (h : classicLayerContributions block.encoded numLayers block.segmentLayers = .ok views) :
    views = (List.range numLayers).map block.view ∧
      block.segmentLayers.length = block.encoded.segments.length ∧
      ∀ layer ∈ block.segmentLayers, layer < numLayers := by
  unfold classicLayerContributions at h
  split_ifs at h with hlength hlayers
  refine ⟨?_,not_not.mp hlength,by simpa using hlayers⟩
  have hall := mapM_forall₂ h
  clear h hlayers
  generalize List.range numLayers = layers at hall
  induction hall with
  | nil => rfl
  | cons hview _ ih => rw [List.map_cons,buildClassicLayerContribution_ok hview,ih]

/-- Every segment has a layer. -/
def LayeredPreparedBlock.Assigned (block : LayeredPreparedBlock) (numLayers : ℕ) : Prop :=
  block.segmentLayers.length = block.encoded.segments.length ∧
    ∀ layer ∈ block.segmentLayers, layer < numLayers

theorem zipWith_map_range {α β γ : Type} (f : α → β → γ) (g : ℕ → α) (h : ℕ → β) (n : ℕ) :
    List.zipWith f ((List.range n).map g) ((List.range n).map h) =
      (List.range n).map fun i => f (g i) (h i) := by
  simp [List.zipWith_map]

theorem appendLayeredBlock_foldlM {blocks : List LayeredPreparedBlock}
    {before : ℕ → List CodeBlockView} {numCbsX numCbsY : ℕ} {subbands : List SubbandView}
    (h : blocks.foldlM (appendLayeredBlock numLayers)
      ((List.range numLayers).map fun l => ⟨before l,numCbsX,numCbsY⟩) = .ok subbands) :
    subbands = ((List.range numLayers).map fun l =>
      ⟨before l ++ blocks.map (·.view l),numCbsX,numCbsY⟩) ∧
      ∀ block ∈ blocks, block.Assigned numLayers := by
  induction blocks generalizing before with
  | nil =>
      cases h
      simp
  | cons block blocks ih =>
      rw [List.foldlM_cons] at h
      obtain ⟨next,hnext,h⟩ := bind_eq_ok.mp h
      obtain ⟨views,hviews,hnext⟩ := bind_eq_ok.mp hnext
      obtain ⟨rfl,hassigned⟩ := classicLayerContributions_ok hviews
      split_ifs at hnext
      cases hnext
      rw [zipWith_map_range] at h
      obtain ⟨rfl,hall⟩ := ih h
      refine ⟨?_,List.forall_mem_cons.mpr ⟨hassigned,hall⟩⟩
      simp

theorem appendLayeredSubband_foldlM {subbands : List LayeredPreparedSubband}
    {before : ℕ → ResolutionView} {packets : List ResolutionView}
    (h : subbands.foldlM (appendLayeredSubband numLayers) ((List.range numLayers).map before) =
      .ok packets) :
    packets = ((List.range numLayers).map fun l => before l ++ subbands.map fun subband =>
      ⟨subband.blocks.map (·.view l),subband.numCbsX,subband.numCbsY⟩) ∧
      ∀ subband ∈ subbands, ∀ block ∈ subband.blocks, block.Assigned numLayers := by
  induction subbands generalizing before with
  | nil =>
      cases h
      simp
  | cons subband subbands ih =>
      rw [List.foldlM_cons] at h
      obtain ⟨next,hnext,h⟩ := bind_eq_ok.mp h
      obtain ⟨views,hviews,hnext⟩ := bind_eq_ok.mp hnext
      cases hnext
      have hreplicate : List.replicate numLayers (⟨[],subband.numCbsX,subband.numCbsY⟩ : SubbandView) =
          (List.range numLayers).map fun _ => ⟨[],subband.numCbsX,subband.numCbsY⟩ := by
        simp
      rw [hreplicate] at hviews
      obtain ⟨rfl,hassigned⟩ := appendLayeredBlock_foldlM hviews
      rw [zipWith_map_range] at h
      obtain ⟨rfl,hall⟩ := ih h
      refine ⟨?_,List.forall_mem_cons.mpr ⟨hassigned,hall⟩⟩
      simp

/-- The packets of a precinct, layer by layer. -/
theorem layerPacketsOf_ok {packets : List ResolutionView}
    (h : layerPacketsOf numLayers packet = .ok packets) :
    packets = (List.range numLayers).map packet.view ∧
      ∀ subband ∈ packet.subbands, ∀ block ∈ subband.blocks, block.Assigned numLayers := by
  have hreplicate : List.replicate numLayers ([] : ResolutionView) =
      (List.range numLayers).map fun _ => [] := by
    simp
  unfold layerPacketsOf at h
  rw [hreplicate] at h
  obtain ⟨rfl,hall⟩ := appendLayeredSubband_foldlM h
  exact ⟨by simp [LayeredPreparedPacket.view],hall⟩

end

/-! ## Descriptors -/

/-- The descriptors of the packets of one state. -/
def stateDescriptors (numLayers : ℕ) (packet : LayeredPreparedPacket × ℕ) : List PacketDescriptor :=
  (List.range numLayers).map fun l => ⟨packet.2 * numLayers + l,packet.2,l,packet.1.resolution,
    packet.1.component,packet.1.precinct⟩

section
variable {packet : LayeredPreparedPacket} {numLayers stateIndex : ℕ}

theorem pushLayerPacket_foldlM {views : List ResolutionView} {start : ℕ}
    {s s' : List ResolutionView × List PacketDescriptor}
    (h : (views.zipIdx start).foldlM (pushLayerPacket packet stateIndex) s = .ok s') :
    s' = (s.1 ++ views,s.2 ++ (List.range views.length).map fun l =>
      ⟨s.1.length + l,stateIndex,start + l,packet.resolution,packet.component,packet.precinct⟩) ∧
      (views ≠ [] → start + views.length ≤ 256) := by
  induction views generalizing start s with
  | nil =>
      cases h
      simp
  | cons view views ih =>
      rw [List.zipIdx_cons,List.foldlM_cons] at h
      obtain ⟨next,hnext,h⟩ := bind_eq_ok.mp h
      unfold pushLayerPacket at hnext
      split_ifs at hnext with hindex hlayer
      cases hnext
      obtain ⟨rfl,hbound⟩ := ih h
      refine ⟨?_,fun _ => ?_⟩
      · simp [List.range_succ_eq_map,Nat.add_comm,Nat.add_left_comm]
      · by_cases hviews : views = []
        · rw [hviews]
          simp only [List.length_cons,List.length_nil]
          dsimp only at hlayer
          omega
        · have := hbound hviews
          rw [List.length_cons]
          omega

theorem appendLayeredPacket_foldlM {packets : List LayeredPreparedPacket} {start : ℕ}
    {s s' : List ResolutionView × List PacketDescriptor} (hlength : s.1.length = start * numLayers)
    (h : (packets.zipIdx start).foldlM (appendLayeredPacket numLayers) s = .ok s') :
    s' = (s.1 ++ packets.flatMap fun p => (List.range numLayers).map p.view,
      s.2 ++ (packets.zipIdx start).flatMap (stateDescriptors numLayers)) ∧
      (packets ≠ [] → numLayers ≤ 256) ∧ ∀ p ∈ packets, ∀ subband ∈ p.subbands,
        ∀ block ∈ subband.blocks, block.Assigned numLayers := by
  induction packets generalizing start s with
  | nil =>
      cases h
      simp
  | cons packet packets ih =>
      rw [List.zipIdx_cons,List.foldlM_cons] at h
      obtain ⟨next,hnext,h⟩ := bind_eq_ok.mp h
      obtain ⟨views,hviews,hnext⟩ := bind_eq_ok.mp hnext
      obtain ⟨rfl,hassigned⟩ := layerPacketsOf_ok hviews
      split_ifs at hnext
      obtain ⟨rfl,hbound⟩ := pushLayerPacket_foldlM hnext
      have hlength' : (s.1 ++ (List.range numLayers).map packet.view).length =
          (start + 1) * numLayers := by
        rw [List.length_append,hlength,List.length_map,List.length_range,Nat.succ_mul]
      obtain ⟨rfl,hrest,hall⟩ := ih hlength' h
      refine ⟨?_,fun _ => ?_,List.forall_mem_cons.mpr ⟨hassigned,hall⟩⟩
      · simp [stateDescriptors,hlength]
      · by_cases hzero : numLayers = 0
        · omega
        · simpa [hzero] using hbound

/-- The packets, layer after layer of every state, and their descriptors in the progression. -/
theorem buildLayerPackets_ok {layeredPackets : List LayeredPreparedPacket}
    {order : PacketizationProgressionOrder} {packets : List ResolutionView}
    {descriptors : List PacketDescriptor}
    (h : buildLayerPackets layeredPackets numLayers order = .ok (packets,descriptors)) :
    packets = (layeredPackets.flatMap fun p => (List.range numLayers).map p.view) ∧
      descriptors = sortPacketDescriptorsForProgression
        (layeredPackets.zipIdx.flatMap (stateDescriptors numLayers)) order ∧
      (layeredPackets ≠ [] → numLayers ≤ 256) ∧ ∀ p ∈ layeredPackets, ∀ subband ∈ p.subbands,
        ∀ block ∈ subband.blocks, block.Assigned numLayers := by
  obtain ⟨s,hs,h⟩ := bind_eq_ok.mp h
  have hnone : ([] : List ResolutionView).length = 0 * numLayers := by simp
  obtain ⟨rfl,hbound,hall⟩ := appendLayeredPacket_foldlM hnone hs
  cases h
  exact ⟨by simp,by simp,hbound,hall⟩

end

/-! ## Order of the descriptors -/

section
variable {layeredPackets : List LayeredPreparedPacket} {numLayers : ℕ}
variable {order : PacketizationProgressionOrder} {d d' : PacketDescriptor}

/-- The descriptor of a layer of a state. -/
structure IsLayer (layeredPackets : List LayeredPreparedPacket) (numLayers : ℕ)
    (d : PacketDescriptor) (packet : LayeredPreparedPacket) : Prop where
  state : layeredPackets[d.stateIndex]? = some packet
  index : d.packetIndex = d.stateIndex * numLayers + d.layer
  layer : d.layer < numLayers
  resolution : d.resolution = packet.resolution
  component : d.component = packet.component
  precinct : d.precinct = packet.precinct

theorem mem_descriptors : d ∈ layeredPackets.zipIdx.flatMap (stateDescriptors numLayers) ↔
    ∃ packet, IsLayer layeredPackets numLayers d packet := by
  rw [List.mem_flatMap]
  constructor
  · intro ⟨packet,hpacket,hd⟩
    obtain ⟨l,hl,rfl⟩ := List.mem_map.mp hd
    exact ⟨packet.1,List.mem_zipIdx_iff_getElem?.mp hpacket,rfl,List.mem_range.mp hl,rfl,rfl,rfl⟩
  · intro ⟨packet,h⟩
    refine ⟨(packet,d.stateIndex),List.mem_zipIdx_iff_getElem?.mpr h.state,
      List.mem_map.mpr ⟨d.layer,List.mem_range.mpr h.layer,?_⟩⟩
    obtain ⟨-,hindex,-,hresolution,hcomponent,hprecinct⟩ := h
    cases d
    simp_all

/-- The packet of a descriptor is that of its layer. -/
theorem IsLayer.packet {packet : LayeredPreparedPacket} (h : IsLayer layeredPackets numLayers d packet) :
    (layeredPackets.flatMap fun p => (List.range numLayers).map p.view)[d.packetIndex]? =
      some (packet.view d.layer) := by
  obtain ⟨hstate,hindex,hlayer,-⟩ := h
  rw [hindex]
  generalize d.stateIndex = i at hstate
  induction layeredPackets generalizing i with
  | nil => cases hstate
  | cons first layeredPackets ih =>
      rw [List.flatMap_cons]
      cases i with
      | zero =>
          cases hstate
          rw [List.getElem?_append_left (by simpa using hlayer)]
          simp [hlayer]
      | succ i =>
          rw [List.getElem?_append_right (by simp [Nat.succ_mul]; omega)]
          have hsub : (i + 1) * numLayers + d.layer -
              ((List.range numLayers).map first.view).length = i * numLayers + d.layer := by
            rw [List.length_map,List.length_range,Nat.succ_mul]
            omega
          rw [hsub]
          exact ih i hstate

/-- The keys of one state compare as the layers do. -/
theorem IsLayer.layer_le {packet : LayeredPreparedPacket}
    (h : IsLayer layeredPackets numLayers d packet) (h' : IsLayer layeredPackets numLayers d' packet)
    (hle : PacketPlan.progressionKey order d ≤ PacketPlan.progressionKey order d') :
    d.layer ≤ d'.layer := by
  by_contra hlt
  apply absurd hle
  rw [not_le]
  cases order <;>
    simp [PacketPlan.progressionKey,h.resolution,h'.resolution,h.component,h'.component,h.precinct,
      h'.precinct,List.cons_lt_cons_iff,not_le.mp hlt]

theorem descriptors_nodup :
    (layeredPackets.zipIdx.flatMap (stateDescriptors numLayers)).Nodup := by
  rw [List.nodup_flatMap]
  refine ⟨fun packet _ => ?_,?_⟩
  · refine List.Nodup.map (fun l l' heq => ?_) List.nodup_range
    exact congrArg PacketDescriptor.layer heq
  · refine List.Pairwise.imp_of_mem (R := fun p p' => p.2 ≠ p'.2) (fun hp hp' hne d hd hd' => ?_) ?_
    · obtain ⟨l,-,rfl⟩ := List.mem_map.mp hd
      obtain ⟨l',-,heq⟩ := List.mem_map.mp hd'
      exact hne (congrArg PacketDescriptor.stateIndex heq).symm
    · have hnodup : (layeredPackets.zipIdx.map Prod.snd).Nodup := by
        rw [List.zipIdx_map_snd]
        exact List.nodup_range'
      exact List.pairwise_map.mp hnodup

/-- The descriptors in the progression. -/
def descriptorsInOrder (layeredPackets : List LayeredPreparedPacket) (numLayers : ℕ)
    (order : PacketizationProgressionOrder) : List PacketDescriptor :=
  sortPacketDescriptorsForProgression (layeredPackets.zipIdx.flatMap (stateDescriptors numLayers)) order

theorem mem_descriptorsInOrder : d ∈ descriptorsInOrder layeredPackets numLayers order ↔
    ∃ packet, IsLayer layeredPackets numLayers d packet :=
  KeyedLists.mem_sortByKey.trans mem_descriptors

/-- Whatever the progression, the layers of a state come one after the other. -/
theorem descriptorsInOrder_layers :
    (descriptorsInOrder layeredPackets numLayers order).Pairwise fun d d' =>
      d.stateIndex = d'.stateIndex → d.layer < d'.layer := by
  have htotal : Std.Total fun a b : PacketDescriptor =>
      PacketPlan.progressionKey order a ≤ PacketPlan.progressionKey order b :=
    ⟨fun a b => le_total _ _⟩
  have htrans : IsTrans PacketDescriptor fun a b =>
      PacketPlan.progressionKey order a ≤ PacketPlan.progressionKey order b :=
    ⟨fun _ _ _ => le_trans⟩
  have hsorted : (descriptorsInOrder layeredPackets numLayers order).Pairwise fun a b =>
      PacketPlan.progressionKey order a ≤ PacketPlan.progressionKey order b :=
    List.pairwise_insertionSort _ _
  have hnodup : (descriptorsInOrder layeredPackets numLayers order).Nodup :=
    (List.perm_insertionSort _ _).nodup_iff.mpr descriptors_nodup
  refine (hsorted.and hnodup).imp_of_mem (fun {d d'} hd hd' h hstate => ?_)
  obtain ⟨packet,hlayer⟩ := mem_descriptorsInOrder.mp hd
  obtain ⟨packet',hlayer'⟩ := mem_descriptorsInOrder.mp hd'
  have hpacket := hlayer'.state
  rw [← hstate,hlayer.state] at hpacket
  cases hpacket
  refine lt_of_le_of_ne (hlayer.layer_le hlayer' h.1) fun hsame => h.2 ?_
  obtain ⟨-,hindex,-,hresolution,hcomponent,hprecinct⟩ := hlayer
  obtain ⟨-,hindex',-,hresolution',hcomponent',hprecinct'⟩ := hlayer'
  cases d
  cases d'
  simp_all

/-- Every layer of a state comes once. -/
theorem descriptorsInOrder_state {stateIndex : ℕ} (h : stateIndex < layeredPackets.length) :
    (((descriptorsInOrder layeredPackets numLayers order).filter fun d =>
      d.stateIndex = stateIndex).map (·.layer)) = List.range numLayers := by
  have hlt : (((descriptorsInOrder layeredPackets numLayers order).filter fun d =>
      d.stateIndex = stateIndex).map (·.layer)).Pairwise (· < ·) := by
    refine List.pairwise_map.mpr ?_
    refine List.Pairwise.imp_of_mem (fun {d d'} hd hd' hlayers => ?_)
      (descriptorsInOrder_layers.filter _)
    have hd := of_decide_eq_true (List.mem_filter.mp hd).2
    have hd' := of_decide_eq_true (List.mem_filter.mp hd').2
    exact hlayers (hd.trans hd'.symm)
  refine List.Perm.eq_of_pairwise (fun a b _ _ hab hba => absurd hab (lt_asymm hba)) hlt
    List.pairwise_lt_range ?_
  refine (List.perm_ext_iff_of_nodup (hlt.imp ne_of_lt) List.nodup_range).mpr fun layer => ?_
  rw [List.mem_map,List.mem_range]
  constructor
  · intro ⟨d,hd,hlayer⟩
    obtain ⟨packet,hpacket⟩ := mem_descriptorsInOrder.mp (List.mem_filter.mp hd).1
    exact hlayer ▸ hpacket.layer
  · intro hlayer
    refine ⟨⟨stateIndex * numLayers + layer,stateIndex,layer,layeredPackets[stateIndex].resolution,
      layeredPackets[stateIndex].component,layeredPackets[stateIndex].precinct⟩,?_,rfl⟩
    refine List.mem_filter.mpr ⟨mem_descriptorsInOrder.mpr ⟨layeredPackets[stateIndex],?_⟩,
      decide_eq_true rfl⟩
    exact ⟨List.getElem?_eq_getElem h,rfl,hlayer,rfl,rfl,rfl⟩

end

end J2kNative.LayeredPackets
