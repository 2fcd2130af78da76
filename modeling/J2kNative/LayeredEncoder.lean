import J2kNative.LayerAssignment
import J2kNative.LayeredRoundTrip

/-!
# Encoder of layered packets

The blocks of all precincts are encoded with termination on each pass. Their segments go to the
layers evenly, or by a search under byte budgets whose outcome is then put in order, and the packets
of the layers are built. Whatever the search finds, a decoder gets the coefficients back. Modelled
are classic blocks; the distortion of a segment, a floating-point number, is a parameter.
-/
namespace J2kNative.LayeredPackets
open Fallible PacketAssembly PacketParsing ClassicEncoder LayerAssignment
open PacketPlan (PacketDescriptor PacketizationProgressionOrder)
open PayloadPlan (EncodedCodeBlock EncodedSegment)
open RoiPlan (NativeEncodePipelineError)

/-! ## Prepared packets -/

structure PreparedEncodeCodeBlock where
  width : ℕ
  height : ℕ
  coefficient : ℕ → ℕ → ℤ

structure PreparedEncodeSubband where
  numCbsX : ℕ
  numCbsY : ℕ
  codeBlocks : List PreparedEncodeCodeBlock
  subBandType : TileTree.SubBandType
  totalBitplanes : ℕ

structure PreparedResolutionPacket where
  component : ℕ
  resolution : ℕ
  precinct : ℕ
  subbands : List PreparedEncodeSubband

def classicMultilayerCodeBlockStyle : ClassicDecoder.CodeBlockStyle :=
  ⟨false,false,true,false,false⟩

/-- A block of a sub-band as the block encoder takes it. -/
def PreparedEncodeSubband.codeBlock (subband : PreparedEncodeSubband)
    (block : PreparedEncodeCodeBlock) : CodeBlock :=
  ⟨block.width,block.height,block.coefficient,subband.subBandType,classicMultilayerCodeBlockStyle⟩

/-! ## Encoding of blocks -/

/-- The errors of the stages. -/
inductive LayeredEncodeError where
  | block (error : Failure)
  | assignment (error : NativeEncodePipelineError)
  | packets (what : String)
  deriving DecidableEq, Repr

structure ClassicSegmentLocation where
  packetIdx : ℕ
  subbandIdx : ℕ
  blockIdx : ℕ
  segmentIdx : ℕ
  deriving DecidableEq, Repr

structure LayeredRateControlState (F : Type) where
  classicCandidates : List (SegmentAssignmentCandidate F)
  classicLocations : List ClassicSegmentLocation
  classicBlockIndex : ℕ

section
variable {F : Type} (distortionDelta : CodeBlock → EncodedSegment → F)
variable (numLayers : ℕ) (qualityLayerByteTargets : List ℕ)

/-- The layers of the segments of a block; under budgets they are those before the search, and the
segments become candidates of it. -/
def classicSegmentLayers (b : CodeBlock) (packetIdx subbandIdx blockIdx : ℕ)
    (rateControl : LayeredRateControlState F) (encoded : EncodedCodeBlock) :
    Except LayeredEncodeError (List ℕ × LayeredRateControlState F) :=
  if qualityLayerByteTargets.isEmpty then do
    let segmentLayers ← (classicUnbudgetedSegmentLayers encoded numLayers).mapError .packets
    .ok (segmentLayers,rateControl)
  else
    .ok (List.replicate encoded.segments.length (numLayers - 1),
      { rateControl with
        classicCandidates := rateControl.classicCandidates ++ encoded.segments.zipIdx.map fun s =>
          ⟨rateControl.classicBlockIndex,s.2,s.1.dataLength,distortionDelta b s.1⟩
        classicLocations := rateControl.classicLocations ++ encoded.segments.zipIdx.map fun s =>
          ⟨packetIdx,subbandIdx,blockIdx,s.2⟩ })

/-- One turn of the loop of `encode_layered_classic_subband`. -/
def encodeLayeredClassicBlock (packetIdx subbandIdx : ℕ) (subband : PreparedEncodeSubband)
    (s : List LayeredPreparedBlock × LayeredRateControlState F) (block : PreparedEncodeCodeBlock) :
    Except LayeredEncodeError (List LayeredPreparedBlock × LayeredRateControlState F) := do
  let encoded ← ((subband.codeBlock block).tryEncodeSegmentedCodeBlock
    subband.totalBitplanes).mapError .block
  let r ← classicSegmentLayers distortionDelta numLayers qualityLayerByteTargets
    (subband.codeBlock block) packetIdx subbandIdx s.1.length s.2 encoded
  .ok (s.1 ++ [⟨encoded,r.1⟩],{ r.2 with classicBlockIndex := r.2.classicBlockIndex + 1 })

def encodeLayeredClassicSubband (packetIdx : ℕ)
    (s : List LayeredPreparedSubband × LayeredRateControlState F)
    (subband : PreparedEncodeSubband) :
    Except LayeredEncodeError (List LayeredPreparedSubband × LayeredRateControlState F) := do
  let r ← subband.codeBlocks.foldlM (encodeLayeredClassicBlock distortionDelta numLayers
    qualityLayerByteTargets packetIdx s.1.length subband) ([],s.2)
  .ok (s.1 ++ [⟨subband.numCbsX,subband.numCbsY,r.1⟩],r.2)

def appendLayeredPreparedPacket (s : List LayeredPreparedPacket × LayeredRateControlState F)
    (packet : PreparedResolutionPacket) :
    Except LayeredEncodeError (List LayeredPreparedPacket × LayeredRateControlState F) := do
  let r ← packet.subbands.foldlM (encodeLayeredClassicSubband distortionDelta numLayers
    qualityLayerByteTargets s.1.length) ([],s.2)
  .ok (s.1 ++ [⟨packet.component,packet.resolution,packet.precinct,r.1⟩],r.2)

/-! ## Search under budgets -/

/-- `classic_segment_layer_mut` and the assignment through it. -/
def setClassicSegmentLayer (layeredPackets : List LayeredPreparedPacket)
    (assignment : ClassicSegmentLocation × ℕ) :
    Except NativeEncodePipelineError (List LayeredPreparedPacket) :=
  match layeredPackets[assignment.1.packetIdx]? with
  | none => .error (.internalInvariant "classic PCRD packet index mismatch")
  | some packet =>
      match packet.subbands[assignment.1.subbandIdx]? with
      | none => .error (.internalInvariant "classic PCRD subband index mismatch")
      | some subband =>
          match subband.blocks[assignment.1.blockIdx]? with
          | none => .error (.internalInvariant "classic PCRD block index mismatch")
          | some block =>
              if assignment.1.segmentIdx < block.segmentLayers.length then
                .ok (layeredPackets.set assignment.1.packetIdx { packet with
                  subbands := packet.subbands.set assignment.1.subbandIdx { subband with
                    blocks := subband.blocks.set assignment.1.blockIdx { block with
                      segmentLayers :=
                        block.segmentLayers.set assignment.1.segmentIdx assignment.2 } } })
              else .error (.internalInvariant "classic PCRD segment index mismatch")

/-- No segment comes before the one in front of it. -/
def monotonicLayers : ℕ → List ℕ → List ℕ
  | _, [] => []
  | minLayer, layer :: layers =>
      let layer := if layer < minLayer then minLayer else layer
      layer :: monotonicLayers layer layers

def enforceClassicSegmentLayerMonotonicity (layeredPackets : List LayeredPreparedPacket) :
    List LayeredPreparedPacket :=
  layeredPackets.map fun packet => { packet with
    subbands := packet.subbands.map fun subband => { subband with
      blocks := subband.blocks.map fun block => { block with
        segmentLayers := monotonicLayers 0 block.segmentLayers } } }

variable (A : DoubleArithmetic F)

/-- `apply_budget_assignments` of classic blocks; a vector's capacity is at least its length. -/
def applyBudgetAssignments (layeredPackets : List LayeredPreparedPacket)
    (rateControl : LayeredRateControlState F) :
    Except NativeEncodePipelineError (List LayeredPreparedPacket) :=
  if qualityLayerByteTargets.isEmpty then .ok layeredPackets
  else do
    let assignments ← assignClassicSegmentLayersBySlope A rateControl.classicCandidates
      rateControl.classicCandidates.length numLayers qualityLayerByteTargets
    if assignments.length ≠ rateControl.classicLocations.length then
      .error (.internalInvariant "classic PCRD assignment location mismatch")
    else do
      let layeredPackets ←
        (rateControl.classicLocations.zip assignments).foldlM setClassicSegmentLayer layeredPackets
      .ok (enforceClassicSegmentLayerMonotonicity layeredPackets)

/-- `encode_prepared_resolution_packets_layered_accounted`, without the accounts of its memory. -/
def encodePreparedResolutionPacketsLayered (preparedPackets : List PreparedResolutionPacket)
    (progressionOrder : PacketizationProgressionOrder) :
    Except LayeredEncodeError (List ResolutionView × List PacketDescriptor) :=
  if numLayers = 0 then .error (.packets "quality layer count must be non-zero")
  else do
    let s ← preparedPackets.foldlM (appendLayeredPreparedPacket distortionDelta numLayers
      qualityLayerByteTargets) ([],⟨[],[],0⟩)
    let layeredPackets ←
      (applyBudgetAssignments numLayers qualityLayerByteTargets A s.1 s.2).mapError .assignment
    (buildLayerPackets layeredPackets numLayers progressionOrder).mapError .packets

end

/-! ## What the encoder keeps -/

/-- A block with the segments that the encoder made of it, each in a layer; without budgets the
layers are in order. -/
structure EncodesBlock (numLayers : ℕ) (targets : List ℕ) (subband : PreparedEncodeSubband)
    (source : PreparedEncodeCodeBlock) (block : LayeredPreparedBlock) : Prop where
  encoded : (subband.codeBlock source).tryEncodeSegmentedCodeBlock subband.totalBitplanes =
    .ok block.encoded
  room : (subband.codeBlock source).numBitplanes ≤ 63
  assigned : block.Assigned numLayers
  sorted : targets = [] → block.segmentLayers.Pairwise (· ≤ ·)

structure EncodesSubband (numLayers : ℕ) (targets : List ℕ) (source : PreparedEncodeSubband)
    (subband : LayeredPreparedSubband) : Prop where
  numCbsX : subband.numCbsX = source.numCbsX
  numCbsY : subband.numCbsY = source.numCbsY
  blocks : List.Forall₂ (EncodesBlock numLayers targets source) source.codeBlocks subband.blocks

structure EncodesPacket (numLayers : ℕ) (targets : List ℕ) (source : PreparedResolutionPacket)
    (packet : LayeredPreparedPacket) : Prop where
  component : packet.component = source.component
  resolution : packet.resolution = source.resolution
  precinct : packet.precinct = source.precinct
  subbands : List.Forall₂ (EncodesSubband numLayers targets) source.subbands packet.subbands

/-- A loop that pushes one item for each of a list. -/
theorem foldlM_pushed {α β σ ε : Type} {f : List β × σ → α → Except ε (List β × σ)}
    {R : α → β → Prop} {l done : List α} {s s' : List β × σ}
    (hstep : ∀ a ∈ l, ∀ s s', f s a = .ok s' → ∃ b, s'.1 = s.1 ++ [b] ∧ R a b)
    (hdone : List.Forall₂ R done s.1) (h : l.foldlM f s = .ok s') :
    List.Forall₂ R (done ++ l) s'.1 := by
  induction l generalizing done s with
  | nil =>
      cases h
      rwa [List.append_nil]
  | cons a l ih =>
      rw [List.foldlM_cons] at h
      obtain ⟨next,hnext,h⟩ := bind_eq_ok.mp h
      obtain ⟨b,hb,hab⟩ := hstep a List.mem_cons_self s next hnext
      have hnow : List.Forall₂ R (done ++ [a]) next.1 := by
        rw [hb]
        exact List.rel_append hdone (.cons hab .nil)
      have hall := ih (fun a ha => hstep a (List.mem_cons_of_mem _ ha)) hnow h
      rwa [List.append_assoc] at hall

/-- An item may be changed for another that is related to the same. -/
theorem forall₂_set {α β : Type} {R : α → β → Prop} {l : List α} {l' : List β} {i : ℕ} {b b' : β}
    (h : List.Forall₂ R l l') (hb : l'[i]? = some b) (hchange : ∀ a, R a b → R a b') :
    List.Forall₂ R l (l'.set i b') := by
  induction h generalizing i with
  | nil => cases hb
  | cons hab hrest ih =>
      cases i with
      | zero =>
          cases hb
          exact .cons (hchange _ hab) hrest
      | succ i => exact .cons hab (ih hb)

section
variable {F : Type} {distortionDelta : CodeBlock → EncodedSegment → F} {numLayers : ℕ}
variable {targets : List ℕ} {packetIdx subbandIdx : ℕ}

theorem classicSegmentLayers_ok {b : CodeBlock} {blockIdx totalBitplanes : ℕ}
    {s s' : LayeredRateControlState F} {encoded : EncodedCodeBlock} {segmentLayers : List ℕ}
    (hlayers : 0 < numLayers)
    (hencoded : b.tryEncodeSegmentedCodeBlock totalBitplanes = .ok encoded)
    (hterminated : b.style.terminationOnEachPass = true) (hroom : b.numBitplanes ≤ 63)
    (h : classicSegmentLayers distortionDelta numLayers targets b packetIdx subbandIdx blockIdx s
      encoded = .ok (segmentLayers,s')) :
    (⟨encoded,segmentLayers⟩ : LayeredPreparedBlock).Assigned numLayers ∧
      (targets = [] → segmentLayers.Pairwise (· ≤ ·)) := by
  unfold classicSegmentLayers at h
  split_ifs at h with hbudget
  · obtain ⟨layers,heven,h⟩ := bind_eq_ok.mp h
    cases h
    have hlayer := classicUnbudgetedSegmentLayers_ok hencoded hterminated hroom hlayers
    rw [mapError_eq_ok,hlayer] at heven
    cases heven
    obtain ⟨-,hcount,-⟩ := onePass_of_ok hencoded hterminated hroom
    exact ⟨evenLayers_assigned hlayers hcount,fun _ => evenLayers_sorted⟩
  · cases h
    refine ⟨⟨List.length_replicate,?_⟩,fun hnone => absurd hnone (by simpa using hbudget)⟩
    intro layer hlayer
    rw [List.eq_of_mem_replicate hlayer]
    omega

/-- Step lemma: a turn pushes an encoded block. -/
theorem encodeLayeredClassicBlock_ok {subband : PreparedEncodeSubband}
    {block : PreparedEncodeCodeBlock} (hlayers : 0 < numLayers)
    (hroom : (subband.codeBlock block).numBitplanes ≤ 63)
    {s s' : List LayeredPreparedBlock × LayeredRateControlState F}
    (h : encodeLayeredClassicBlock distortionDelta numLayers targets packetIdx subbandIdx subband s
      block = .ok s') :
    ∃ b, s'.1 = s.1 ++ [b] ∧ EncodesBlock numLayers targets subband block b := by
  obtain ⟨encoded,hencoded,h⟩ := bind_eq_ok.mp h
  obtain ⟨r,hr,h⟩ := bind_eq_ok.mp h
  cases h
  have hencoded := mapError_eq_ok.mp hencoded
  obtain ⟨hassigned,hsorted⟩ := classicSegmentLayers_ok hlayers hencoded rfl hroom hr
  exact ⟨_,rfl,hencoded,hroom,hassigned,hsorted⟩

/-- The bit planes of all blocks fit into the coefficients of the decoder. -/
def Fitting (packet : PreparedResolutionPacket) : Prop :=
  ∀ subband ∈ packet.subbands, ∀ block ∈ subband.codeBlocks,
    (subband.codeBlock block).numBitplanes ≤ 63

theorem encodeLayeredClassicSubband_ok {subband : PreparedEncodeSubband} (hlayers : 0 < numLayers)
    (hroom : ∀ block ∈ subband.codeBlocks, (subband.codeBlock block).numBitplanes ≤ 63)
    {s s' : List LayeredPreparedSubband × LayeredRateControlState F}
    (h : encodeLayeredClassicSubband distortionDelta numLayers targets packetIdx s subband =
      .ok s') :
    ∃ b, s'.1 = s.1 ++ [b] ∧ EncodesSubband numLayers targets subband b := by
  obtain ⟨r,hr,h⟩ := bind_eq_ok.mp h
  cases h
  have hblocks := foldlM_pushed (fun block hblock _ _ hstep =>
    encodeLayeredClassicBlock_ok hlayers (hroom block hblock) hstep) .nil hr
  exact ⟨_,rfl,rfl,rfl,hblocks⟩

theorem appendLayeredPreparedPacket_ok {packet : PreparedResolutionPacket} (hlayers : 0 < numLayers)
    (hroom : Fitting packet) {s s' : List LayeredPreparedPacket × LayeredRateControlState F}
    (h : appendLayeredPreparedPacket distortionDelta numLayers targets s packet = .ok s') :
    ∃ b, s'.1 = s.1 ++ [b] ∧ EncodesPacket numLayers targets packet b := by
  obtain ⟨r,hr,h⟩ := bind_eq_ok.mp h
  cases h
  have hsubbands := foldlM_pushed (fun subband hsubband _ _ hstep =>
    encodeLayeredClassicSubband_ok hlayers (hroom subband hsubband) hstep) .nil hr
  exact ⟨_,rfl,rfl,rfl,rfl,hsubbands⟩

/-! ## Layers in order -/

variable {preparedPackets : List PreparedResolutionPacket}
variable {layeredPackets layeredPackets' : List LayeredPreparedPacket}

/-- Step lemma: another layer for a segment. -/
theorem setClassicSegmentLayer_ok (htargets : targets ≠ [])
    (hall : List.Forall₂ (EncodesPacket numLayers targets) preparedPackets layeredPackets)
    {assignment : ClassicSegmentLocation × ℕ} (hlt : assignment.2 < numLayers)
    (h : setClassicSegmentLayer layeredPackets assignment = .ok layeredPackets') :
    List.Forall₂ (EncodesPacket numLayers targets) preparedPackets layeredPackets' := by
  unfold setClassicSegmentLayer at h
  split at h
  · cases h
  · rename_i packet hpacket
    split at h
    · cases h
    · rename_i subband hsubband
      split at h
      · cases h
      · rename_i block hblock
        split_ifs at h with hsegment
        cases h
        apply forall₂_set hall hpacket
        intro source hsource
        refine ⟨hsource.component,hsource.resolution,hsource.precinct,?_⟩
        apply forall₂_set hsource.subbands hsubband
        intro source hsource
        refine ⟨hsource.numCbsX,hsource.numCbsY,?_⟩
        apply forall₂_set hsource.blocks hblock
        intro source hsource
        refine ⟨hsource.encoded,hsource.room,⟨?_,?_⟩,fun hnone => absurd hnone htargets⟩
        · rw [List.length_set]
          exact hsource.assigned.1
        · intro layer hlayer
          rcases List.mem_or_eq_of_mem_set hlayer with hlayer | rfl
          · exact hsource.assigned.2 layer hlayer
          · exact hlt

theorem monotonicLayers_length (minLayer : ℕ) (layers : List ℕ) :
    (monotonicLayers minLayer layers).length = layers.length := by
  induction layers generalizing minLayer with
  | nil => rfl
  | cons layer layers ih => simp [monotonicLayers,ih]

theorem le_of_mem_monotonicLayers {minLayer : ℕ} {layers : List ℕ} :
    ∀ layer ∈ monotonicLayers minLayer layers, minLayer ≤ layer := by
  induction layers generalizing minLayer with
  | nil => nofun
  | cons layer layers ih =>
      have hle : minLayer ≤ if layer < minLayer then minLayer else layer := by
        split_ifs <;> omega
      intro layer' hlayer'
      rcases List.mem_cons.mp hlayer' with rfl | hlayer'
      · exact hle
      · exact hle.trans (ih layer' hlayer')

theorem monotonicLayers_sorted (minLayer : ℕ) (layers : List ℕ) :
    (monotonicLayers minLayer layers).Pairwise (· ≤ ·) := by
  induction layers generalizing minLayer with
  | nil => exact .nil
  | cons layer layers ih => exact .cons le_of_mem_monotonicLayers (ih _)

theorem monotonicLayers_lt {minLayer : ℕ} {layers : List ℕ} (hmin : minLayer < numLayers)
    (h : ∀ layer ∈ layers, layer < numLayers) :
    ∀ layer ∈ monotonicLayers minLayer layers, layer < numLayers := by
  induction layers generalizing minLayer with
  | nil => nofun
  | cons layer layers ih =>
      obtain ⟨hlayer,h⟩ := List.forall_mem_cons.mp h
      have hlt : (if layer < minLayer then minLayer else layer) < numLayers := by
        split_ifs <;> omega
      intro layer' hlayer'
      rcases List.mem_cons.mp hlayer' with rfl | hlayer'
      · exact hlt
      · exact ih hlt h layer' hlayer'

theorem enforce_encodes (hlayers : 0 < numLayers)
    (hall : List.Forall₂ (EncodesPacket numLayers targets) preparedPackets layeredPackets) :
    List.Forall₂ (EncodesPacket numLayers []) preparedPackets
      (enforceClassicSegmentLayerMonotonicity layeredPackets) := by
  unfold enforceClassicSegmentLayerMonotonicity
  rw [List.forall₂_map_right_iff]
  apply hall.imp
  intro packet layered hpacket
  refine ⟨hpacket.component,hpacket.resolution,hpacket.precinct,?_⟩
  rw [List.forall₂_map_right_iff]
  apply hpacket.subbands.imp
  intro subband layered hsubband
  refine ⟨hsubband.numCbsX,hsubband.numCbsY,?_⟩
  rw [List.forall₂_map_right_iff]
  apply hsubband.blocks.imp
  intro block layered hblock
  refine ⟨hblock.encoded,hblock.room,⟨?_,?_⟩,fun _ => monotonicLayers_sorted _ _⟩
  · rw [monotonicLayers_length]
    exact hblock.assigned.1
  · exact monotonicLayers_lt hlayers hblock.assigned.2

theorem assignClassic_lt {A : DoubleArithmetic F} {candidates : List (SegmentAssignmentCandidate F)}
    {candidateCapacity : ℕ} {layers : List ℕ} (hlayers : 0 < numLayers)
    (h : assignClassicSegmentLayersBySlope A candidates candidateCapacity numLayers targets =
      .ok layers) : ∀ layer ∈ layers, layer < numLayers := by
  obtain ⟨n,-,h⟩ := bind_eq_ok.mp h
  split_ifs at h
  · cases h
    nofun
  · exact ((assignSegmentLayers_spec hlayers).1 layers h).layer_lt

theorem applyBudgetAssignments_ok {A : DoubleArithmetic F} {rateControl : LayeredRateControlState F}
    (hlayers : 0 < numLayers)
    (hall : List.Forall₂ (EncodesPacket numLayers targets) preparedPackets layeredPackets)
    (h : applyBudgetAssignments numLayers targets A layeredPackets rateControl =
      .ok layeredPackets') :
    List.Forall₂ (EncodesPacket numLayers []) preparedPackets layeredPackets' := by
  unfold applyBudgetAssignments at h
  split_ifs at h with hbudget
  · cases h
    rwa [← List.isEmpty_iff.mp hbudget]
  · obtain ⟨assignments,hassign,h⟩ := bind_eq_ok.mp h
    have hlt := assignClassic_lt hlayers hassign
    split_ifs at h
    obtain ⟨assigned,hset,h⟩ := bind_eq_ok.mp h
    cases h
    have htargets : targets ≠ [] := by simpa using hbudget
    have hassigned := foldlM_invariant (P := fun layered =>
        List.Forall₂ (EncodesPacket numLayers targets) preparedPackets layered)
      (fun assignment hmem _ _ hbefore hstep => setClassicSegmentLayer_ok htargets hbefore
        (hlt _ (List.of_mem_zip hmem).2) hstep) hall hset
    exact enforce_encodes hlayers hassigned

end

/-! ## Round trip -/

def PreparedResolutionPacket.place (packet : PreparedResolutionPacket) : PacketPlace :=
  ⟨packet.resolution,packet.component,packet.precinct⟩

/-- The precincts that a decoder lays out for a packet. -/
def PreparedResolutionPacket.precincts (packet : PreparedResolutionPacket) (numLayers : ℕ) :
    List Precinct :=
  packet.subbands.map fun subband =>
    ⟨.new subband.numCbsX subband.numCbsY,.new subband.numCbsX subband.numCbsY,
      (List.range subband.codeBlocks.length).map (freshStoredBlock subband.numCbsX numLayers)⟩

/-- What is held of a block is decoded to its coefficients. -/
def DecodesFrom (subband : PreparedEncodeSubband) (block : PreparedEncodeCodeBlock)
    (held : BlockContents) : Prop :=
  ∀ strict, ∃ f, blockCoefficients held block.width block.height subband.totalBitplanes
      subband.subBandType classicMultilayerCodeBlockStyle strict = .ok f ∧
    ∀ x < block.width, ∀ y < block.height, f x y = block.coefficient x y

section
variable {F : Type} {distortionDelta : CodeBlock → EncodedSegment → F} {numLayers : ℕ}
variable {targets : List ℕ} {source : PreparedResolutionPacket} {packet : LayeredPreparedPacket}

theorem EncodesPacket.place (h : EncodesPacket numLayers targets source packet) :
    packet.place = source.place := by
  unfold LayeredPreparedPacket.place PreparedResolutionPacket.place
  rw [h.resolution,h.component,h.precinct]

theorem EncodesPacket.precincts (h : EncodesPacket numLayers targets source packet) :
    packet.precincts numLayers = source.precincts numLayers := by
  unfold LayeredPreparedPacket.precincts LayeredPreparedPacket.view
  rw [List.map_map]
  apply map_eq_of_forall₂
  apply h.subbands.imp
  intro subband layered hsubband
  simp [freshPrecinct,hsubband.numCbsX,hsubband.numCbsY,hsubband.blocks.length_eq]

theorem EncodesBlock.terminated {subband : PreparedEncodeSubband} {block : PreparedEncodeCodeBlock}
    {layered : LayeredPreparedBlock} (h : EncodesBlock numLayers [] subband block layered) :
    layered.Terminated numLayers :=
  terminated_of_ok h.encoded rfl h.room (h.sorted rfl) h.assigned

theorem EncodesPacket.terminated (h : EncodesPacket numLayers [] source packet) :
    packet.Terminated numLayers := by
  intro layered hlayered block hblock
  obtain ⟨subband,-,hsubband⟩ := exists_related h.subbands hlayered
  obtain ⟨prepared,-,hencodes⟩ := exists_related hsubband.blocks hblock
  exact hencodes.terminated

/-- All blocks of a precinct are decoded to their coefficients. -/
theorem EncodesPacket.decodes (h : EncodesPacket numLayers [] source packet) :
    List.Forall₂ (fun subband held => List.Forall₂ (DecodesFrom subband) subband.codeBlocks held)
      source.subbands (packet.contents numLayers numLayers) := by
  unfold LayeredPreparedPacket.contents
  rw [List.forall₂_map_right_iff]
  apply h.subbands.imp
  intro subband layered hsubband
  rw [List.forall₂_map_right_iff]
  apply hsubband.blocks.imp
  intro block layered hblock strict
  exact blockCoefficients_contents hblock.encoded rfl hblock.room hblock.terminated strict

/-- Round trip of the layered encoder: under any budgets, with any distortions and any arithmetic
of slopes, in any progression and any tile parts, the coefficients of all blocks come back. -/
theorem encodePreparedResolutionPacketsLayered_round_trip {A : DoubleArithmetic F}
    {preparedPackets : List PreparedResolutionPacket} {order : PacketizationProgressionOrder}
    {packets : List ResolutionView} {descriptors : List PacketDescriptor}
    {infos : List ComponentInfo} {options : PacketMarkerOptions} {reserve : ℕ → ℕ}
    {tile : PacketizedTileData} {packetLimit : Option ℕ} {parts : List TilePartData}
    {storage : Storage} (keepLengths : Bool)
    (hfits : ∀ packet ∈ preparedPackets, Fitting packet)
    (hplaces : (preparedPackets.map (·.place)).Nodup)
    (hencode : encodePreparedResolutionPacketsLayered distortionDelta numLayers targets A
      preparedPackets order = .ok (packets,descriptors))
    (hform : formTracked reserve packets descriptors options = .ok tile)
    (hparts : borrowedTileParts tile packetLimit = .ok parts)
    (hinline : options.separatePacketHeaders = false) (hmarkers : MarkersTold infos options)
    (hstyles : ∀ packet ∈ preparedPackets, ∃ info, infos[packet.component]? = some info ∧
      info.codeBlockStyle.terminationOnEachPass = true)
    (hstorage : ∀ packet ∈ preparedPackets, storage packet.place = packet.precincts numLayers) :
    ∃ storage', parse infos (parts.map (TilePart.of keepLengths)) (descriptors.map progressionData)
        storage = .ok ([],storage') ∧ ∀ packet ∈ preparedPackets,
      List.Forall₂ (fun subband held => List.Forall₂ (DecodesFrom subband) subband.codeBlocks held)
        packet.subbands (storage'.contents packet.place) := by
  unfold encodePreparedResolutionPacketsLayered at hencode
  split_ifs at hencode with hzero
  have hlayers : 0 < numLayers := Nat.pos_of_ne_zero hzero
  obtain ⟨s,hs,hencode⟩ := bind_eq_ok.mp hencode
  obtain ⟨layeredPackets,hassigned,hbuild⟩ := bind_eq_ok.mp hencode
  have hassigned := mapError_eq_ok.mp hassigned
  have hbuild := mapError_eq_ok.mp hbuild
  have hall : List.Forall₂ (EncodesPacket numLayers targets) ([] ++ preparedPackets) s.1 :=
    foldlM_pushed (fun packet hpacket _ _ hstep =>
      appendLayeredPreparedPacket_ok hlayers (hfits packet hpacket) hstep) .nil hs
  have hordered := applyBudgetAssignments_ok hlayers hall hassigned
  have hsame : layeredPackets.map (·.place) = preparedPackets.map (·.place) :=
    map_eq_of_forall₂ (hordered.imp fun _ _ h => h.place)
  have hterminated : ∀ layered ∈ layeredPackets, layered.Terminated numLayers := by
    intro layered hlayered
    obtain ⟨packet,-,h⟩ := exists_related hordered hlayered
    exact h.terminated
  have hstyles' : StylesTerminate infos layeredPackets := by
    intro layered hlayered
    obtain ⟨packet,hpacket,h⟩ := exists_related hordered hlayered
    rw [h.component]
    exact hstyles packet hpacket
  have hstorage' : ∀ layered ∈ layeredPackets,
      storage layered.place = layered.precincts numLayers := by
    intro layered hlayered
    obtain ⟨packet,hpacket,h⟩ := exists_related hordered hlayered
    rw [h.place,h.precincts]
    exact hstorage packet hpacket
  obtain ⟨storage',hparse,hcontents⟩ := layered_parse keepLengths hterminated (hsame ▸ hplaces)
    hbuild hform hparts hinline hmarkers hstyles' hstorage'
  refine ⟨storage',hparse,fun packet hpacket => ?_⟩
  obtain ⟨layered,hlayered,h⟩ := exists_related hordered.flip hpacket
  have h : EncodesPacket numLayers [] packet layered := h
  rw [← h.place,hcontents layered hlayered]
  exact h.decodes

end

/-! ## Two layers with budgets -/

def fourPrepared : PreparedResolutionPacket :=
  ⟨0,0,0,[⟨1,1,[⟨2,2,fun x y => 3 * x - 2 * y⟩],.highLow,3⟩]⟩

def fourPreparedStorage : Storage := fun _ => fourPrepared.precincts 2

theorem fourPrepared_fitting : ∀ packet ∈ [fourPrepared], Fitting packet := by
  simp only [List.forall_mem_singleton,Fitting,fourPrepared]
  exact Nat.size_le.mpr (by decide)

theorem encodePreparedResolutionPacketsLayered_round_trip_fourPrepared : ∃ storage' held f,
    parse [⟨true,true,⟨false,true⟩⟩]
      ([⟨[255,145,0,4,0,0,221,52,144,255,146,11,175,255,111,255,31,255,255,127],[20]⟩,
        ⟨[255,145,0,4,0,1,0,255,146],[9]⟩].map (TilePart.of true))
      ([⟨0,0,0,0,0,0⟩,⟨1,0,1,0,0,0⟩].map progressionData) fourPreparedStorage =
        .ok ([],storage') ∧ storage'.contents ⟨0,0,0⟩ = [[held]] ∧
      blockCoefficients held 2 2 3 .highLow classicMultilayerCodeBlockStyle true = .ok f ∧
        f 0 0 = 0 ∧ f 1 0 = 3 ∧ f 0 1 = -2 ∧ f 1 1 = 1 := by
  have hencode : encodePreparedResolutionPacketsLayered (fun _ s => 1000 - s.startCodingPass) 2
      [0,600] integralSlopes [fourPrepared] .lrcp =
      .ok ([[⟨[⟨[11,175,255,111,255,31,255,255,127],0,0,4,[3,2,2,2],1,false,3,.classic⟩],1,1⟩],
        [⟨[⟨[],0,0,0,[],1,false,3,.classic⟩],1,1⟩]],[⟨0,0,0,0,0,0⟩,⟨1,0,1,0,0,0⟩]) := by
    decide +kernel
  have hform : formTracked id
      [[⟨[⟨[11,175,255,111,255,31,255,255,127],0,0,4,[3,2,2,2],1,false,3,.classic⟩],1,1⟩],
        [⟨[⟨[],0,0,0,[],1,false,3,.classic⟩],1,1⟩]]
      [⟨0,0,0,0,0,0⟩,⟨1,0,1,0,0,0⟩] ⟨true,true,false⟩ =
      .ok ⟨[255,145,0,4,0,0,221,52,144,255,146,11,175,255,111,255,31,255,255,127,255,145,0,4,0,1,
        0,255,146],[20,9],[]⟩ := by
    decide +kernel
  have hparts : borrowedTileParts ⟨[255,145,0,4,0,0,221,52,144,255,146,11,175,255,111,255,31,255,
      255,127,255,145,0,4,0,1,0,255,146],[20,9],[]⟩ (some 1) =
      .ok [⟨[255,145,0,4,0,0,221,52,144,255,146,11,175,255,111,255,31,255,255,127],[20]⟩,
        ⟨[255,145,0,4,0,1,0,255,146],[9]⟩] := by
    decide +kernel
  have hmarkers : MarkersTold [⟨true,true,⟨false,true⟩⟩] ⟨true,true,false⟩ := by
    simp [MarkersTold]
  have hstyles : ∀ packet ∈ [fourPrepared], ∃ info,
      ([⟨true,true,⟨false,true⟩⟩] : List ComponentInfo)[packet.component]? = some info ∧
        info.codeBlockStyle.terminationOnEachPass = true := by
    simp [fourPrepared]
  have hstorage : ∀ packet ∈ [fourPrepared],
      fourPreparedStorage packet.place = packet.precincts 2 := by
    simp [fourPreparedStorage]
  obtain ⟨storage',hparse,hblocks⟩ := encodePreparedResolutionPacketsLayered_round_trip true
    fourPrepared_fitting (by decide) hencode hform hparts rfl hmarkers hstyles hstorage
  have hblocks := hblocks fourPrepared (List.mem_singleton_self _)
  obtain ⟨_,_,hsubband,hnone,hcontents⟩ := List.forall₂_cons_left_iff.mp hblocks
  cases List.forall₂_nil_left_iff.mp hnone
  obtain ⟨held,_,hblock,hnone,rfl⟩ := List.forall₂_cons_left_iff.mp hsubband
  cases List.forall₂_nil_left_iff.mp hnone
  obtain ⟨f,hf,hsame⟩ := hblock true
  exact ⟨storage',held,f,hparse,hcontents,hf,hsame 0 (by decide) 0 (by decide),
    hsame 1 (by decide) 0 (by decide),hsame 0 (by decide) 1 (by decide),
    hsame 1 (by decide) 1 (by decide)⟩

/-! ## What the encoder takes -/

/-- A loop that gets through: a property of the items to come and the state leads on. -/
theorem exists_foldlM {α σ ε : Type} {f : σ → α → Except ε σ} {P : List α → σ → Prop}
    (hstep : ∀ a l s, P (a :: l) s → ∃ s', f s a = .ok s' ∧ P l s') {l : List α} {s : σ}
    (h : P l s) : ∃ s', l.foldlM f s = .ok s' ∧ P [] s' := by
  induction l generalizing s with
  | nil => exact ⟨s,rfl,h⟩
  | cons a l ih =>
      obtain ⟨next,hnext,h⟩ := hstep a l s h
      obtain ⟨s',hs',h⟩ := ih h
      exact ⟨s',by rw [List.foldlM_cons,hnext]; exact hs',h⟩

section
variable {numLayers : ℕ}

theorem exists_appendLayeredSubband {subband : LayeredPreparedSubband}
    {layerPackets : List ResolutionView} (hlength : layerPackets.length = numLayers)
    (h : ∀ block ∈ subband.blocks, block.Terminated numLayers) :
    ∃ layerPackets', appendLayeredSubband numLayers layerPackets subband = .ok layerPackets' ∧
      layerPackets'.length = numLayers := by
  have hstep : ∀ block blocks (subbands : List SubbandView),
      (∀ b ∈ block :: blocks, b.Terminated numLayers) ∧ subbands.length = numLayers →
      ∃ next, appendLayeredBlock numLayers subbands block = .ok next ∧
        (∀ b ∈ blocks, b.Terminated numLayers) ∧ next.length = numLayers := by
    intro block blocks subbands ⟨hall,hlength⟩
    obtain ⟨hblock,hall⟩ := List.forall_mem_cons.mp hall
    unfold appendLayeredBlock
    rw [classicLayerContributions_of_terminated hblock,ok_bind,if_neg (by simp [hlength])]
    exact ⟨_,rfl,hall,by simp [hlength]⟩
  obtain ⟨subbands,hrun,-,hsubbands⟩ := exists_foldlM (P := fun (blocks : List LayeredPreparedBlock)
      (subbands : List SubbandView) =>
        (∀ b ∈ blocks, b.Terminated numLayers) ∧ subbands.length = numLayers) hstep
    (s := List.replicate numLayers ⟨[],subband.numCbsX,subband.numCbsY⟩)
    ⟨h,List.length_replicate⟩
  unfold appendLayeredSubband
  rw [hrun,ok_bind]
  exact ⟨_,rfl,by simp [hlength,hsubbands]⟩

theorem exists_layerPacketsOf {packet : LayeredPreparedPacket} (h : packet.Terminated numLayers) :
    ∃ layerPackets, layerPacketsOf numLayers packet = .ok layerPackets := by
  have hstep : ∀ subband subbands (layerPackets : List ResolutionView),
      (∀ subband' ∈ subband :: subbands, ∀ block ∈ subband'.blocks, block.Terminated numLayers) ∧
        layerPackets.length = numLayers →
      ∃ next, appendLayeredSubband numLayers layerPackets subband = .ok next ∧
        (∀ subband' ∈ subbands, ∀ block ∈ subband'.blocks, block.Terminated numLayers) ∧
          next.length = numLayers := by
    intro subband subbands layerPackets ⟨hall,hlength⟩
    obtain ⟨hsubband,hall⟩ := List.forall_mem_cons.mp hall
    obtain ⟨next,hnext,hnextLength⟩ := exists_appendLayeredSubband hlength hsubband
    exact ⟨next,hnext,hall,hnextLength⟩
  obtain ⟨layerPackets,hrun,-⟩ := exists_foldlM (P := fun (subbands : List LayeredPreparedSubband)
      (layerPackets : List ResolutionView) =>
        (∀ subband ∈ subbands, ∀ block ∈ subband.blocks, block.Terminated numLayers) ∧
          layerPackets.length = numLayers) hstep (s := List.replicate numLayers [])
    ⟨h,List.length_replicate⟩
  exact ⟨layerPackets,hrun⟩

theorem exists_pushLayerPacket {packet : LayeredPreparedPacket} {stateIndex : ℕ}
    {views : List ResolutionView} {s : List ResolutionView × List PacketDescriptor}
    (hcount : s.1.length + views.length ≤ 2 ^ 32) (hlayers : views.length ≤ 256) :
    ∃ s', views.zipIdx.foldlM (pushLayerPacket packet stateIndex) s = .ok s' := by
  have hstep : ∀ z zs (s : List ResolutionView × List PacketDescriptor),
      s.1.length + (z :: zs).length ≤ 2 ^ 32 ∧ (∀ z' ∈ z :: zs, z'.2 < 256) →
      ∃ next, pushLayerPacket packet stateIndex s z = .ok next ∧
        next.1.length + zs.length ≤ 2 ^ 32 ∧ ∀ z' ∈ zs, z'.2 < 256 := by
    intro z zs s ⟨hroom,hall⟩
    obtain ⟨hz,hall⟩ := List.forall_mem_cons.mp hall
    rw [List.length_cons] at hroom
    unfold pushLayerPacket
    rw [if_neg (by omega),if_neg (by omega)]
    refine ⟨_,rfl,?_,hall⟩
    rw [List.length_append,List.length_singleton]
    omega
  have hlayer : ∀ z ∈ views.zipIdx, z.2 < 256 := by
    intro z hz
    have := (List.mem_zipIdx' hz).1
    omega
  obtain ⟨s',hrun,-⟩ := exists_foldlM (P := fun (zs : List (ResolutionView × ℕ))
      (s : List ResolutionView × List PacketDescriptor) =>
        s.1.length + zs.length ≤ 2 ^ 32 ∧ ∀ z ∈ zs, z.2 < 256) hstep
    ⟨by rwa [List.length_zipIdx],hlayer⟩
  exact ⟨s',hrun⟩

/-- Packets of all layers can be built of blocks of terminated passes. -/
theorem exists_buildLayerPackets {layeredPackets : List LayeredPreparedPacket}
    (h : ∀ packet ∈ layeredPackets, packet.Terminated numLayers) (hpos : 0 < numLayers)
    (hlayers : numLayers ≤ 256) (hcount : layeredPackets.length * numLayers ≤ 2 ^ 32)
    (order : PacketizationProgressionOrder) :
    ∃ r, buildLayerPackets layeredPackets numLayers order = .ok r := by
  have hstep : ∀ p ps (s : List ResolutionView × List PacketDescriptor),
      s.1.length + (p :: ps).length * numLayers ≤ 2 ^ 32 ∧
        (∀ p' ∈ p :: ps, p'.1.Terminated numLayers ∧ p'.2 < 2 ^ 32) →
      ∃ next, appendLayeredPacket numLayers s p = .ok next ∧
        next.1.length + ps.length * numLayers ≤ 2 ^ 32 ∧
          ∀ p' ∈ ps, p'.1.Terminated numLayers ∧ p'.2 < 2 ^ 32 := by
    intro p ps s ⟨hroom,hall⟩
    obtain ⟨⟨hterminated,hindex⟩,hall⟩ := List.forall_mem_cons.mp hall
    rw [List.length_cons,Nat.succ_mul] at hroom
    obtain ⟨views,hviews⟩ := exists_layerPacketsOf hterminated
    have hviewsLength : views.length = numLayers := by
      rw [(layerPacketsOf_ok hviews).1,List.length_map,List.length_range]
    obtain ⟨next,hnext⟩ := @exists_pushLayerPacket p.1 p.2 views s (by omega) (by omega)
    have hpushed := (pushLayerPacket_foldlM hnext).1
    unfold appendLayeredPacket
    rw [hviews,ok_bind,if_neg (by omega),hnext]
    refine ⟨next,rfl,?_,hall⟩
    rw [hpushed,List.length_append]
    omega
  have hindices : ∀ p ∈ layeredPackets.zipIdx, p.1.Terminated numLayers ∧ p.2 < 2 ^ 32 := by
    intro p hp
    obtain ⟨hlt,hmem⟩ := List.mem_zipIdx' hp
    constructor
    · rw [hmem]
      exact h _ (List.getElem_mem _)
    · have := Nat.le_mul_of_pos_right layeredPackets.length hpos
      omega
  obtain ⟨s',hrun,-⟩ := exists_foldlM (P := fun (ps : List (LayeredPreparedPacket × ℕ))
      (s : List ResolutionView × List PacketDescriptor) =>
        s.1.length + ps.length * numLayers ≤ 2 ^ 32 ∧
          ∀ p ∈ ps, p.1.Terminated numLayers ∧ p.2 < 2 ^ 32) hstep (s := ([],[]))
    ⟨by simpa using hcount,hindices⟩
  unfold buildLayerPackets
  rw [hrun,ok_bind]
  exact ⟨_,rfl⟩

variable {F : Type} {distortionDelta : CodeBlock → EncodedSegment → F} {packetIdx subbandIdx : ℕ}

/-- The block encoder takes all blocks of the packet. -/
def Encodable (packet : PreparedResolutionPacket) : Prop :=
  ∀ subband ∈ packet.subbands, ∀ block ∈ subband.codeBlocks, ∃ encoded,
    (subband.codeBlock block).tryEncodeSegmentedCodeBlock subband.totalBitplanes = .ok encoded

theorem exists_encodeLayeredClassicBlock {subband : PreparedEncodeSubband}
    {block : PreparedEncodeCodeBlock} (hpos : 0 < numLayers)
    (hroom : (subband.codeBlock block).numBitplanes ≤ 63)
    (h : ∃ encoded, (subband.codeBlock block).tryEncodeSegmentedCodeBlock subband.totalBitplanes =
      .ok encoded) (s : List LayeredPreparedBlock × LayeredRateControlState F) :
    ∃ s', encodeLayeredClassicBlock distortionDelta numLayers [] packetIdx subbandIdx subband s
      block = .ok s' := by
  obtain ⟨encoded,hencoded⟩ := h
  have hlayers : classicSegmentLayers distortionDelta numLayers [] (subband.codeBlock block)
      packetIdx subbandIdx s.1.length s.2 encoded =
        .ok (evenLayers encoded.numCodingPasses numLayers,s.2) := by
    unfold classicSegmentLayers
    rw [if_pos List.isEmpty_nil,classicUnbudgetedSegmentLayers_ok hencoded rfl hroom hpos]
    rfl
  exact ⟨_,bind_eq_ok.mpr ⟨encoded,mapError_eq_ok.mpr hencoded,
    bind_eq_ok.mpr ⟨_,hlayers,rfl⟩⟩⟩

theorem exists_encodeLayeredClassicSubband {subband : PreparedEncodeSubband} (hpos : 0 < numLayers)
    (h : ∀ block ∈ subband.codeBlocks, (subband.codeBlock block).numBitplanes ≤ 63 ∧ ∃ encoded,
      (subband.codeBlock block).tryEncodeSegmentedCodeBlock subband.totalBitplanes = .ok encoded)
    (s : List LayeredPreparedSubband × LayeredRateControlState F) :
    ∃ s', encodeLayeredClassicSubband distortionDelta numLayers [] packetIdx s subband =
      .ok s' := by
  obtain ⟨r,hrun,-⟩ := exists_foldlM (s := (([],s.2) :
      List LayeredPreparedBlock × LayeredRateControlState F))
    (f := encodeLayeredClassicBlock distortionDelta numLayers [] packetIdx s.1.length subband)
    (P := fun blocks _ => ∀ block ∈ blocks, (subband.codeBlock block).numBitplanes ≤ 63 ∧
      ∃ encoded, (subband.codeBlock block).tryEncodeSegmentedCodeBlock subband.totalBitplanes =
        .ok encoded)
    (fun block blocks s hbefore => by
      obtain ⟨⟨hroom,hencoded⟩,hall⟩ := List.forall_mem_cons.mp hbefore
      obtain ⟨s',hs'⟩ := exists_encodeLayeredClassicBlock hpos hroom hencoded s
      exact ⟨s',hs',hall⟩) h
  unfold encodeLayeredClassicSubband
  rw [hrun,ok_bind]
  exact ⟨_,rfl⟩

theorem exists_appendLayeredPreparedPacket {packet : PreparedResolutionPacket}
    (hpos : 0 < numLayers) (hroom : Fitting packet) (h : Encodable packet)
    (s : List LayeredPreparedPacket × LayeredRateControlState F) :
    ∃ s', appendLayeredPreparedPacket distortionDelta numLayers [] s packet = .ok s' := by
  obtain ⟨r,hrun,-⟩ := exists_foldlM (s := (([],s.2) :
      List LayeredPreparedSubband × LayeredRateControlState F))
    (f := encodeLayeredClassicSubband distortionDelta numLayers [] s.1.length)
    (P := fun subbands _ => ∀ subband ∈ subbands, ∀ block ∈ subband.codeBlocks,
      (subband.codeBlock block).numBitplanes ≤ 63 ∧ ∃ encoded,
        (subband.codeBlock block).tryEncodeSegmentedCodeBlock subband.totalBitplanes =
          .ok encoded)
    (fun subband subbands s hbefore => by
      obtain ⟨hsubband,hall⟩ := List.forall_mem_cons.mp hbefore
      obtain ⟨s',hs'⟩ := exists_encodeLayeredClassicSubband hpos hsubband s
      exact ⟨s',hs',hall⟩)
    fun subband hsubband block hblock =>
      ⟨hroom subband hsubband block hblock,h subband hsubband block hblock⟩
  unfold appendLayeredPreparedPacket
  rw [hrun,ok_bind]
  exact ⟨_,rfl⟩

/-- Without budgets the encoder of layered packets refuses only what the block encoder refuses. -/
theorem encodePreparedResolutionPacketsLayered_unbudgeted {A : DoubleArithmetic F}
    {preparedPackets : List PreparedResolutionPacket} (hpos : 0 < numLayers)
    (hlayers : numLayers ≤ 256) (hcount : preparedPackets.length * numLayers ≤ 2 ^ 32)
    (hfits : ∀ packet ∈ preparedPackets, Fitting packet) (order : PacketizationProgressionOrder) :
    (∃ r, encodePreparedResolutionPacketsLayered distortionDelta numLayers [] A preparedPackets
        order = .ok r) ↔ ∀ packet ∈ preparedPackets, Encodable packet := by
  have hencodes : ∀ s, preparedPackets.foldlM (appendLayeredPreparedPacket distortionDelta numLayers
      []) ([],⟨[],[],0⟩) = .ok s →
        List.Forall₂ (EncodesPacket numLayers []) ([] ++ preparedPackets) s.1 := fun s hs =>
    foldlM_pushed (fun packet hpacket _ _ hstep =>
      appendLayeredPreparedPacket_ok hpos (hfits packet hpacket) hstep) .nil hs
  unfold encodePreparedResolutionPacketsLayered
  rw [if_neg hpos.ne']
  constructor
  · intro ⟨r,h⟩ packet hpacket subband hsubband block hblock
    obtain ⟨s,hs,-⟩ := bind_eq_ok.mp h
    obtain ⟨layered,-,hpacket⟩ := exists_related (hencodes s hs).flip hpacket
    obtain ⟨layeredSubband,-,hsubband⟩ := exists_related hpacket.subbands.flip hsubband
    obtain ⟨layeredBlock,-,hblock⟩ := exists_related hsubband.blocks.flip hblock
    exact ⟨_,hblock.encoded⟩
  · intro h
    obtain ⟨s,hs,-⟩ := exists_foldlM (s := (([],⟨[],[],0⟩) :
        List LayeredPreparedPacket × LayeredRateControlState F))
      (f := appendLayeredPreparedPacket distortionDelta numLayers [])
      (P := fun packets _ => ∀ packet ∈ packets, Fitting packet ∧ Encodable packet)
      (fun packet packets s hbefore => by
        obtain ⟨⟨hroom,hpacket⟩,hall⟩ := List.forall_mem_cons.mp hbefore
        obtain ⟨s',hs'⟩ := exists_appendLayeredPreparedPacket hpos hroom hpacket s
        exact ⟨s',hs',hall⟩) fun packet hpacket => ⟨hfits packet hpacket,h packet hpacket⟩
    have hall := hencodes s hs
    have hterminated : ∀ layered ∈ s.1, layered.Terminated numLayers := by
      intro layered hlayered
      obtain ⟨packet,-,hpacket⟩ := exists_related hall hlayered
      exact hpacket.terminated
    have hsame : s.1.length = preparedPackets.length := hall.length_eq.symm
    obtain ⟨r,hr⟩ := exists_buildLayerPackets hterminated hpos hlayers (hsame ▸ hcount) order
    have hbudgets : applyBudgetAssignments numLayers [] A s.1 s.2 = .ok s.1 := by
      unfold applyBudgetAssignments
      rw [if_pos List.isEmpty_nil]
    exact ⟨r,bind_eq_ok.mpr ⟨s,hs,bind_eq_ok.mpr ⟨s.1,mapError_eq_ok.mpr hbudgets,
      mapError_eq_ok.mpr hr⟩⟩⟩

/-- The block of four passes, without budgets and in another progression. -/
theorem encodePreparedResolutionPacketsLayered_unbudgeted_fourPrepared :
    ∃ r, encodePreparedResolutionPacketsLayered (fun _ s => 1000 - s.startCodingPass) 2 []
      integralSlopes [fourPrepared] .rpcl = .ok r := by
  have hencoded : (⟨2,2,fun x y => 3 * x - 2 * y,.highLow,classicMultilayerCodeBlockStyle⟩ :
      CodeBlock).tryEncodeSegmentedCodeBlock 3 =
        .ok ⟨[11,175,255,111,255,31,255,255,127],[⟨0,3,0,1,true⟩,⟨3,2,1,2,true⟩,⟨5,2,2,3,true⟩,
          ⟨7,2,3,4,true⟩],4,1⟩ := by
    decide +kernel
  apply (encodePreparedResolutionPacketsLayered_unbudgeted (by decide) (by decide) (by decide)
    fourPrepared_fitting .rpcl).mpr
  simp only [List.forall_mem_singleton,Encodable,fourPrepared]
  exact ⟨_,hencoded⟩

end

end J2kNative.LayeredPackets
