import J2kNative.LayeredBlocks
import J2kNative.PacketRoundTrip

/-!
# Round trip of the blocks of a tile

All classic blocks of a tile are encoded, their segments go to quality layers, the packets of the
layers are put together in any progression and spread over tile parts. The packets are parsed, and
the decoder makes the coefficients of every block.
-/
namespace J2kNative.LayeredPackets
open Fallible PacketAssembly PacketParsing ClassicEncoder
open PacketPlan (PacketDescriptor PacketizationProgressionOrder)

def LayeredPreparedPacket.place (packet : LayeredPreparedPacket) : PacketPlace :=
  ⟨packet.resolution,packet.component,packet.precinct⟩

/-- What a decoder holds of a precinct behind some layers. -/
def LayeredPreparedPacket.contents (packet : LayeredPreparedPacket) (numLayers layer : ℕ) :
    List (List BlockContents) :=
  packet.subbands.map fun subband => subband.blocks.map (·.contents numLayers layer)

/-- The precincts that a decoder lays out for a packet. -/
def LayeredPreparedPacket.precincts (packet : LayeredPreparedPacket) (numLayers : ℕ) :
    List Precinct :=
  (packet.view 0).map (freshPrecinct numLayers)

def LayeredPreparedPacket.Terminated (packet : LayeredPreparedPacket) (numLayers : ℕ) : Prop :=
  ∀ subband ∈ packet.subbands, ∀ block ∈ subband.blocks, block.Terminated numLayers

section
variable {packet : LayeredPreparedPacket} {numLayers layer : ℕ}
variable {style : ClassicSegments.CodeBlockStyle}

theorem receiveBlocks_view {blocks : List LayeredPreparedBlock}
    (h : ∀ block ∈ blocks, block.Terminated numLayers) (hstyle : style.terminationOnEachPass = true)
    (hlt : layer < numLayers) :
    receiveBlocks style layer (blocks.map (·.view layer)) (blocks.map (·.contents numLayers layer)) =
      some (blocks.map (·.contents numLayers (layer + 1))) := by
  induction blocks with
  | nil => rfl
  | cons block blocks ih =>
      obtain ⟨hblock,h⟩ := List.forall_mem_cons.mp h
      rw [List.map_cons,List.map_cons,receiveBlocks,hblock.receive hstyle hlt,ih h]
      rfl

/-- Step lemma: the packet of a layer brings what the layer has of the precinct. -/
theorem receivePacket_view (h : packet.Terminated numLayers)
    (hstyle : style.terminationOnEachPass = true) (hlt : layer < numLayers) :
    receivePacket style layer (packet.view layer) (packet.contents numLayers layer) =
      some (packet.contents numLayers (layer + 1)) := by
  unfold LayeredPreparedPacket.view LayeredPreparedPacket.contents
  unfold LayeredPreparedPacket.Terminated at h
  generalize packet.subbands = subbands at h
  induction subbands with
  | nil => rfl
  | cons subband subbands ih =>
      obtain ⟨hsubband,h⟩ := List.forall_mem_cons.mp h
      rw [List.map_cons,List.map_cons,receivePacket]
      dsimp only
      rw [receiveBlocks_view hsubband hstyle hlt,ih h]
      rfl

theorem precincts_view (packet : LayeredPreparedPacket) (numLayers layer : ℕ) :
    (packet.view layer).map (freshPrecinct numLayers) = packet.precincts numLayers := by
  unfold LayeredPreparedPacket.precincts LayeredPreparedPacket.view freshPrecinct
  simp

/-- Before the first packet nothing is held. -/
theorem precincts_contents (packet : LayeredPreparedPacket) (numLayers : ℕ) :
    (packet.precincts numLayers).map (·.contents) = packet.contents numLayers 0 := by
  unfold LayeredPreparedPacket.precincts LayeredPreparedPacket.view LayeredPreparedPacket.contents
  rw [List.map_map,List.map_map]
  refine List.map_congr_left fun subband _ => ?_
  have hfresh : ∀ (block : LayeredPreparedBlock) (numCbsX i : ℕ),
      (freshStoredBlock numCbsX numLayers i).contents = block.contents numLayers 0 := by
    intro block numCbsX i
    simp [freshStoredBlock,StoredBlock.contents,LayeredPreparedBlock.contents,
      LayeredPreparedBlock.passesBefore,ClassicSegments.freshBlock]
  apply List.ext_getElem?
  intro i
  by_cases hi : i < subband.blocks.length
  · simp [Precinct.contents,freshPrecinct,hi]
    exact hfresh _ _ _
  · simp [Precinct.contents,freshPrecinct,hi]

end

/-! ## Runs over the descriptors -/

section
variable {layeredPackets : List LayeredPreparedPacket} {numLayers : ℕ}
variable {packets : List ResolutionView} {infos : List ComponentInfo}

/-- Every precinct is held as far as its packets have come, and the others are still to come. -/
structure Received (layeredPackets : List LayeredPreparedPacket) (numLayers : ℕ)
    (descriptors : List PacketDescriptor) (c : Contents) : Prop where
  come : ∀ (i : ℕ) packet, layeredPackets[i]? = some packet → ∃ layer ≤ numLayers,
    c packet.place = packet.contents numLayers layer ∧
      ((descriptors.filter fun d => d.stateIndex = i).map (·.layer)) =
        List.range' layer (numLayers - layer)

/-- Components whose passes are terminated one by one, for all packets. -/
def StylesTerminate (infos : List ComponentInfo) (layeredPackets : List LayeredPreparedPacket) :
    Prop :=
  ∀ packet ∈ layeredPackets, ∃ info, infos[packet.component]? = some info ∧
    info.codeBlockStyle.terminationOnEachPass = true

/-- Step lemma: the next packet is received, and the others are still to come. -/
theorem receiveDescriptor_view {d : PacketDescriptor} {descriptors : List PacketDescriptor}
    {c : Contents} {packet : LayeredPreparedPacket}
    (hplaces : (layeredPackets.map (·.place)).Nodup)
    (hterminated : ∀ packet ∈ layeredPackets, packet.Terminated numLayers)
    (hstyles : StylesTerminate infos layeredPackets)
    (hlayer : IsLayer layeredPackets numLayers d packet)
    (hpacket : packets[d.packetIndex]? = some (packet.view d.layer))
    (h : Received layeredPackets numLayers (d :: descriptors) c) :
    ∃ c', receiveDescriptor infos packets c d = some c' ∧
      Received layeredPackets numLayers descriptors c' := by
  have hmem := List.mem_of_getElem? hlayer.state
  obtain ⟨info,hinfo,hstyle⟩ := hstyles packet hmem
  obtain ⟨layer,hle,hcontents,hcoming⟩ := h.come d.stateIndex packet hlayer.state
  rw [List.filter_cons_of_pos (by simp),List.map_cons] at hcoming
  have hlt : layer < numLayers := by
    by_contra hnot
    rw [show numLayers - layer = 0 by omega] at hcoming
    cases hcoming
  obtain ⟨k,hk⟩ := Nat.exists_eq_add_of_lt hlt
  rw [show numLayers - layer = k + 1 by omega,List.range'_succ,List.cons.injEq] at hcoming
  obtain ⟨hsame,hcoming⟩ := hcoming
  have hplace : (progressionData d).place = packet.place := by
    unfold progressionData ProgressionData.place LayeredPreparedPacket.place
    rw [hlayer.resolution,hlayer.component,hlayer.precinct]
  refine ⟨Function.update c packet.place (packet.contents numLayers (layer + 1)),?_,
    ⟨fun i packet' hpacket' => ?_⟩⟩
  · unfold receiveDescriptor
    rw [hlayer.component,hinfo,hpacket,hplace,hcontents,hsame]
    simp only [Option.bind_eq_bind,Option.bind_some]
    rw [receivePacket_view (hterminated packet hmem) hstyle hlt]
    rfl
  · by_cases hi : d.stateIndex = i
    · subst hi
      rw [hlayer.state] at hpacket'
      cases hpacket'
      refine ⟨layer + 1,hlt,Function.update_self _ _ _,?_⟩
      rw [hcoming]
      congr 1
      omega
    · obtain ⟨layer',hle',hcontents',hcoming'⟩ := h.come i packet' hpacket'
      have hother : packet'.place ≠ packet.place := by
        intro heq
        apply hi
        have hlength : d.stateIndex < (layeredPackets.map (·.place)).length := by
          rw [List.length_map]
          exact (List.getElem?_eq_some_iff.mp hlayer.state).1
        refine (List.getElem?_inj hlength hplaces).mp ?_
        rw [List.getElem?_map,List.getElem?_map,hlayer.state,hpacket']
        exact congrArg some heq.symm
      refine ⟨layer',hle',?_,?_⟩
      · rw [Function.update_of_ne hother]
        exact hcontents'
      · rw [← hcoming',List.filter_cons_of_neg (by simpa using hi)]

/-- Run lemma: all packets are received. -/
theorem receivePackets_view {descriptors : List PacketDescriptor} {c : Contents}
    (hplaces : (layeredPackets.map (·.place)).Nodup)
    (hterminated : ∀ packet ∈ layeredPackets, packet.Terminated numLayers)
    (hstyles : StylesTerminate infos layeredPackets)
    (hpackets : ∀ d ∈ descriptors, ∃ packet, IsLayer layeredPackets numLayers d packet ∧
      packets[d.packetIndex]? = some (packet.view d.layer))
    (h : Received layeredPackets numLayers descriptors c) :
    ∃ c', receivePackets infos packets descriptors c = some c' ∧
      Received layeredPackets numLayers [] c' := by
  induction descriptors generalizing c with
  | nil => exact ⟨c,rfl,h⟩
  | cons d descriptors ih =>
      obtain ⟨⟨packet,hlayer,hpacket⟩,hpackets⟩ := List.forall_mem_cons.mp hpackets
      obtain ⟨next,hstep,hnext⟩ := receiveDescriptor_view hplaces hterminated hstyles hlayer
        hpacket h
      obtain ⟨c',hrun,hdone⟩ := ih hpackets hnext
      refine ⟨c',?_,hdone⟩
      unfold receivePackets
      rw [List.foldlM_cons,hstep]
      exact hrun

end

/-! ## Round trip -/

/-- The blocks of the precincts, each with the segments that the encoder made of it. -/
structure EncodedFrom (layeredPackets : List LayeredPreparedPacket)
    (source : LayeredPreparedBlock → CodeBlock × ℕ) : Prop where
  encoded : ∀ packet ∈ layeredPackets, ∀ subband ∈ packet.subbands, ∀ block ∈ subband.blocks,
    (source block).1.tryEncodeSegmentedCodeBlock (source block).2 = .ok block.encoded
  terminated : ∀ packet ∈ layeredPackets, ∀ subband ∈ packet.subbands, ∀ block ∈ subband.blocks,
    (source block).1.style.terminationOnEachPass = true
  room : ∀ packet ∈ layeredPackets, ∀ subband ∈ packet.subbands, ∀ block ∈ subband.blocks,
    (source block).1.numBitplanes ≤ 63
  sorted : ∀ packet ∈ layeredPackets, ∀ subband ∈ packet.subbands, ∀ block ∈ subband.blocks,
    block.segmentLayers.Pairwise (· ≤ ·)

/-- The components of the decoder tell of the markers that are written. -/
def MarkersTold (infos : List ComponentInfo) (options : PacketMarkerOptions) : Prop :=
  ∀ info ∈ infos, (options.writeSop = true → info.mayUseSopMarkers = true) ∧
    info.usesEphMarker = options.writeEph

section
variable {layeredPackets : List LayeredPreparedPacket} {numLayers : ℕ}
variable {order : PacketizationProgressionOrder} {packets : List ResolutionView}
variable {descriptors : List PacketDescriptor} {infos : List ComponentInfo}
variable {options : PacketMarkerOptions} {source : LayeredPreparedBlock → CodeBlock × ℕ}

theorem ordered_of_build (hbuild : buildLayerPackets layeredPackets numLayers order =
      .ok (packets,descriptors)) (hplaces : (layeredPackets.map (·.place)).Nodup)
    (hmarkers : MarkersTold infos options) : Ordered infos options descriptors := by
  obtain ⟨-,hdescriptors,hbound,-⟩ := buildLayerPackets_ok hbuild
  have hmem : ∀ d ∈ descriptors, ∃ packet, IsLayer layeredPackets numLayers d packet := fun d hd =>
    mem_descriptorsInOrder.mp (hdescriptors ▸ hd)
  have hplace : ∀ d packet, IsLayer layeredPackets numLayers d packet →
      (progressionData d).place = packet.place := fun d packet hlayer => by
    unfold progressionData ProgressionData.place LayeredPreparedPacket.place
    rw [hlayer.resolution,hlayer.component,hlayer.precinct]
  refine ⟨hdescriptors ▸ descriptorsInOrder_layers,fun d hd => ?_,fun d hd d' hd' => ?_,
    fun d _ info hinfo => hmarkers info (List.mem_of_getElem? hinfo)⟩
  · obtain ⟨packet,hlayer⟩ := hmem d hd
    have hne : layeredPackets ≠ [] := List.ne_nil_of_mem (List.mem_of_getElem? hlayer.state)
    have := hbound hne
    have := hlayer.layer
    omega
  · obtain ⟨packet,hlayer⟩ := hmem d hd
    obtain ⟨packet',hlayer'⟩ := hmem d' hd'
    rw [hplace d packet hlayer,hplace d' packet' hlayer']
    constructor
    · intro hstate
      have hpacket := hlayer'.state
      rw [← hstate,hlayer.state] at hpacket
      cases hpacket
      rfl
    · intro heq
      have hlength : d.stateIndex < (layeredPackets.map (·.place)).length := by
        rw [List.length_map]
        exact (List.getElem?_eq_some_iff.mp hlayer.state).1
      refine (List.getElem?_inj hlength hplaces).mp ?_
      rw [List.getElem?_map,List.getElem?_map,hlayer.state,hlayer'.state]
      exact congrArg some heq

theorem unwritten_view (packet : LayeredPreparedPacket) (layer : ℕ) : Unwritten (packet.view layer) := by
  intro subband hsubband view hview
  obtain ⟨subband',-,rfl⟩ := List.mem_map.mp hsubband
  obtain ⟨block,-,rfl⟩ := List.mem_map.mp hview
  exact ⟨rfl,rfl⟩

/-- The packets of a tile are parsed, and all segments of its blocks are stored. -/
theorem layered_parse {reserve : ℕ → ℕ} {tile : PacketizedTileData} {packetLimit : Option ℕ}
    {parts : List TilePartData} {storage : Storage} (keepLengths : Bool)
    (hterminated : ∀ packet ∈ layeredPackets, packet.Terminated numLayers)
    (hplaces : (layeredPackets.map (·.place)).Nodup)
    (hbuild : buildLayerPackets layeredPackets numLayers order = .ok (packets,descriptors))
    (hform : formTracked reserve packets descriptors options = .ok tile)
    (hparts : borrowedTileParts tile packetLimit = .ok parts)
    (hinline : options.separatePacketHeaders = false) (hmarkers : MarkersTold infos options)
    (hstyles : StylesTerminate infos layeredPackets)
    (hstorage : ∀ packet ∈ layeredPackets, storage packet.place = packet.precincts numLayers) :
    ∃ storage', parse infos (parts.map (TilePart.of keepLengths)) (descriptors.map progressionData)
        storage = .ok ([],storage') ∧ ∀ packet ∈ layeredPackets,
          storage'.contents packet.place = packet.contents numLayers numLayers := by
  obtain ⟨hpackets,hdescriptors,-,-⟩ := buildLayerPackets_ok hbuild
  have hlayers : ∀ d ∈ descriptors, ∃ packet, IsLayer layeredPackets numLayers d packet ∧
      packets[d.packetIndex]? = some (packet.view d.layer) := by
    intro d hd
    obtain ⟨packet,hlayer⟩ := mem_descriptorsInOrder.mp (hdescriptors ▸ hd)
    exact ⟨packet,hlayer,hpackets ▸ hlayer.packet⟩
  have hstart : Received layeredPackets numLayers descriptors storage.contents := by
    refine ⟨fun i packet hpacket => ⟨0,Nat.zero_le _,?_,?_⟩⟩
    · unfold Storage.contents
      rw [hstorage packet (List.mem_of_getElem? hpacket),precincts_contents]
    · have hlt := (List.getElem?_eq_some_iff.mp hpacket).1
      rw [hdescriptors,Nat.sub_zero,← List.range_eq_range']
      exact descriptorsInOrder_state hlt
  obtain ⟨c,hreceive,hdone⟩ := receivePackets_view hplaces hterminated hstyles hlayers hstart
  have hfresh : FreshStorage packets descriptors numLayers storage := by
    intro d hd packet' hpacket'
    obtain ⟨packet,hlayer,hpacket⟩ := hlayers d hd
    rw [hpacket] at hpacket'
    cases hpacket'
    have hplace : (progressionData d).place = packet.place := by
      unfold progressionData ProgressionData.place LayeredPreparedPacket.place
      rw [hlayer.resolution,hlayer.component,hlayer.precinct]
    rw [hplace,hstorage packet (List.mem_of_getElem? hlayer.state),precincts_view]
  have hviews : ∀ packet ∈ packets, Unwritten packet := by
    intro view hview
    rw [hpackets] at hview
    obtain ⟨packet,-,hview⟩ := List.mem_flatMap.mp hview
    obtain ⟨layer,-,rfl⟩ := List.mem_map.mp hview
    exact unwritten_view packet layer
  have hordered := ordered_of_build hbuild hplaces hmarkers
  obtain ⟨states,headers,pieces,hstates,hlaid,hdata,hlengths⟩ := formTracked_laid hform
  obtain ⟨groups,rfl,rfl⟩ := borrowedTileParts_groups hdata hlengths hparts
  obtain ⟨storage',hparse,hcontents⟩ := parse_groups hlaid hinline hordered
    (runAgrees_start hstates hordered hviews hfresh) rfl hreceive keepLengths
  refine ⟨storage',?_,fun packet hpacket => ?_⟩
  · rw [List.map_map]
    exact hparse
  · obtain ⟨i,hi⟩ := List.mem_iff_getElem?.mp hpacket
    obtain ⟨layer,hle,hheld,hnone⟩ := hdone.come i packet hi
    have hlast : layer = numLayers := by
      have hlength := congrArg List.length hnone
      simp at hlength
      omega
    rw [hcontents,hheld,hlast]

/-- Round trip of a tile: every block of every precinct is decoded to its coefficients. -/
theorem layered_round_trip {reserve : ℕ → ℕ} {tile : PacketizedTileData} {packetLimit : Option ℕ}
    {parts : List TilePartData} {storage : Storage} (keepLengths : Bool)
    (hsource : EncodedFrom layeredPackets source)
    (hplaces : (layeredPackets.map (·.place)).Nodup)
    (hbuild : buildLayerPackets layeredPackets numLayers order = .ok (packets,descriptors))
    (hform : formTracked reserve packets descriptors options = .ok tile)
    (hparts : borrowedTileParts tile packetLimit = .ok parts)
    (hinline : options.separatePacketHeaders = false) (hmarkers : MarkersTold infos options)
    (hstyles : StylesTerminate infos layeredPackets)
    (hstorage : ∀ packet ∈ layeredPackets, storage packet.place = packet.precincts numLayers) :
    ∃ storage', parse infos (parts.map (TilePart.of keepLengths)) (descriptors.map progressionData)
        storage = .ok ([],storage') ∧
      ∀ packet ∈ layeredPackets,
        storage'.contents packet.place = packet.contents numLayers numLayers ∧
        ∀ subband ∈ packet.subbands, ∀ block ∈ subband.blocks, ∀ strict, ∃ f,
          blockCoefficients (block.contents numLayers numLayers) (source block).1.width
              (source block).1.height (source block).2 (source block).1.subBandType
              (source block).1.style strict = .ok f ∧
            ∀ x < (source block).1.width, ∀ y < (source block).1.height,
              f x y = (source block).1.coefficient x y := by
  obtain ⟨-,-,-,hassigned⟩ := buildLayerPackets_ok hbuild
  have hterminated : ∀ packet ∈ layeredPackets, packet.Terminated numLayers :=
    fun packet hpacket subband hsubband block hblock =>
      terminated_of_ok (hsource.encoded packet hpacket subband hsubband block hblock)
        (hsource.terminated packet hpacket subband hsubband block hblock)
        (hsource.room packet hpacket subband hsubband block hblock)
        (hsource.sorted packet hpacket subband hsubband block hblock)
        (hassigned packet hpacket subband hsubband block hblock)
  obtain ⟨storage',hparse,hcontents⟩ := layered_parse keepLengths hterminated hplaces hbuild hform
    hparts hinline hmarkers hstyles hstorage
  refine ⟨storage',hparse,fun packet hpacket =>
    ⟨hcontents packet hpacket,fun subband hsubband block hblock strict => ?_⟩⟩
  exact blockCoefficients_contents (hsource.encoded packet hpacket subband hsubband block hblock)
    (hsource.terminated packet hpacket subband hsubband block hblock)
    (hsource.room packet hpacket subband hsubband block hblock)
    (hterminated packet hpacket subband hsubband block hblock) strict

end

/-! ## Four passes in two layers -/

def fourCoefficients : CodeBlock :=
  ⟨2,2,fun x y => 3 * x - 2 * y,.highLow,⟨false,false,true,false,false⟩⟩

def fourPasses : LayeredPreparedPacket :=
  ⟨0,0,0,[⟨1,1,[⟨⟨[11,175,255,111,255,31,255,255,127],[⟨0,3,0,1,true⟩,⟨3,2,1,2,true⟩,
    ⟨5,2,2,3,true⟩,⟨7,2,3,4,true⟩],4,1⟩,[0,0,1,1]⟩]⟩]⟩

def fourPassesStorage : Storage := fun _ => fourPasses.precincts 2

theorem layered_round_trip_fourPasses : ∃ storage',
    parse [⟨true,true,⟨false,true⟩⟩]
      ([⟨[255,145,0,4,0,0,216,208,255,146,11,175,255,111,255],[15]⟩,
        ⟨[255,145,0,4,0,1,226,64,255,146,31,255,255,127],[14]⟩].map (TilePart.of true))
      ([⟨0,0,0,0,0,0⟩,⟨1,0,1,0,0,0⟩].map progressionData) fourPassesStorage =
        .ok ([],storage') ∧ storage'.contents ⟨0,0,0⟩ = fourPasses.contents 2 2 ∧
      ∃ f, blockCoefficients ⟨true,1,4,2,[some [(⟨0,1,3⟩,[11,175,255]),(⟨1,1,2⟩,[111,255])],
          some [(⟨2,1,2⟩,[31,255]),(⟨3,1,2⟩,[255,127])]]⟩ 2 2 3 .highLow
          ⟨false,false,true,false,false⟩ true = .ok f ∧
        f 0 0 = 0 ∧ f 1 0 = 3 ∧ f 0 1 = -2 ∧ f 1 1 = 1 := by
  have hencoded : fourCoefficients.tryEncodeSegmentedCodeBlock 3 =
      .ok ⟨[11,175,255,111,255,31,255,255,127],[⟨0,3,0,1,true⟩,⟨3,2,1,2,true⟩,⟨5,2,2,3,true⟩,
        ⟨7,2,3,4,true⟩],4,1⟩ := by
    decide +kernel
  have hsource : EncodedFrom [fourPasses] fun _ => (fourCoefficients,3) := by
    refine ⟨?_,?_,?_,?_⟩
    · simpa [fourPasses] using hencoded
    · simp [fourCoefficients]
    · simp only [fourPasses,List.forall_mem_singleton]
      exact Nat.size_le.mpr (by decide)
    · simp [fourPasses]
  have hbuild : buildLayerPackets [fourPasses] 2 .lrcp =
      .ok ([fourPasses.view 0,fourPasses.view 1],[⟨0,0,0,0,0,0⟩,⟨1,0,1,0,0,0⟩]) := by
    decide +kernel
  have hform : formTracked id [fourPasses.view 0,fourPasses.view 1]
      [⟨0,0,0,0,0,0⟩,⟨1,0,1,0,0,0⟩] ⟨true,true,false⟩ =
      .ok ⟨[255,145,0,4,0,0,216,208,255,146,11,175,255,111,255,255,145,0,4,0,1,226,64,255,146,31,
        255,255,127],[15,14],[]⟩ := by
    decide +kernel
  have hparts : borrowedTileParts ⟨[255,145,0,4,0,0,216,208,255,146,11,175,255,111,255,255,145,0,
      4,0,1,226,64,255,146,31,255,255,127],[15,14],[]⟩ (some 1) =
      .ok [⟨[255,145,0,4,0,0,216,208,255,146,11,175,255,111,255],[15]⟩,
        ⟨[255,145,0,4,0,1,226,64,255,146,31,255,255,127],[14]⟩] := by
    decide +kernel
  have hmarkers : MarkersTold [⟨true,true,⟨false,true⟩⟩] ⟨true,true,false⟩ := by
    simp [MarkersTold]
  have hstyles : StylesTerminate [⟨true,true,⟨false,true⟩⟩] [fourPasses] := by
    simp [StylesTerminate,fourPasses]
  have hstorage : ∀ packet ∈ [fourPasses],
      fourPassesStorage packet.place = packet.precincts 2 := by
    simp [fourPassesStorage]
  obtain ⟨storage',hparse,hblocks⟩ := layered_round_trip true hsource (by decide) hbuild hform hparts
    rfl hmarkers hstyles hstorage
  obtain ⟨hcontents,hblocks⟩ := hblocks fourPasses (List.mem_singleton_self _)
  obtain ⟨f,hf,hsame⟩ := hblocks _ (List.mem_singleton_self _) _ (List.mem_singleton_self _) true
  exact ⟨storage',hparse,hcontents,f,hf,hsame 0 (by decide) 0 (by decide),
    hsame 1 (by decide) 0 (by decide),hsame 0 (by decide) 1 (by decide),
    hsame 1 (by decide) 1 (by decide)⟩

end J2kNative.LayeredPackets
