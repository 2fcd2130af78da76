import J2kNative.PacketStart

/-!
# Round trip of packets

The packets of a tile are parsed to what they mean, over however many tile parts the writer spreads
them and whether or not the parts tell the lengths of their packets.
-/
namespace J2kNative.PacketParsing
open Fallible PacketAssembly
open PacketHeaders (PacketSubbandState)
open PacketPlan (PacketDescriptor)

/-! ## Tile parts -/

/-- A tile part of whole packets. -/
def partOf (group : List (List ℕ)) : TilePartData := ⟨group.flatten,group.map List.length⟩

theorem partsFrom_groups (groups : List (List (List ℕ))) (before : List ℕ) :
    partsFrom (before ++ groups.flatten.flatten) before.length
      (groups.map (List.map List.length)) = groups.map partOf := by
  induction groups generalizing before with
  | nil => rfl
  | cons group groups ih =>
      have hlength : (group.map List.length).sum = group.flatten.length := by
        rw [List.length_flatten]
      rw [List.map_cons,List.map_cons,partsFrom,hlength]
      apply congrArg₂
      · rw [List.drop_left,List.flatten_cons,List.flatten_append,List.take_left]
        rfl
      · have h := ih (before ++ group.flatten)
        rwa [List.append_assoc,List.length_append,← List.flatten_append,← List.flatten_cons] at h

theorem chunks_map {α β : Type*} (f : α → β) {n : ℕ} (hn : 0 < n) (l : List α) :
    StreamCuts.chunks n (l.map f) = (StreamCuts.chunks n l).map (List.map f) := by
  induction l using StreamCuts.chunks_induction hn with
  | nil => simp
  | step l hl ih =>
      rw [StreamCuts.chunks_of_ne_nil hn hl,StreamCuts.chunks_of_ne_nil hn (by simpa using hl),
        List.map_cons,← List.map_take,← List.map_drop,ih]

/-- Tile parts are cut between packets. -/
theorem borrowedTileParts_groups {tile : PacketizedTileData} {packetLimit : Option ℕ}
    {parts : List TilePartData} {pieces : List (List ℕ)} (hdata : tile.data = pieces.flatten)
    (hlengths : tile.packetLengths = pieces.map List.length)
    (h : borrowedTileParts tile packetLimit = .ok parts) :
    ∃ groups : List (List (List ℕ)), groups.flatten = pieces ∧ parts = groups.map partOf := by
  have hwhole : ∃ groups : List (List (List ℕ)), groups.flatten = pieces ∧
      [⟨tile.data,tile.packetLengths⟩] = groups.map partOf :=
    ⟨[pieces],by simp,by rw [hdata,hlengths]; rfl⟩
  cases packetLimit with
  | none =>
      cases h
      exact hwhole
  | some packetLimit =>
      unfold borrowedTileParts at h
      dsimp only at h
      split_ifs at h with hlimit hnone hsum hcount
      · cases h
        rwa [hnone] at hwhole
      · cases h
        have hpos := Nat.pos_of_ne_zero hlimit
        refine ⟨StreamCuts.chunks packetLimit pieces,StreamCuts.chunks_flatten hpos _,?_⟩
        have h := partsFrom_groups (StreamCuts.chunks packetLimit pieces) []
        rw [StreamCuts.chunks_flatten hpos,← chunks_map _ hpos] at h
        rw [hdata,hlengths]
        exact h

/-- A tile part as the decoder gets it, with the lengths of its packets where they are written. -/
def TilePart.of (keepLengths : Bool) (part : TilePartData) : TilePart :=
  ⟨part.data,if keepLengths then some part.packetLengths else none⟩

section
variable {packets : List ResolutionView} {options : PacketMarkerOptions} {infos : List ComponentInfo}
variable {descriptors : List PacketDescriptor} {states : List (List PacketSubbandState)}
variable {storage : Storage} {c c' : Contents}

/-- Run lemma over the tile parts. -/
theorem parse_groups {i : ℕ} {headers : List (List ℕ)} {groups : List (List (List ℕ))}
    (hlaid : Laid packets options i descriptors states headers groups.flatten)
    (hinline : options.separatePacketHeaders = false) (hordered : Ordered infos options descriptors)
    (hagree : RunAgrees packets descriptors states storage) (hcontents : storage.contents = c)
    (hreceive : receivePackets infos packets descriptors c = some c') (keepLengths : Bool) :
    ∃ storage', parse infos (groups.map fun group => TilePart.of keepLengths (partOf group))
        (descriptors.map progressionData) storage = .ok ([],storage') ∧ storage'.contents = c' := by
  induction groups generalizing i headers descriptors states storage c with
  | nil =>
      cases hlaid
      cases hreceive
      exact ⟨storage,rfl,hcontents⟩
  | cons group groups ih =>
      have hcount := hlaid.length_eq
      rw [List.flatten_cons] at hlaid hcount
      rw [List.length_append] at hcount
      have hsplit := List.take_append_drop group.length descriptors
      have htaken : group.length = (descriptors.take group.length).length := by
        rw [List.length_take]
        omega
      rw [← hsplit] at hlaid hordered hagree hreceive
      unfold receivePackets at hreceive
      rw [List.foldlM_append] at hreceive
      obtain ⟨c₁,hfirst,hreceive⟩ := Option.bind_eq_some_iff.mp hreceive
      obtain ⟨states₁,storage₁,headers₁,hparse,hlaid₁,hordered₁,hagree₁,hcontents₁⟩ :=
        hlaid.parsed htaken hinline hordered hagree hcontents hfirst keepLengths []
          ((descriptors.drop group.length).map progressionData)
      obtain ⟨storage',hrest,hcontents'⟩ := ih hlaid₁ hordered₁ hagree₁ hcontents₁ hreceive
      refine ⟨storage',?_,hcontents'⟩
      rw [← List.map_append,hsplit] at hparse
      rw [List.map_cons,parse,List.foldlM_cons]
      have hfirst : parseInner infos (descriptors.map progressionData)
          ⟨⟨(TilePart.of keepLengths (partOf group)).data,0⟩,
            (TilePart.of keepLengths (partOf group)).packetLengths,storage⟩ =
          .ok ((descriptors.drop group.length).map progressionData,storage₁) := hparse
      rw [hfirst,ok_bind]
      exact hrest

/-- The packets of a tile are parsed to what they mean. -/
theorem parse_borrowedTileParts {reserve : ℕ → ℕ} {tile : PacketizedTileData}
    {packetLimit : Option ℕ} {parts : List TilePartData} {numLayers : ℕ} (keepLengths : Bool)
    (hform : formTracked reserve packets descriptors options = .ok tile)
    (hparts : borrowedTileParts tile packetLimit = .ok parts)
    (hinline : options.separatePacketHeaders = false) (hordered : Ordered infos options descriptors)
    (hviews : ∀ packet ∈ packets, Unwritten packet)
    (hstorage : FreshStorage packets descriptors numLayers storage)
    (hreceive : receivePackets infos packets descriptors storage.contents = some c) :
    ∃ storage', parse infos (parts.map (TilePart.of keepLengths)) (descriptors.map progressionData)
      storage = .ok ([],storage') ∧ storage'.contents = c := by
  obtain ⟨states,headers,pieces,hstates,hlaid,hdata,hlengths⟩ := formTracked_laid hform
  obtain ⟨groups,rfl,rfl⟩ := borrowedTileParts_groups hdata hlengths hparts
  rw [List.map_map]
  exact parse_groups hlaid hinline hordered (runAgrees_start hstates hordered hviews hstorage) rfl
    hreceive keepLengths

end

/-! ## Two layers -/

def viewOf (data : List ℕ) (passes : ℕ) : CodeBlockView :=
  ⟨data,0,0,passes,[],2,false,3,.classic⟩

/-- Two blocks beside each other, of which the second comes with the second layer. -/
def twoLayers : List ResolutionView :=
  [[⟨[viewOf [1,2,3] 1,viewOf [] 0],2,1⟩],[⟨[viewOf [4] 2,viewOf [255,5] 3],2,1⟩]]

def twoLayersStorage : Storage := fun _ =>
  [freshPrecinct 2 ⟨[viewOf [1,2,3] 1,viewOf [] 0],2,1⟩]

theorem parse_twoLayers : ∃ storage',
    parse [⟨true,true,⟨false,false⟩⟩]
      ([⟨[255,145,0,4,0,0,230,48,255,146,1,2,3],[13]⟩,
        ⟨[255,145,0,4,0,1,224,248,32,255,146,4,255,5],[14]⟩].map (TilePart.of true))
      ([⟨0,0,0,0,0,0⟩,⟨1,0,1,0,0,0⟩].map progressionData) twoLayersStorage = .ok ([],storage') ∧
      storage'.contents ⟨0,0,0⟩ =
        [[⟨true,2,3,2,[some [(⟨0,1,3⟩,[1,2,3])],some [(⟨1,2,1⟩,[4])]]⟩,
          ⟨true,2,3,1,[none,some [(⟨0,3,2⟩,[255,5])]]⟩]] := by
  have hmap : (receivePackets [⟨true,true,⟨false,false⟩⟩] twoLayers
      [⟨0,0,0,0,0,0⟩,⟨1,0,1,0,0,0⟩] twoLayersStorage.contents).map (· ⟨0,0,0⟩) =
      some [[⟨true,2,3,2,[some [(⟨0,1,3⟩,[1,2,3])],some [(⟨1,2,1⟩,[4])]]⟩,
        ⟨true,2,3,1,[none,some [(⟨0,3,2⟩,[255,5])]]⟩]] := by
    decide +kernel
  obtain ⟨c,hreceive,hc⟩ := Option.map_eq_some_iff.mp hmap
  have hform : formTracked id twoLayers [⟨0,0,0,0,0,0⟩,⟨1,0,1,0,0,0⟩] ⟨true,true,false⟩ =
      .ok ⟨[255,145,0,4,0,0,230,48,255,146,1,2,3,255,145,0,4,0,1,224,248,32,255,146,4,255,5],
        [13,14],[]⟩ := by
    decide +kernel
  have hparts : borrowedTileParts
      ⟨[255,145,0,4,0,0,230,48,255,146,1,2,3,255,145,0,4,0,1,224,248,32,255,146,4,255,5],[13,14],[]⟩
      (some 1) = .ok [⟨[255,145,0,4,0,0,230,48,255,146,1,2,3],[13]⟩,
        ⟨[255,145,0,4,0,1,224,248,32,255,146,4,255,5],[14]⟩] := by
    decide +kernel
  have hstorage : FreshStorage twoLayers [⟨0,0,0,0,0,0⟩,⟨1,0,1,0,0,0⟩] 2 twoLayersStorage := by
    simp [FreshStorage,twoLayers,twoLayersStorage,freshPrecinct]
  obtain ⟨storage',hparse,hcontents⟩ := parse_borrowedTileParts true hform hparts rfl
    ⟨by decide,by decide,by decide,by simp⟩ (by decide) hstorage hreceive
  exact ⟨storage',hparse,by rw [hcontents,hc]⟩

end J2kNative.PacketParsing
