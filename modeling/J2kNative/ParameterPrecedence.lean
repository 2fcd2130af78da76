import J2kNative.Fallible
import J2kNative.TileTree
import Mathlib.Data.Nat.Bitwise
import Mathlib.Data.List.Perm.Basic

/-!
# Coding style and quantization in force

The main header keeps a slot for each of the COD, COC, QCD and QCC markers that it may
hold; the header of a tile-part writes its markers into the components of the tile as
they come, and adds up the coding style flags. Markers are taken as they are parsed.
-/
namespace J2kNative.ParameterPrecedence
open Fallible TileTree

structure CodeBlockStyle where
  selectiveArithmeticCodingBypass : Bool
  resetContextProbabilities : Bool
  terminationOnEachPass : Bool
  verticallyCausalContext : Bool
  segmentationSymbols : Bool
  highThroughputBlockCoding : Bool
  mixedBlockCoding : Bool
  deriving DecidableEq, Repr

inductive WaveletTransform where
  | irreversible97
  | reversible53
  deriving DecidableEq, Repr

/-- What COD and COC share; the numbers of levels, the block size and the precincts are those
that the geometry of a tile reads. -/
structure StyleParameters where
  geometry : CodingStyleParameters
  codeBlockStyle : CodeBlockStyle
  transformation : WaveletTransform
  deriving DecidableEq, Repr

/-- The flags byte: precincts, SOP and EPH are its bits 0, 1 and 2. -/
structure CodingStyleComponent where
  flags : ℕ
  parameters : StyleParameters
  deriving DecidableEq, Repr

structure CodingStyleDefault where
  progressionOrder : ProgressionOrder
  numLayers : ℕ
  mct : Bool
  componentParameters : CodingStyleComponent
  deriving DecidableEq, Repr

inductive QuantizationStyle where
  | noQuantization
  | scalarDerived
  | scalarExpounded
  deriving DecidableEq, Repr

structure StepSize where
  mantissa : ℕ
  exponent : ℕ
  deriving DecidableEq, Repr

structure QuantizationInfo where
  quantizationStyle : QuantizationStyle
  guardBits : ℕ
  stepSizes : List StepSize
  deriving DecidableEq, Repr

/-- A parsed marker; `other` has no part in the coding style and the quantization. -/
inductive HeaderMarker where
  | cod (style : CodingStyleDefault)
  | coc (component : ℕ) (style : CodingStyleComponent)
  | qcd (quantization : QuantizationInfo)
  | qcc (component : ℕ) (quantization : QuantizationInfo)
  | other
  deriving DecidableEq, Repr

inductive HeaderError where
  | missing (marker : String)
  | parseFailure (marker : String)
  | invalidComponentMetadata
  deriving DecidableEq, Repr

structure ComponentStyle where
  codingStyle : CodingStyleComponent
  quantizationInfo : QuantizationInfo
  deriving DecidableEq, Repr

/-! ## The main header -/

structure HeaderSlots where
  cod : Option CodingStyleDefault
  qcd : Option QuantizationInfo
  codComponents : List (Option CodingStyleComponent)
  qcdComponents : List (Option QuantizationInfo)

def HeaderSlots.empty (numComponents : ℕ) : HeaderSlots :=
  ⟨none,none,List.replicate numComponents none,List.replicate numComponents none⟩

def readHeaderMarker (slots : HeaderSlots) : HeaderMarker → Except HeaderError HeaderSlots
  | .cod style => .ok { slots with cod := some style }
  | .coc component style =>
    if component < slots.codComponents.length then
      .ok { slots with codComponents := slots.codComponents.set component (some style) }
    else .error (.parseFailure "COC")
  | .qcd quantization => .ok { slots with qcd := some quantization }
  | .qcc component quantization =>
    if component < slots.qcdComponents.length then
      .ok { slots with qcdComponents := slots.qcdComponents.set component (some quantization) }
    else .error (.parseFailure "QCC")
  | .other => .ok slots

/-- A component without markers of its own takes the defaults; the flags of COD are added. -/
def buildComponentInfo (cod : CodingStyleDefault) (qcd : QuantizationInfo)
    (coding : Option CodingStyleComponent) (quantization : Option QuantizationInfo) :
    ComponentStyle :=
  let source := coding.getD cod.componentParameters
  ⟨⟨source.flags ||| cod.componentParameters.flags,source.parameters⟩,quantization.getD qcd⟩

def buildComponentInfos (numComponents : ℕ) (slots : HeaderSlots) (cod : CodingStyleDefault)
    (qcd : QuantizationInfo) : List ComponentStyle :=
  (List.range numComponents).map fun idx => buildComponentInfo cod qcd
    (slots.codComponents[idx]?.join) (slots.qcdComponents[idx]?.join)

structure Header where
  globalCodingStyle : CodingStyleDefault
  componentInfos : List ComponentStyle
  deriving DecidableEq, Repr

def readHeader (numComponents : ℕ) (markers : List HeaderMarker) : Except HeaderError Header := do
  let slots ← markers.foldlM readHeaderMarker (.empty numComponents)
  match slots.cod with
  | none => throw (.missing "COD")
  | some cod => match slots.qcd with
    | none => throw (.missing "QCD")
    | some qcd => pure ⟨cod,buildComponentInfos numComponents slots cod qcd⟩

/-! ## The header of a tile-part -/

structure TileStyle where
  progressionOrder : ProgressionOrder
  numLayers : ℕ
  mct : Bool
  componentInfos : List ComponentStyle
  deriving DecidableEq, Repr

/-- `Tile::new` and `inherit_tile_metadata`. -/
def TileStyle.inherit (header : Header) : TileStyle :=
  ⟨header.globalCodingStyle.progressionOrder,header.globalCodingStyle.numLayers,
    header.globalCodingStyle.mct,header.componentInfos⟩

/-- Replaces the parameters and adds the flags. -/
def ComponentStyle.code (info : ComponentStyle) (style : CodingStyleComponent) : ComponentStyle :=
  { info with codingStyle := ⟨info.codingStyle.flags ||| style.flags,style.parameters⟩ }

def ComponentStyle.quantize (info : ComponentStyle) (quantization : QuantizationInfo) :
    ComponentStyle := { info with quantizationInfo := quantization }

def parseTilePartMarker (tile : TileStyle) : HeaderMarker → Except HeaderError TileStyle
  | .cod style =>
    if tile.componentInfos.length = 0 then .error .invalidComponentMetadata
    else .ok ⟨style.progressionOrder,style.numLayers,style.mct,
      tile.componentInfos.map (·.code style.componentParameters)⟩
  | .coc component style =>
    if component < tile.componentInfos.length then
      .ok { tile with componentInfos := tile.componentInfos.modify component (·.code style) }
    else .error .invalidComponentMetadata
  | .qcd quantization =>
    if tile.componentInfos.length = 0 then .error .invalidComponentMetadata
    else .ok { tile with componentInfos := tile.componentInfos.map (·.quantize quantization) }
  | .qcc component quantization =>
    if component < tile.componentInfos.length then
      .ok { tile with
        componentInfos := tile.componentInfos.modify component (·.quantize quantization) }
    else .error .invalidComponentMetadata
  | .other => .ok tile

def parseTilePart (tile : TileStyle) (markers : List HeaderMarker) : Except HeaderError TileStyle :=
  markers.foldlM parseTilePartMarker tile

/-! ## One component -/

/-- The coding style that a marker gives to a component. -/
def styleOf (c : ℕ) : HeaderMarker → Option CodingStyleComponent
  | .cod style => some style.componentParameters
  | .coc component style => if component = c then some style else none
  | _ => none

/-- The quantization that a marker gives to a component. -/
def quantizationOf (c : ℕ) : HeaderMarker → Option QuantizationInfo
  | .qcd quantization => some quantization
  | .qcc component quantization => if component = c then some quantization else none
  | _ => none

/-- What a marker of a tile-part makes of a component. -/
def ComponentStyle.take (c : ℕ) (info : ComponentStyle) (marker : HeaderMarker) : ComponentStyle :=
  match styleOf c marker with
  | some style => info.code style
  | none => match quantizationOf c marker with
    | some quantization => info.quantize quantization
    | none => info

/-- A marker for all components needs one, and a marker for one component needs that one. -/
def HeaderMarker.Valid (n : ℕ) : HeaderMarker → Prop
  | .cod _ => n ≠ 0
  | .coc component _ => component < n
  | .qcd _ => n ≠ 0
  | .qcc component _ => component < n
  | .other => True

section
variable {tile tile' : TileStyle} {marker : HeaderMarker} {markers : List HeaderMarker} {c : ℕ}

theorem exists_parseTilePartMarker :
    (∃ tile', parseTilePartMarker tile marker = .ok tile') ↔
      marker.Valid tile.componentInfos.length := by
  cases marker <;> simp only [parseTilePartMarker,HeaderMarker.Valid] <;>
    first | (split_ifs with h <;> simp [h]) | simp

/-- A marker changes the components that it is about, and no other. -/
theorem parseTilePartMarker_get (h : parseTilePartMarker tile marker = .ok tile') :
    tile'.componentInfos.length = tile.componentInfos.length ∧
    ∀ c : ℕ, tile'.componentInfos[c]? =
      tile.componentInfos[c]?.map fun info => ComponentStyle.take c info marker := by
  have hsame (c : ℕ) : tile.componentInfos[c]?.map id = tile.componentInfos[c]? := by simp
  cases marker with
  | cod style =>
      simp only [parseTilePartMarker] at h
      split_ifs at h
      cases h
      exact ⟨List.length_map _,fun c => List.getElem?_map ..⟩
  | qcd quantization =>
      simp only [parseTilePartMarker] at h
      split_ifs at h
      cases h
      exact ⟨List.length_map _,fun c => List.getElem?_map ..⟩
  | coc component style =>
      simp only [parseTilePartMarker] at h
      split_ifs at h
      cases h
      refine ⟨List.length_modify _ _ _,fun c => ?_⟩
      dsimp only
      rw [List.getElem?_modify]
      by_cases heq : component = c
      · simp [ComponentStyle.take,styleOf,heq]
      · simp [ComponentStyle.take,styleOf,quantizationOf,heq]
  | qcc component quantization =>
      simp only [parseTilePartMarker] at h
      split_ifs at h
      cases h
      refine ⟨List.length_modify _ _ _,fun c => ?_⟩
      dsimp only
      rw [List.getElem?_modify]
      by_cases heq : component = c
      · simp [ComponentStyle.take,styleOf,quantizationOf,heq]
      · simp [ComponentStyle.take,styleOf,quantizationOf,heq]
  | other =>
      cases h
      exact ⟨rfl,fun c => (hsame c).symm⟩

theorem parseTilePart_get (h : parseTilePart tile markers = .ok tile') :
    tile'.componentInfos.length = tile.componentInfos.length ∧
    ∀ c : ℕ, tile'.componentInfos[c]? =
      tile.componentInfos[c]?.map fun info => markers.foldl (ComponentStyle.take c) info := by
  induction markers generalizing tile with
  | nil =>
      cases h
      exact ⟨rfl,fun c => by simp⟩
  | cons marker markers ih =>
      unfold parseTilePart at h
      rw [List.foldlM_cons] at h
      obtain ⟨next,hnext,h⟩ := bind_eq_ok.mp h
      obtain ⟨hlen,hget⟩ := parseTilePartMarker_get hnext
      obtain ⟨hlen',hget'⟩ := ih h
      refine ⟨hlen'.trans hlen,fun c => ?_⟩
      rw [hget',hget,Option.map_map]
      rfl

theorem exists_parseTilePart :
    (∃ tile', parseTilePart tile markers = .ok tile') ↔
      ∀ marker ∈ markers, marker.Valid tile.componentInfos.length := by
  induction markers generalizing tile with
  | nil => simp [parseTilePart,pure,Except.pure]
  | cons marker markers ih =>
      unfold parseTilePart at *
      rw [List.foldlM_cons,List.forall_mem_cons]
      constructor
      · rintro ⟨tile',h⟩
        obtain ⟨next,hnext,h⟩ := bind_eq_ok.mp h
        refine ⟨exists_parseTilePartMarker.mp ⟨next,hnext⟩,?_⟩
        rw [← (parseTilePartMarker_get hnext).1]
        exact ih.mp ⟨tile',h⟩
      · rintro ⟨hvalid,hrest⟩
        obtain ⟨next,hnext⟩ := exists_parseTilePartMarker.mpr hvalid
        rw [← (parseTilePartMarker_get hnext).1] at hrest
        obtain ⟨tile',h⟩ := ih.mpr hrest
        exact ⟨tile',bind_eq_ok.mpr ⟨next,hnext,h⟩⟩

/-- The last of some values, or what was there before. -/
def lastOr {α : Type} (before : α) (values : List α) : α := values.getLast?.getD before

theorem lastOr_cons {α : Type} (before value : α) (values : List α) :
    lastOr before (value :: values) = lastOr value values := by
  unfold lastOr
  cases values with
  | nil => rfl
  | cons next values => rw [List.getLast?_cons_cons]; cases hlast : (next :: values).getLast? <;> simp at *

/-- The parameters and the quantization of the last marker stay, and the flags add up. -/
theorem foldl_take (info : ComponentStyle) :
    markers.foldl (ComponentStyle.take c) info =
      ⟨⟨(markers.filterMap (styleOf c)).foldl (fun flags style => flags ||| style.flags)
          info.codingStyle.flags,
        lastOr info.codingStyle.parameters
          ((markers.filterMap (styleOf c)).map (·.parameters))⟩,
        lastOr info.quantizationInfo (markers.filterMap (quantizationOf c))⟩ := by
  induction markers generalizing info with
  | nil => rfl
  | cons marker markers ih =>
      rw [List.foldl_cons,ih]
      cases hstyle : styleOf c marker with
      | some style =>
          have hnone : quantizationOf c marker = none := by
            cases marker <;> simp_all [styleOf,quantizationOf]
          simp only [List.filterMap_cons,hstyle,hnone,ComponentStyle.take,ComponentStyle.code,
            List.foldl_cons,List.map_cons,lastOr_cons]
      | none =>
          cases hquantization : quantizationOf c marker with
          | some quantization =>
              simp only [List.filterMap_cons,hstyle,hquantization,ComponentStyle.take,
                ComponentStyle.quantize,lastOr_cons]
          | none =>
              simp only [List.filterMap_cons,hstyle,hquantization,ComponentStyle.take]

end

/-! ## The slots of the main header -/

def codOf : HeaderMarker → Option CodingStyleDefault
  | .cod style => some style
  | _ => none

def cocOf (c : ℕ) : HeaderMarker → Option CodingStyleComponent
  | .coc component style => if component = c then some style else none
  | _ => none

def qcdOf : HeaderMarker → Option QuantizationInfo
  | .qcd quantization => some quantization
  | _ => none

def qccOf (c : ℕ) : HeaderMarker → Option QuantizationInfo
  | .qcc component quantization => if component = c then some quantization else none
  | _ => none

/-- The last marker of a kind. -/
def lastOf {α : Type} (select : HeaderMarker → Option α) (markers : List HeaderMarker) : Option α :=
  (markers.filterMap select).getLast?

theorem lastOf_cons {α : Type} (select : HeaderMarker → Option α) (marker : HeaderMarker)
    (markers : List HeaderMarker) :
    lastOf select (marker :: markers) = (lastOf select markers).or (select marker) := by
  unfold lastOf
  rw [List.filterMap_cons]
  cases select marker with
  | none => simp
  | some value =>
      cases hrest : markers.filterMap select with
      | nil => rfl
      | cons next rest =>
          rw [List.getLast?_cons_cons,List.getLast?_eq_some_getLast (List.cons_ne_nil _ _)]
          rfl

section
variable {slots slots' : HeaderSlots} {marker : HeaderMarker} {markers : List HeaderMarker} {n : ℕ}

/-- The slots of a component. -/
structure Slotted (slots : HeaderSlots) (markers : List HeaderMarker) (slots' : HeaderSlots) :
    Prop where
  cod : slots'.cod = (lastOf codOf markers).or slots.cod
  qcd : slots'.qcd = (lastOf qcdOf markers).or slots.qcd
  coc : ∀ c : ℕ, slots'.codComponents[c]?.join =
    (lastOf (cocOf c) markers).or slots.codComponents[c]?.join
  qcc : ∀ c : ℕ, slots'.qcdComponents[c]?.join =
    (lastOf (qccOf c) markers).or slots.qcdComponents[c]?.join

theorem readHeaderMarker_slotted (h : readHeaderMarker slots marker = .ok slots') :
    Slotted slots [marker] slots' := by
  cases marker with
  | cod style =>
      cases h
      exact ⟨rfl,rfl,fun _ => rfl,fun _ => rfl⟩
  | qcd quantization =>
      cases h
      exact ⟨rfl,rfl,fun _ => rfl,fun _ => rfl⟩
  | other =>
      cases h
      exact ⟨rfl,rfl,fun _ => rfl,fun _ => rfl⟩
  | coc component style =>
      simp only [readHeaderMarker] at h
      split_ifs at h with hlt
      cases h
      refine ⟨rfl,rfl,fun c => ?_,fun _ => rfl⟩
      rcases eq_or_ne component c with rfl | hne
      · simp [lastOf,cocOf,List.getElem?_set_self hlt]
      · simp [lastOf,cocOf,hne]
  | qcc component quantization =>
      simp only [readHeaderMarker] at h
      split_ifs at h with hlt
      cases h
      refine ⟨rfl,rfl,fun _ => rfl,fun c => ?_⟩
      rcases eq_or_ne component c with rfl | hne
      · simp [lastOf,qccOf,List.getElem?_set_self hlt]
      · simp [lastOf,qccOf,hne]

theorem foldlM_slotted (h : markers.foldlM readHeaderMarker slots = .ok slots') :
    Slotted slots markers slots' := by
  induction markers generalizing slots with
  | nil =>
      cases h
      exact ⟨rfl,rfl,fun _ => rfl,fun _ => rfl⟩
  | cons marker markers ih =>
      rw [List.foldlM_cons] at h
      obtain ⟨next,hnext,h⟩ := bind_eq_ok.mp h
      have hfirst := readHeaderMarker_slotted hnext
      have hrest := ih h
      have hone {α : Type} (select : HeaderMarker → Option α) :
          lastOf select [marker] = select marker := by
        rw [lastOf_cons]
        rfl
      refine ⟨?_,?_,fun c => ?_,fun c => ?_⟩
      · rw [hrest.cod,hfirst.cod,hone,lastOf_cons,Option.or_assoc]
      · rw [hrest.qcd,hfirst.qcd,hone,lastOf_cons,Option.or_assoc]
      · rw [hrest.coc,hfirst.coc,hone,lastOf_cons,Option.or_assoc]
      · rw [hrest.qcc,hfirst.qcc,hone,lastOf_cons,Option.or_assoc]

/-- An accepted main header has a COD and a QCD, and every component its own markers or these. -/
theorem readHeader_ok {header : Header} (h : readHeader n markers = .ok header) :
    ∃ cod qcd, lastOf codOf markers = some cod ∧ lastOf qcdOf markers = some qcd ∧
      header.componentInfos.length = n ∧ ∀ c < n, header.componentInfos[c]? =
        some (buildComponentInfo cod qcd (lastOf (cocOf c) markers) (lastOf (qccOf c) markers)) := by
  unfold readHeader at h
  obtain ⟨slots,hslots,h⟩ := bind_eq_ok.mp h
  have hslotted := foldlM_slotted hslots
  have hempty {α : Type} (c : ℕ) :
      (List.replicate n (none : Option α))[c]?.join = none := by
    rw [List.getElem?_replicate]
    split_ifs <;> rfl
  have hcoc (c : ℕ) : slots.codComponents[c]?.join = lastOf (cocOf c) markers := by
    rw [hslotted.coc]
    exact (congrArg _ (hempty c)).trans (Option.or_none)
  have hqcc (c : ℕ) : slots.qcdComponents[c]?.join = lastOf (qccOf c) markers := by
    rw [hslotted.qcc]
    exact (congrArg _ (hempty c)).trans (Option.or_none)
  split at h
  · cases h
  next cod hcod =>
    split at h
    · cases h
    next qcd hqcd =>
      cases h
      refine ⟨cod,qcd,?_,?_,by simp [buildComponentInfos],fun c hc => ?_⟩
      · rw [← hcod,hslotted.cod]
        exact Option.or_none.symm
      · rw [← hqcd,hslotted.qcd]
        exact Option.or_none.symm
      · simp [buildComponentInfos,hc,hcoc,hqcc]

end

/-! ## Precedence -/

/-- The coding style that a component ought to have. -/
def styleInForce (main tile : List HeaderMarker) (c : ℕ) : Option CodingStyleComponent :=
  (lastOf (cocOf c) tile).or (((lastOf codOf tile).map (·.componentParameters)).or
    ((lastOf (cocOf c) main).or ((lastOf codOf main).map (·.componentParameters))))

/-- The quantization that a component ought to have. -/
def quantizationInForce (main tile : List HeaderMarker) (c : ℕ) : Option QuantizationInfo :=
  (lastOf (qccOf c) tile).or ((lastOf qcdOf tile).or
    ((lastOf (qccOf c) main).or (lastOf qcdOf main)))

/-- The tile-part header gives every component what it ought to have, in every order of its
markers. -/
def Precedence (n : ℕ) (header : Header) (main tile : List HeaderMarker) : Prop :=
  ∀ tile', tile'.Perm tile → ∃ result, parseTilePart (.inherit header) tile' = .ok result ∧
    ∀ c < n, ∃ info, result.componentInfos[c]? = some info ∧
      styleInForce main tile c = some info.codingStyle ∧
      quantizationInForce main tile c = some info.quantizationInfo

/-- The flags of all markers of both headers that are about a component. -/
def flagsUnion (main tile : List HeaderMarker) (c : ℕ) : ℕ :=
  (tile.filterMap (styleOf c)).foldl (fun flags style => flags ||| style.flags)
    ((((lastOf (cocOf c) main).or ((lastOf codOf main).map (·.componentParameters))).elim 0
      (·.flags)) ||| (lastOf codOf main).elim 0 (·.componentParameters.flags))

/-- The markers of a tile-part that are about a component say the same, and no flag is set that
the style in force does not have. -/
structure OrderFree (main tile : List HeaderMarker) (c : ℕ) : Prop where
  parameters : ∀ style ∈ tile.filterMap (styleOf c), ∀ style' ∈ tile.filterMap (styleOf c),
    style.parameters = style'.parameters
  quantization : ∀ q ∈ tile.filterMap (quantizationOf c),
    ∀ q' ∈ tile.filterMap (quantizationOf c), q = q'
  flags : ∀ style, styleInForce main tile c = some style →
    flagsUnion main tile c = style.flags

section
variable {main tile : List HeaderMarker} {c : ℕ} {α : Type}

theorem mem_of_lastOf {select : HeaderMarker → Option α} {markers : List HeaderMarker} {value : α}
    (h : lastOf select markers = some value) : ∃ marker ∈ markers, select marker = some value :=
  List.mem_filterMap.mp (List.mem_of_getLast? h)

theorem eq_none_of_lastOf {select : HeaderMarker → Option α} {markers : List HeaderMarker}
    (h : lastOf select markers = none) {marker : HeaderMarker} (hmem : marker ∈ markers) :
    select marker = none :=
  List.filterMap_eq_nil_iff.mp (List.getLast?_eq_none_iff.mp h) marker hmem

/-- A selected marker can come last. -/
theorem exists_perm_last {select : HeaderMarker → Option α} {markers : List HeaderMarker}
    {value : α} (h : value ∈ markers.filterMap select) :
    ∃ markers' : List HeaderMarker, markers'.Perm markers ∧
      (markers'.filterMap select).getLast? = some value := by
  obtain ⟨marker,hmem,hvalue⟩ := List.mem_filterMap.mp h
  obtain ⟨l,l',rfl⟩ := List.append_of_mem hmem
  refine ⟨(l++l')++[marker],?_,?_⟩
  · exact (@List.perm_append_comm _ (l++l') [marker]).trans (@List.perm_middle _ marker l l').symm
  · rw [List.filterMap_append]
    simp [hvalue]

theorem lastOr_of_getLast? {before value : α} {values : List α}
    (h : values.getLast? = some value) : lastOr before values = value := by
  rw [lastOr,h]
  rfl

/-- The last marker of one kind, else the last of another, else what was there before: it is one
of those that the tile-part gives, where it gives any. -/
theorem inForce_cases {β : Type} {all own : HeaderMarker → Option α}
    {general : HeaderMarker → Option β} {f : β → α}
    (h : ∀ marker, all marker = (own marker).or ((general marker).map f))
    (tile : List HeaderMarker) (before : Option α) :
    (∃ value ∈ tile.filterMap all,
      (lastOf own tile).or (((lastOf general tile).map f).or before) = some value) ∨
    (tile.filterMap all = [] ∧
      (lastOf own tile).or (((lastOf general tile).map f).or before) = before) := by
  cases hown : lastOf own tile with
  | some value =>
      obtain ⟨marker,hmem,hmarker⟩ := mem_of_lastOf hown
      refine .inl ⟨value,List.mem_filterMap.mpr ⟨marker,hmem,?_⟩,rfl⟩
      rw [h,hmarker]
      rfl
  | none =>
      cases hgeneral : lastOf general tile with
      | some value =>
          obtain ⟨marker,hmem,hmarker⟩ := mem_of_lastOf hgeneral
          refine .inl ⟨f value,List.mem_filterMap.mpr ⟨marker,hmem,?_⟩,rfl⟩
          rw [h,eq_none_of_lastOf hown hmem,hmarker]
          rfl
      | none =>
          refine .inr ⟨List.filterMap_eq_nil_iff.mpr fun marker hmem => ?_,rfl⟩
          rw [h,eq_none_of_lastOf hown hmem,eq_none_of_lastOf hgeneral hmem]
          rfl

/-- Where a tile-part is about the coding style of a component, the style in force is one of
those that it gives. -/
theorem styleInForce_cases (main tile : List HeaderMarker) (c : ℕ) :
    (∃ style ∈ tile.filterMap (styleOf c), styleInForce main tile c = some style) ∨
    (tile.filterMap (styleOf c) = [] ∧ styleInForce main tile c =
      (lastOf (cocOf c) main).or ((lastOf codOf main).map (·.componentParameters))) :=
  inForce_cases (fun marker => by cases marker <;> simp [styleOf,cocOf,codOf]) tile _

theorem quantizationInForce_cases (main tile : List HeaderMarker) (c : ℕ) :
    (∃ q ∈ tile.filterMap (quantizationOf c), quantizationInForce main tile c = some q) ∨
    (tile.filterMap (quantizationOf c) = [] ∧ quantizationInForce main tile c =
      (lastOf (qccOf c) main).or (lastOf qcdOf main)) := by
  have hcases := @inForce_cases _ _ (quantizationOf c) (qccOf c) qcdOf id
    (fun marker => by cases marker <;> simp [quantizationOf,qccOf,qcdOf]) tile
    ((lastOf (qccOf c) main).or (lastOf qcdOf main))
  rwa [Option.map_id] at hcases

/-- The order of the markers does not matter for the flags. -/
theorem flags_perm {tile' : List HeaderMarker} (h : tile'.Perm tile) (flags : ℕ) :
    (tile'.filterMap (styleOf c)).foldl (fun flags style => flags ||| style.flags) flags =
      (tile.filterMap (styleOf c)).foldl (fun flags style => flags ||| style.flags) flags :=
  (h.filterMap (styleOf c)).foldl_eq'
    (fun style _ style' _ flags => Nat.or_right_comm flags style.flags style'.flags) flags

variable {n : ℕ} {header : Header} {result : TileStyle}

/-- What any order of the markers makes of a component. -/
theorem parseTilePart_perm (hheader : readHeader n main = .ok header)
    (htile : parseTilePart (.inherit header) tile = .ok result) {tile' : List HeaderMarker}
    (hperm : tile'.Perm tile) :
    ∃ result, parseTilePart (.inherit header) tile' = .ok result ∧ ∀ c < n, ∃ source q,
      (lastOf (cocOf c) main).or ((lastOf codOf main).map (·.componentParameters)) = some source ∧
      (lastOf (qccOf c) main).or (lastOf qcdOf main) = some q ∧
      result.componentInfos[c]? = some ⟨⟨flagsUnion main tile c,
        lastOr source.parameters ((tile'.filterMap (styleOf c)).map (·.parameters))⟩,
        lastOr q (tile'.filterMap (quantizationOf c))⟩ := by
  have hvalid : ∀ marker ∈ tile', marker.Valid (TileStyle.inherit header).componentInfos.length :=
    fun marker hmem => exists_parseTilePart.mp ⟨result,htile⟩ marker (hperm.mem_iff.mp hmem)
  obtain ⟨result',hresult'⟩ := exists_parseTilePart.mpr hvalid
  obtain ⟨cod,qcd,hcod,hqcd,-,hinfos⟩ := readHeader_ok hheader
  refine ⟨result',hresult',fun c hc => ?_⟩
  obtain ⟨-,hget⟩ := parseTilePart_get hresult'
  have hinfo : (TileStyle.inherit header).componentInfos[c]? = some
      (buildComponentInfo cod qcd (lastOf (cocOf c) main) (lastOf (qccOf c) main)) := hinfos c hc
  have hsource : (lastOf (cocOf c) main).or ((lastOf codOf main).map (·.componentParameters)) =
      some ((lastOf (cocOf c) main).getD cod.componentParameters) := by
    rw [hcod]
    cases lastOf (cocOf c) main <;> rfl
  have hq : (lastOf (qccOf c) main).or (lastOf qcdOf main) =
      some ((lastOf (qccOf c) main).getD qcd) := by
    rw [hqcd]
    cases lastOf (qccOf c) main <;> rfl
  refine ⟨_,_,hsource,hq,?_⟩
  rw [hget,hinfo,Option.map_some,foldl_take,flags_perm hperm]
  unfold flagsUnion
  rw [hsource,hcod]
  rfl

end

/-- The style and the quantization in force are those that take precedence, whatever the order
of the markers is, exactly where the markers of the tile-part about a component agree and no
stale flag is left. -/
theorem precedence_iff {n : ℕ} {main tile : List HeaderMarker} {header : Header}
    {result : TileStyle} (hheader : readHeader n main = .ok header)
    (htile : parseTilePart (.inherit header) tile = .ok result) :
    Precedence n header main tile ↔ ∀ c < n, OrderFree main tile c := by
  constructor
  · intro h c hc
    -- Every marker about the component can be the last one.
    have hforced {tile' : List HeaderMarker} (hperm : tile'.Perm tile) :
        ∃ source q style quantization,
          styleInForce main tile c = some style ∧
          quantizationInForce main tile c = some quantization ∧
          style = ⟨flagsUnion main tile c,
            lastOr source ((tile'.filterMap (styleOf c)).map (·.parameters))⟩ ∧
          quantization = lastOr q (tile'.filterMap (quantizationOf c)) := by
      obtain ⟨result',hresult',hget⟩ := h tile' hperm
      obtain ⟨result'',hresult'',hget'⟩ := parseTilePart_perm hheader htile hperm
      cases hresult'.symm.trans hresult''
      obtain ⟨info,hinfo,hstyle,hquantization⟩ := hget c hc
      obtain ⟨source,q,-,-,hinfo'⟩ := hget' c hc
      cases hinfo.symm.trans hinfo'
      exact ⟨_,_,_,_,hstyle,hquantization,rfl,rfl⟩
    have hlast : ∀ style ∈ tile.filterMap (styleOf c), ∀ style',
        styleInForce main tile c = some style' → style.parameters = style'.parameters := by
      intro style hmem style' hstyle'
      obtain ⟨tile',hperm,hget⟩ := exists_perm_last hmem
      obtain ⟨source,q,forced,quantization,hforce,-,rfl,-⟩ := hforced hperm
      cases hstyle'.symm.trans hforce
      exact (lastOr_of_getLast? (by rw [List.getLast?_map,hget]; rfl)).symm
    have hlast' : ∀ q ∈ tile.filterMap (quantizationOf c), ∀ q',
        quantizationInForce main tile c = some q' → q = q' := by
      intro q hmem q' hq'
      obtain ⟨tile',hperm,hget⟩ := exists_perm_last hmem
      obtain ⟨source,before,forced,quantization,-,hforce,-,rfl⟩ := hforced hperm
      cases hq'.symm.trans hforce
      exact (lastOr_of_getLast? hget).symm
    obtain ⟨source,q,style,quantization,hstyle,hquantization,hunion,-⟩ :=
      hforced (List.Perm.refl tile)
    refine ⟨fun style₁ h₁ style₂ h₂ => ?_,fun q₁ h₁ q₂ h₂ => ?_,fun style' hstyle' => ?_⟩
    · exact (hlast _ h₁ _ hstyle).trans (hlast _ h₂ _ hstyle).symm
    · exact (hlast' _ h₁ _ hquantization).trans (hlast' _ h₂ _ hquantization).symm
    · cases hstyle.symm.trans hstyle'
      rw [hunion]
  · intro h tile' hperm
    obtain ⟨result',hresult',hget⟩ := parseTilePart_perm hheader htile hperm
    refine ⟨result',hresult',fun c hc => ?_⟩
    obtain ⟨source,q,hsource,hq,hinfo⟩ := hget c hc
    have hfree := h c hc
    have hstyles := hperm.filterMap (styleOf c)
    have hquantizations := hperm.filterMap (quantizationOf c)
    refine ⟨_,hinfo,?_,?_⟩
    · rcases styleInForce_cases main tile c with ⟨style,hmem,hstyle⟩ | ⟨hnone,hstyle⟩
      · have hne : (tile'.filterMap (styleOf c)) ≠ [] := fun hnil => by
          rw [hnil] at hstyles
          rw [← hstyles.nil_eq] at hmem
          cases hmem
        have hlast := List.getLast?_eq_some_getLast hne
        have hsame : ((tile'.filterMap (styleOf c)).getLast hne).parameters = style.parameters :=
          hfree.parameters _ (hstyles.mem_iff.mp (List.getLast_mem hne)) _ hmem
        rw [hstyle,hfree.flags style hstyle,
          lastOr_of_getLast? (by rw [List.getLast?_map,hlast]; rfl)]
        dsimp only
        rw [hsame]
      · rw [hnone] at hstyles
        rw [hstyles.eq_nil,hstyle,hsource,hfree.flags source (hstyle.trans hsource)]
        rfl
    · rcases quantizationInForce_cases main tile c with ⟨q',hmem,hq'⟩ | ⟨hnone,hq'⟩
      · have hne : (tile'.filterMap (quantizationOf c)) ≠ [] := fun hnil => by
          rw [hnil] at hquantizations
          rw [← hquantizations.nil_eq] at hmem
          cases hmem
        have hlast := List.getLast?_eq_some_getLast hne
        rw [hq',lastOr_of_getLast? hlast]
        exact congrArg some (hfree.quantization _ hmem _
          (hquantizations.mem_iff.mp (List.getLast_mem hne)))
      · rw [hnone] at hquantizations
        rw [hquantizations.eq_nil,hq',hq]
        rfl

/-- A coding style with a number of levels, large precincts and no other option. -/
def plainStyle (levels : ℕ) : CodingStyleComponent :=
  ⟨0,⟨⟨levels,levels+1,6,6,List.replicate (levels+1) (15,15)⟩,
    ⟨false,false,false,false,false,false,false⟩,.reversible53⟩⟩

def plainDefault (levels : ℕ) : CodingStyleDefault :=
  ⟨.layerResolutionComponentPosition,1,false,plainStyle levels⟩

def plainQuantization : QuantizationInfo := ⟨.noQuantization,2,[⟨0,8⟩]⟩

/-- A COD after a COC replaces it. -/
theorem late_cod_wins :
    let main : List HeaderMarker := [.cod (plainDefault 0),.qcd plainQuantization]
    let tile : List HeaderMarker := [.coc 0 (plainStyle 1),.cod (plainDefault 2)]
    let header : Header := ⟨plainDefault 0,[⟨plainStyle 0,plainQuantization⟩]⟩
    readHeader 1 main = .ok header ∧
    parseTilePart (.inherit header) tile = .ok ⟨.layerResolutionComponentPosition,1,false,
      [⟨plainStyle 2,plainQuantization⟩]⟩ ∧
    styleInForce main tile 0 = some (plainStyle 1) ∧
    ¬Precedence 1 header main tile := by
  intro main tile header
  have htile : parseTilePart (.inherit header) tile = .ok ⟨.layerResolutionComponentPosition,1,
      false,[⟨plainStyle 2,plainQuantization⟩]⟩ := rfl
  refine ⟨rfl,htile,by decide,fun h => ?_⟩
  obtain ⟨result,hresult,hget⟩ := h tile (List.Perm.refl tile)
  cases htile.symm.trans hresult
  obtain ⟨info,hinfo,hstyle,-⟩ := hget 0 Nat.one_pos
  cases hinfo
  exact absurd hstyle (by decide)

theorem precedence_without_cod :
    Precedence 1 ⟨plainDefault 0,[⟨plainStyle 0,plainQuantization⟩]⟩
      [.cod (plainDefault 0),.qcd plainQuantization] [.coc 0 (plainStyle 1)] :=
  (@precedence_iff 1 [.cod (plainDefault 0),.qcd plainQuantization] [.coc 0 (plainStyle 1)]
    ⟨plainDefault 0,[⟨plainStyle 0,plainQuantization⟩]⟩ _ rfl rfl).mpr fun c hc => by
      obtain rfl : c = 0 := Nat.lt_one_iff.mp hc
      refine ⟨by decide,by decide,fun style hstyle => ?_⟩
      cases hstyle
      rfl

end J2kNative.ParameterPrecedence
