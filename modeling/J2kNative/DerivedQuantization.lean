import J2kNative.TilePartParsing

/-!
# Derived quantization

With derived step sizes a single exponent is transmitted, and that of a sub-band follows from
the number of its decompositions. The decoder first takes the number of all decomposition
levels off the exponent and then adds those of the sub-band.
-/
namespace J2kNative.DerivedQuantization
open Fallible TileTree MarkerSegments ParameterPrecedence TilePartParsing

inductive ValidationError where
  | missingStepSize
  | invalidExponents
  deriving DecidableEq, Repr

def decompositionLevels (info : ComponentStyle) : ℕ :=
  info.codingStyle.parameters.geometry.numDecompositionLevels

/-- The number of decompositions of the sub-bands of a resolution. -/
def bandDecompositions (levels resolution : ℕ) : ℕ :=
  if resolution = 0 then levels else levels + 1 - resolution

/-- The place of a sub-band among the step sizes of its resolution; the low band has none. -/
def subBandIndex : SubBandType → ℕ
  | .lowLow => 2 ^ 16 - 1
  | .highLow => 0
  | .lowHigh => 1
  | .highHigh => 2

/-- `exponent_mantissa`. -/
def exponentMantissa (info : ComponentStyle) (subBandType : SubBandType) (resolution : ℕ) :
    Except ValidationError (ℕ × ℕ) :=
  let nLl := decompositionLevels info
  let stepSizes := info.quantizationInfo.stepSizes
  match info.quantizationInfo.quantizationStyle with
  | .noQuantization | .scalarExpounded =>
      let entry := if resolution = 0 then stepSizes.head?
        else stepSizes[1 + (resolution - 1) * 3 + subBandIndex subBandType]?
      match entry with
      | some s => .ok (s.exponent,s.mantissa)
      | none => .error .missingStepSize
  | .scalarDerived =>
      match stepSizes.head? with
      | none => .error .missingStepSize
      | some s =>
          if s.exponent < nLl then .error .invalidExponents
          else if s.exponent - nLl + bandDecompositions nLl resolution ≥ 2 ^ 16 then
            .error .invalidExponents
          else .ok (s.exponent - nLl + bandDecompositions nLl resolution,s.mantissa)

/-! ## What the parser accepts -/

/-- A derived quantization has one step size, with an exponent of five bits. -/
def Single (q : QuantizationInfo) : Prop :=
  q.quantizationStyle = .scalarDerived → ∃ s, q.stepSizes = [s] ∧ s.exponent < 32

theorem parse_bind_ok {α β : Type} {p : Parse α} {f : α → Parse β} {data : List ℕ}
    {r : β × List ℕ} (h : (p >>= f) data = .ok r) :
    ∃ a rest, p data = .ok (a,rest) ∧ f a rest = .ok r := by
  obtain ⟨⟨a,rest⟩,hp,hf⟩ := bind_eq_ok.mp h
  exact ⟨a,rest,hp,hf⟩

/-- The bytes behind what a reader has read are bytes of the data. -/
def Reads {α : Type} (p : Parse α) : Prop :=
  ∀ data a rest, p data = .ok (a,rest) → ∀ b ∈ rest, b ∈ data

theorem reads_byte (marker : String) : Reads (byte marker) := by
  intro data a rest h
  cases data with
  | nil => cases h
  | cons x data =>
      obtain ⟨-,rfl⟩ := Prod.mk.inj (Except.ok.inj h)
      exact fun b hb => List.mem_cons_of_mem x hb

theorem reads_u16 (marker : String) : Reads (u16 marker) := by
  intro data a rest h
  match data with
  | [] | [_] => cases h
  | x :: y :: data =>
      obtain ⟨-,rfl⟩ := Prod.mk.inj (Except.ok.inj h)
      exact fun b hb => List.mem_cons_of_mem x (List.mem_cons_of_mem y hb)

theorem u16_lt {marker : String} {data rest : List ℕ} {v : ℕ} (hdata : ∀ b ∈ data, b < 256)
    (h : u16 marker data = .ok (v,rest)) : v < 2 ^ 16 := by
  match data with
  | [] | [_] => cases h
  | x :: y :: data =>
      obtain ⟨rfl,-⟩ := Prod.mk.inj (Except.ok.inj h)
      have hx := hdata x List.mem_cons_self
      have hy := hdata y (List.mem_cons_of_mem x List.mem_cons_self)
      omega

theorem stepSizeWord_exponent {marker : String} {data rest : List ℕ} {s : StepSize}
    (hdata : ∀ b ∈ data, b < 256) (h : stepSizeWord marker data = .ok (s,rest)) :
    s.exponent < 32 := by
  obtain ⟨value,rest',hread,h⟩ := parse_bind_ok h
  obtain ⟨rfl,-⟩ := Prod.mk.inj (Except.ok.inj h)
  have hlt := u16_lt hdata hread
  show value >>> 11 < 32
  rw [Nat.shiftRight_eq_div_pow]
  omega

theorem quantizationParameters_single {length before : ℕ} {marker : String} {data rest : List ℕ}
    {q : QuantizationInfo} (hdata : ∀ b ∈ data, b < 256)
    (h : quantizationParameters length before marker data = .ok (q,rest)) : Single q := by
  obtain ⟨sqcdVal,rest₁,hbyte,h⟩ := parse_bind_ok h
  obtain ⟨style,rest₂,hstyle,h⟩ := parse_bind_ok h
  obtain ⟨_,rest₃,hcheck,h⟩ := parse_bind_ok h
  have hrest₂ : rest₂ = rest₁ := by
    revert hstyle
    generalize sqcdVal &&& 0x1F = code
    intro hstyle
    match code with
    | 0 | 1 | 2 => exact (Prod.mk.inj (Except.ok.inj hstyle)).2.symm
    | _+3 => cases hstyle
  have hrest₃ : rest₃ = rest₂ := by
    unfold check at hcheck
    split_ifs at hcheck
    · exact (Prod.mk.inj (Except.ok.inj hcheck)).2.symm
    · cases hcheck
  have hbytes : ∀ b ∈ rest₃, b < 256 := by
    rw [hrest₃,hrest₂]
    exact fun b hb => hdata b (reads_byte marker _ _ _ hbyte b hb)
  cases style with
  | noQuantization | scalarExpounded =>
      obtain ⟨stepSizes,rest₄,-,h⟩ := parse_bind_ok h
      obtain ⟨rfl,-⟩ := Prod.mk.inj (Except.ok.inj h)
      rintro ⟨⟩
  | scalarDerived =>
      obtain ⟨stepSizes,rest₄,hsteps,h⟩ := parse_bind_ok h
      obtain ⟨rfl,-⟩ := Prod.mk.inj (Except.ok.inj h)
      intro _
      obtain ⟨s,rest₅,hs,hsteps⟩ := parse_bind_ok hsteps
      obtain ⟨none,rest₆,hnone,hsteps⟩ := parse_bind_ok hsteps
      obtain ⟨rfl,-⟩ := Prod.mk.inj (Except.ok.inj hnone)
      obtain ⟨rfl,-⟩ := Prod.mk.inj (Except.ok.inj hsteps)
      exact ⟨s,rfl,stepSizeWord_exponent hbytes hs⟩

theorem qcdMarker_single {data rest : List ℕ} {q : QuantizationInfo}
    (hdata : ∀ b ∈ data, b < 256) (h : qcdMarker data = .ok (q,rest)) : Single q := by
  obtain ⟨length,rest',hlength,h⟩ := parse_bind_ok h
  exact quantizationParameters_single
    (fun b hb => hdata b (reads_u16 "QCD" _ _ _ hlength b hb)) h

theorem qccMarker_single {csiz c : ℕ} {data rest : List ℕ} {q : QuantizationInfo}
    (hdata : ∀ b ∈ data, b < 256) (h : qccMarker csiz data = .ok ((c,q),rest)) : Single q := by
  obtain ⟨length,rest₁,hlength,h⟩ := parse_bind_ok h
  obtain ⟨component,rest₂,hcomponent,h⟩ := parse_bind_ok h
  obtain ⟨parameters,rest₃,hparameters,h⟩ := parse_bind_ok h
  obtain ⟨hq,-⟩ := Prod.mk.inj (Except.ok.inj h)
  obtain ⟨-,rfl⟩ := Prod.mk.inj hq
  have hreads : Reads (readComponentIndex csiz "QCC") := by
    unfold readComponentIndex
    split_ifs
    · exact reads_byte "QCC"
    · exact reads_u16 "QCC"
  exact quantizationParameters_single (fun b hb => hdata b (reads_u16 "QCC" _ _ _ hlength b
    (hreads _ _ _ hcomponent b hb))) hparameters

/-- A marker as the parsers of QCD and QCC return it. -/
def Accepted : HeaderMarker → Prop
  | .qcd q => ∃ data rest, (∀ b ∈ data, b < 256) ∧ qcdMarker data = .ok (q,rest)
  | .qcc c q => ∃ csiz data rest, (∀ b ∈ data, b < 256) ∧ qccMarker csiz data = .ok ((c,q),rest)
  | _ => True

theorem Accepted.single {c : ℕ} {marker : HeaderMarker} (h : Accepted marker)
    {q : QuantizationInfo} (hq : quantizationOf c marker = some q) : Single q := by
  cases marker with
  | cod | coc | other => cases hq
  | qcd quantization =>
      obtain rfl := Option.some.inj hq
      obtain ⟨data,rest,hdata,h⟩ := h
      exact qcdMarker_single hdata h
  | qcc component quantization =>
      simp only [quantizationOf] at hq
      split_ifs at hq
      obtain rfl := Option.some.inj hq
      obtain ⟨csiz,data,rest,hdata,h⟩ := h
      exact qccMarker_single hdata h

section
variable {n c : ℕ} {markers tileMarkers : List HeaderMarker} {header : Header} {tile : TileStyle}
  {info : ComponentStyle}

/-- The quantization in force comes from some marker that was accepted. -/
theorem componentInfo_single (hmarkers : ∀ marker ∈ markers, Accepted marker)
    (htileMarkers : ∀ marker ∈ tileMarkers, Accepted marker)
    (hheader : readHeader n markers = .ok header)
    (htile : ParameterPrecedence.parseTilePart (.inherit header) tileMarkers = .ok tile)
    (hinfo : tile.componentInfos[c]? = some info) : Single info.quantizationInfo := by
  obtain ⟨cod,qcd,-,hqcd,hlength,hget⟩ := readHeader_ok hheader
  rw [(parseTilePart_get htile).2 c,Option.map_eq_some_iff] at hinfo
  obtain ⟨before,hbefore,rfl⟩ := hinfo
  have hlt : c < n := hlength ▸ (List.getElem?_eq_some_iff.mp hbefore).1
  obtain rfl := Option.some.inj (hbefore.symm.trans (hget c hlt))
  have hmain : Single ((lastOf (qccOf c) markers).getD qcd) := by
    cases hqcc : lastOf (qccOf c) markers with
    | none =>
        obtain ⟨marker,hmem,hselect⟩ := mem_of_lastOf hqcd
        refine (hmarkers marker hmem).single (c := c) ?_
        cases marker <;> simp_all [qcdOf,quantizationOf]
    | some q =>
        obtain ⟨marker,hmem,hselect⟩ := mem_of_lastOf hqcc
        refine (hmarkers marker hmem).single (c := c) ?_
        cases marker <;> simp_all [qccOf,quantizationOf]
  rw [foldl_take]
  show Single (lastOr _ _)
  unfold lastOr
  cases hlast : (tileMarkers.filterMap (quantizationOf c)).getLast? with
  | none => exact hmain
  | some q =>
      obtain ⟨marker,hmem,hselect⟩ := List.mem_filterMap.mp (List.mem_of_getLast? hlast)
      exact (htileMarkers marker hmem).single hselect

end

/-! ## The derived exponent -/

/-- The exponent of a sub-band is that transmitted, less the levels that it has not been
decomposed; where this is not negative the decoder has to find it. -/
def Derived (info : ComponentStyle) (s : StepSize) (band : SubBandType) (resolution : ℕ) : Prop :=
  let undecomposed := (decompositionLevels info : ℤ) -
    bandDecompositions (decompositionLevels info) resolution
  0 ≤ (s.exponent : ℤ) - undecomposed →
    ∃ exponent : ℕ, (exponent : ℤ) = s.exponent - undecomposed ∧
      exponentMantissa info band resolution = .ok (exponent,s.mantissa)

theorem bandDecompositions_le (levels resolution : ℕ) :
    bandDecompositions levels resolution ≤ levels := by
  unfold bandDecompositions
  split_ifs with h
  · exact le_rfl
  · omega

/-- The levels come off the exponent before those of the sub-band are added again. -/
theorem exponentMantissa_eq {info : ComponentStyle} {s : StepSize} (band : SubBandType)
    (resolution : ℕ) (hderived : info.quantizationInfo.quantizationStyle = .scalarDerived)
    (hsteps : info.quantizationInfo.stepSizes = [s]) (hexponent : s.exponent < 32) :
    exponentMantissa info band resolution =
      if decompositionLevels info ≤ s.exponent then
        .ok (s.exponent - decompositionLevels info +
          bandDecompositions (decompositionLevels info) resolution,s.mantissa)
      else .error .invalidExponents := by
  have hle := bandDecompositions_le (decompositionLevels info) resolution
  unfold exponentMantissa
  simp only [hderived,hsteps,List.head?_cons]
  by_cases hle' : decompositionLevels info ≤ s.exponent
  · rw [if_neg (by omega),if_neg (by omega),if_pos hle']
  · rw [if_pos (by omega),if_neg hle']

theorem derived_iff {info : ComponentStyle} {s : StepSize} (band : SubBandType) (resolution : ℕ)
    (hderived : info.quantizationInfo.quantizationStyle = .scalarDerived)
    (hsteps : info.quantizationInfo.stepSizes = [s]) (hexponent : s.exponent < 32) :
    Derived info s band resolution ↔ decompositionLevels info ≤ s.exponent ∨
      s.exponent + bandDecompositions (decompositionLevels info) resolution <
        decompositionLevels info := by
  unfold Derived
  rw [exponentMantissa_eq band resolution hderived hsteps hexponent]
  constructor
  · intro h
    by_contra hcon
    obtain ⟨exponent,-,hok⟩ := h (by omega)
    rw [if_neg (by omega)] at hok
    cases hok
  · intro h undecomposed hnonneg
    have hle : decompositionLevels info ≤ s.exponent := by omega
    rw [if_pos hle]
    exact ⟨_,by omega,rfl⟩

/-- Whatever QCD, QCC, COD and COC markers are in force for a component, a sub-band gets its
derived exponent if and only if no more levels than the transmitted exponent are taken off, or
the derived exponent is negative. -/
theorem derived_quantization_iff {n c : ℕ} {markers tileMarkers : List HeaderMarker}
    {header : Header} {tile : TileStyle} {info : ComponentStyle}
    (hmarkers : ∀ marker ∈ markers, Accepted marker)
    (htileMarkers : ∀ marker ∈ tileMarkers, Accepted marker)
    (hheader : readHeader n markers = .ok header)
    (htile : ParameterPrecedence.parseTilePart (.inherit header) tileMarkers = .ok tile)
    (hinfo : tile.componentInfos[c]? = some info)
    (hderived : info.quantizationInfo.quantizationStyle = .scalarDerived) :
    ∃ s, info.quantizationInfo.stepSizes = [s] ∧
      ∀ band, ∀ resolution ≤ decompositionLevels info,
        (Derived info s band resolution ↔ decompositionLevels info ≤ s.exponent ∨
          s.exponent + bandDecompositions (decompositionLevels info) resolution <
            decompositionLevels info) := by
  obtain ⟨s,hsteps,hexponent⟩ :=
    componentInfo_single hmarkers htileMarkers hheader htile hinfo hderived
  exact ⟨s,hsteps,fun band resolution _ => derived_iff band resolution hderived hsteps hexponent⟩

/-! ## A QCD marker of exponent three with five levels -/

/-- The segment of a QCD marker: its length, the style and one step size. -/
def qcdBytes : List ℕ := [0,5,0x41,0x18,0x00]

def derivedQcd : QuantizationInfo := ⟨.scalarDerived,2,[⟨0,3⟩]⟩

def derivedCod (levels : ℕ) : CodingStyleDefault :=
  ⟨.layerResolutionComponentPosition,1,false,⟨0,⟨⟨levels,levels+1,6,6,
    List.replicate (levels+1) (15,15)⟩,codeBlockStyleFromU8 0,.irreversible97⟩⟩⟩

def derivedInfo (levels : ℕ) : ComponentStyle := ⟨(derivedCod levels).componentParameters,derivedQcd⟩

theorem accepted_derivedQcd (levels : ℕ) :
    ∀ marker ∈ [HeaderMarker.cod (derivedCod levels),.qcd derivedQcd], Accepted marker := by
  intro marker hmem
  rcases List.mem_pair.mp hmem with rfl | rfl
  · trivial
  · exact ⟨qcdBytes,[],by decide,by decide⟩

theorem derived_quantization_three :
    ∃ s, derivedQcd.stepSizes = [s] ∧ ∀ band, ∀ resolution ≤ 3,
      (Derived (derivedInfo 3) s band resolution ↔
        3 ≤ s.exponent ∨ s.exponent + bandDecompositions 3 resolution < 3) :=
  @derived_quantization_iff 1 0 _ [] _ _ _ (accepted_derivedQcd 3) (by simp) rfl rfl rfl rfl

/-- The low band has been decomposed as often as there are levels, so that its derived exponent
is the transmitted three, but five levels come off first. -/
theorem derived_quantization_rejected :
    readHeader 1 [.cod (derivedCod 5),.qcd derivedQcd] =
        .ok ⟨derivedCod 5,[derivedInfo 5]⟩ ∧
      qcdMarker qcdBytes = .ok (derivedQcd,[]) ∧
      exponentMantissa (derivedInfo 5) .lowLow 0 = .error .invalidExponents ∧
      ¬Derived (derivedInfo 5) ⟨0,3⟩ .lowLow 0 := by
  refine ⟨by decide,by decide,by decide,fun h => ?_⟩
  obtain ⟨exponent,-,hok⟩ := h (by decide)
  cases hok

end J2kNative.DerivedQuantization
