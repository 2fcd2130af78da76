import J2kNative.PacketMarkers
import J2kNative.PacketPlan

/-!
# The main header

The writer of the main header: SIZ, CAP, COD, QCD, and the QCC and RGN segments of
single components. Fields are natural numbers; each is cut to the width it is written
with, as the release build of the source does it.
-/
namespace J2kNative.MainHeader
open PacketMarkers PacketPlan

namespace markers
abbrev SOC : ℕ := 0x4F
abbrev CAP : ℕ := 0x50
abbrev SIZ : ℕ := 0x51
abbrev COD : ℕ := 0x52
abbrev QCD : ℕ := 0x5C
abbrev QCC : ℕ := 0x5D
abbrev RGN : ℕ := 0x5E
end markers

def htRsizCapability : ℕ := 0x4000

structure EncodeComponentSampleInfo where
  bitDepth : ℕ
  signed : Bool
  deriving DecidableEq, Repr

inductive BlockCodingMode where
  | classic
  | highThroughput
  deriving DecidableEq, Repr

structure EncodeParams where
  width : ℕ
  height : ℕ
  tileWidth : ℕ
  tileHeight : ℕ
  numComponents : ℕ
  bitDepth : ℕ
  signed : Bool
  componentSampleInfo : List EncodeComponentSampleInfo
  componentQuantizationStepSizes : List (List (ℕ × ℕ))
  numDecompositionLevels : ℕ
  reversible : Bool
  codeBlockWidthExp : ℕ
  codeBlockHeightExp : ℕ
  numLayers : ℕ
  useMct : Bool
  guardBits : ℕ
  blockCodingMode : BlockCodingMode
  requiredHtMagnitudeBound : Option ℕ
  progressionOrder : PacketizationProgressionOrder
  writeTlm : Bool
  writePlt : Bool
  writePlm : Bool
  writePpm : Bool
  writePpt : Bool
  writeSop : Bool
  writeEph : Bool
  terminateCodingPasses : Bool
  componentSampling : List (ℕ × ℕ)
  roiComponentShifts : List ℕ
  precinctExponents : List (ℕ × ℕ)
  deriving DecidableEq, Repr

/-- `EncodeParams::default`. -/
def EncodeParams.default : EncodeParams where
  width := 0
  height := 0
  tileWidth := 0
  tileHeight := 0
  numComponents := 1
  bitDepth := 8
  signed := false
  componentSampleInfo := []
  componentQuantizationStepSizes := []
  numDecompositionLevels := 5
  reversible := true
  codeBlockWidthExp := 4
  codeBlockHeightExp := 4
  numLayers := 1
  useMct := false
  guardBits := 1
  blockCodingMode := .classic
  requiredHtMagnitudeBound := none
  progressionOrder := .lrcp
  writeTlm := false
  writePlt := false
  writePlm := false
  writePpm := false
  writePpt := false
  writeSop := false
  writeEph := false
  terminateCodingPasses := false
  componentSampling := []
  roiComponentShifts := []
  precinctExponents := []

/-- `sample_info_for_component`. -/
def EncodeParams.sampleInfoForComponent (params : EncodeParams) (componentIndex : ℕ) :
    EncodeComponentSampleInfo :=
  params.componentSampleInfo[componentIndex]?.getD ⟨params.bitDepth, params.signed⟩

/-- `max_component_bit_depth`. -/
def EncodeParams.maxComponentBitDepth (params : EncodeParams) : ℕ :=
  ((List.range params.numComponents).map
    fun i => (params.sampleInfoForComponent i).bitDepth).max?.getD params.bitDepth

/-! ## SIZ and CAP -/

/-- The entry of a component in SIZ: the depth less one with the sign, and the sub-sampling. -/
def sizComponent (params : EncodeParams) (componentIndex : ℕ) : List ℕ :=
  let sampleInfo := params.sampleInfoForComponent componentIndex
  let depth := (sampleInfo.bitDepth + 255) % 2 ^ 8
  let ssiz := if sampleInfo.signed then depth ||| 0x80 else depth
  let (xRsiz, yRsiz) := params.componentSampling[componentIndex]?.getD (1, 1)
  [ssiz, xRsiz % 2 ^ 8, yRsiz % 2 ^ 8]

/-- `write_siz_marker`. The length wraps where it does not fit. -/
def sizMarker (params : EncodeParams) : List ℕ :=
  let rsiz := match params.blockCodingMode with
    | .classic => 0
    | .highThroughput => htRsizCapability
  let tileWidth := if params.tileWidth = 0 then params.width else params.tileWidth
  let tileHeight := if params.tileHeight = 0 then params.height else params.tileHeight
  [0xFF, markers.SIZ] ++ beBytes16 (38 + 3 * params.numComponents) ++ beBytes16 rsiz ++
    beBytes32 params.width ++ beBytes32 params.height ++ beBytes32 0 ++ beBytes32 0 ++
    beBytes32 tileWidth ++ beBytes32 tileHeight ++ beBytes32 0 ++ beBytes32 0 ++
    beBytes16 params.numComponents ++
    (List.range params.numComponents).flatMap (sizComponent params)

/-- `encode_magnitude_bound`. -/
def encodeMagnitudeBound (requiredBound : ℕ) : ℕ :=
  let value := max 8 (min requiredBound 74)
  if value ≤ 27 then value - 8
  else if value ≤ 31 then 20
  else if value ≤ 71 then 20 + (value - 31 + 3) / 4
  else 31

/-- `ht_capability_word`. -/
def htCapabilityWord (params : EncodeParams) : ℕ :=
  let maxRoiShift := params.roiComponentShifts.max?.getD 0
  let magnitudeBound := params.requiredHtMagnitudeBound.getD
    (min (params.maxComponentBitDepth - 1 + maxRoiShift) 255)
  let roiFlag := if maxRoiShift = 0 then 0 else 0x1000
  let waveletFlag := if params.reversible then 0 else 0x0020
  roiFlag ||| waveletFlag ||| encodeMagnitudeBound magnitudeBound

/-- `write_cap_marker`. -/
def capMarker (params : EncodeParams) : List ℕ :=
  [0xFF, markers.CAP] ++ beBytes16 8 ++ beBytes32 0x00020000 ++ beBytes16 (htCapabilityWord params)

/-! ## COD and RGN -/

/-- A length of a marker segment within `u16`. -/
def checkedLength (length : ℕ) (what : String) : Except String ℕ :=
  if length < 2 ^ 16 then .ok length else .error what

/-- `codestream_order_code`. -/
def codestreamOrderCode : PacketizationProgressionOrder → ℕ
  | .lrcp => 0
  | .rlcp => 1
  | .rpcl => 2
  | .pcrl => 3
  | .cprl => 4

/-- The coding-style flags `Scod`. -/
def codingStyleFlags (params : EncodeParams) : ℕ :=
  (if params.precinctExponents.isEmpty then 0 else 0x01) |||
    (if params.writeSop then 0x02 else 0) ||| (if params.writeEph then 0x04 else 0)

/-- `write_cod_marker`. -/
def codMarker (params : EncodeParams) : Except String (List ℕ) := do
  let markerLen ← checkedLength (12 + params.precinctExponents.length)
    "precinct exponent count exceeds COD marker length"
  let codeBlockStyle := (params.terminateCodingPasses.toNat <<< 2) |||
    match params.blockCodingMode with
    | .classic => 0x00
    | .highThroughput => 0x40
  .ok ([0xFF, markers.COD] ++ beBytes16 markerLen ++
    [codingStyleFlags params, codestreamOrderCode params.progressionOrder] ++
    beBytes16 params.numLayers ++
    [params.useMct.toNat, params.numDecompositionLevels % 2 ^ 8, params.codeBlockWidthExp % 2 ^ 8,
      params.codeBlockHeightExp % 2 ^ 8, codeBlockStyle, params.reversible.toNat] ++
    params.precinctExponents.map fun (ppx, ppy) => ((ppy <<< 4) ||| ppx) % 2 ^ 8)

/-- One segment of `write_rgn_markers`. -/
def rgnMarker (params : EncodeParams) (componentIndex shift : ℕ) : List ℕ :=
  [0xFF, markers.RGN] ++
    (if params.numComponents < 257 then beBytes16 5 ++ [componentIndex % 2 ^ 8]
      else beBytes16 6 ++ beBytes16 componentIndex) ++ [0, shift % 2 ^ 8]

/-- `write_rgn_markers`. -/
def rgnMarkers (params : EncodeParams) : List ℕ :=
  (List.range params.numComponents).flatMap fun componentIndex =>
    match params.roiComponentShifts[componentIndex]? with
    | none => []
    | some shift => if shift = 0 then [] else rgnMarker params componentIndex shift

/-! ## QCD and QCC -/

/-- The quantization entry of a sub-band: the exponent alone, or exponent and mantissa. -/
def stepBytes (reversible : Bool) (step : ℕ × ℕ) : List ℕ :=
  if reversible then [(step.1 <<< 3) % 2 ^ 8]
  else beBytes16 (((step.1 &&& 0x1F) <<< 11) ||| (step.2 &&& 0x7FF))

/-- What `write_qcd_marker` and `write_qcc_marker` share; QCC writes the index of its component
behind the length. -/
def quantizationMarker (name : String) (code : ℕ) (index : List ℕ) (params : EncodeParams)
    (stepSizes : List (ℕ × ℕ)) : Except String (List ℕ) := do
  let stepCount ← checkedLength stepSizes.length (name ++ " step-size count exceeds marker capacity")
  let stepLen ← (if params.reversible then .ok stepCount
    else checkedLength (stepCount * 2) (name ++ " step-size byte length exceeds u16"))
  let markerLen ← checkedLength (3 + index.length + stepLen) (name ++ " marker length exceeds u16")
  if params.reversible ∧ stepSizes.any (fun step => step.1 > 0x1F) then
    .error (name ++ " exponent exceeds five bits")
  else
    let style := (params.guardBits <<< 5) % 2 ^ 8 ||| (if params.reversible then 0 else 0x02)
    .ok ([0xFF, code] ++ beBytes16 markerLen ++ index ++ [style] ++
      stepSizes.flatMap (stepBytes params.reversible))

/-- `write_qcd_marker`. -/
def qcdMarker (params : EncodeParams) (stepSizes : List (ℕ × ℕ)) : Except String (List ℕ) :=
  quantizationMarker "QCD" markers.QCD [] params stepSizes

/-- The component index of QCC, in one byte up to 256 components. -/
def componentIndexBytes (params : EncodeParams) (componentIndex : ℕ) : List ℕ :=
  if params.numComponents < 257 then [componentIndex % 2 ^ 8] else beBytes16 componentIndex

/-- `write_qcc_marker`. -/
def qccMarker (params : EncodeParams) (componentIndex : ℕ) (stepSizes : List (ℕ × ℕ)) :
    Except String (List ℕ) :=
  quantizationMarker "QCC" markers.QCC (componentIndexBytes params componentIndex) params stepSizes

/-- `write_qcc_markers`. -/
def qccMarkers (params : EncodeParams) : Except String (List ℕ) := do
  let segments ← (List.range params.numComponents).mapM fun componentIndex =>
    match params.componentQuantizationStepSizes[componentIndex]? with
    | none => .ok []
    | some stepSizes =>
        if stepSizes.isEmpty then .ok [] else qccMarker params componentIndex stepSizes
  .ok segments.flatten

/-- `write_main_header_prefix`. -/
def mainHeaderPrefix (params : EncodeParams) (stepSizes : List (ℕ × ℕ)) :
    Except String (List ℕ) := do
  let cod ← codMarker params
  let qcd ← qcdMarker params stepSizes
  let qcc ← qccMarkers params
  .ok ([0xFF, markers.SOC] ++ sizMarker params ++
    (if params.blockCodingMode = .highThroughput then capMarker params else []) ++
    cod ++ qcd ++ qcc ++ rgnMarkers params)

end J2kNative.MainHeader
