import J2kNative.Lockstep
import J2kNative.MarkerSegments
import J2kNative.ParameterPrecedence

/-!
# Reading tile-parts

The header of a tile-part with its marker segments, the packet data that follow it, and
the loop over the tile-parts of a codestream. A tile-part without a length (Psot is 0)
takes what is left of the codestream. The accounting of the decoder's own allocations
is left out, except for a bound on what one segment may own.
-/
namespace J2kNative.TilePartParsing
open TileTree PacketMarkers MarkerSegments ParameterPrecedence

inductive TileParseError where
  | segment (error : DecodeError)
  | header (error : HeaderError)
  | expected (marker : String)
  | parseFailure (marker : String)
  | unsupportedFeature (what : String)
  | invalidIndex
  | invalidTile
  | imageTooLarge
  deriving DecidableEq, Repr

/-- What reads the bytes before the reader. -/
abbrev Parse (α : Type) := StateT (List ℕ) (Except TileParseError) α

def fail {α : Type} (e : TileParseError) : Parse α := fun _ => .error e

/-- A reader that may find nothing. -/
def orFail {α : Type} (read : List ℕ → Option (α × List ℕ)) (e : TileParseError) : Parse α :=
  fun data => match read data with
    | none => .error e
    | some r => .ok r

def segment {α : Type} (read : List ℕ → Except DecodeError (α × List ℕ)) : Parse α :=
  fun data => (read data).mapError .segment

def check (ok : Prop) [Decidable ok] (e : TileParseError) : Parse Unit :=
  if ok then pure () else fail e

def byte (marker : String) : Parse ℕ := orFail readByte (.parseFailure marker)

def u16 (marker : String) : Parse ℕ := orFail readU16 (.parseFailure marker)

/-! ## Marker segments -/

def maxLayerCount : ℕ := 32
def maxResolutionCount : ℕ := 32

def progressionOrderFromU8 (marker : String) : ℕ → Parse ProgressionOrder
  | 0 => pure .layerResolutionComponentPosition
  | 1 => pure .resolutionLayerComponentPosition
  | 2 => pure .resolutionPositionComponentLayer
  | 3 => pure .positionComponentResolutionLayer
  | 4 => pure .componentPositionResolutionLayer
  | _ => fail (.parseFailure marker)

def waveletTransformFromU8 (marker : String) : ℕ → Parse WaveletTransform
  | 0 => pure .irreversible97
  | 1 => pure .reversible53
  | _ => fail (.parseFailure marker)

/-- The predictable termination flag, bit 4, is only informative. -/
def codeBlockStyleFromU8 (value : ℕ) : CodeBlockStyle :=
  ⟨value.testBit 0,value.testBit 1,value.testBit 2,value.testBit 3,value.testBit 5,value.testBit 6,
    value.testBit 7⟩

/-- A byte to which two is added. -/
def codeBlockExponent (marker : String) : Parse ℕ := do
  let value ← byte marker
  check (value+2 < 2^8) (.parseFailure marker)
  pure (value+2)

/-- Reads some times. -/
def readMany {α : Type} (read : Parse α) : ℕ → Parse (List α)
  | 0 => pure []
  | n+1 => do
    let value ← read
    let values ← readMany read n
    pure (value :: values)

def precinctExponent (marker : String) : Parse (ℕ × ℕ) := do
  let precinctSize ← byte marker
  pure (precinctSize &&& 0xF,precinctSize >>> 4)

def codingStyleParameters (flags : ℕ) (marker : String) : Parse StyleParameters := do
  let numDecompositionLevels ← byte marker
  check (numDecompositionLevels ≤ maxResolutionCount) (.parseFailure marker)
  let codeBlockWidth ← codeBlockExponent marker
  let codeBlockHeight ← codeBlockExponent marker
  let style ← byte marker
  let transform ← byte marker
  let transformation ← waveletTransformFromU8 marker transform
  let precinctExponents ← if flags.testBit 0 then
      readMany (precinctExponent marker) (numDecompositionLevels+1)
    else pure (List.replicate (numDecompositionLevels+1) (15,15))
  pure ⟨⟨numDecompositionLevels,numDecompositionLevels+1,codeBlockWidth,codeBlockHeight,
    precinctExponents⟩,codeBlockStyleFromU8 style,transformation⟩

def codMarker : Parse CodingStyleDefault := do
  let _ ← u16 "COD"
  let flags ← byte "COD"
  let order ← byte "COD"
  let progressionOrder ← progressionOrderFromU8 "COD" order
  let numLayers ← u16 "COD"
  check (numLayers ≠ 0 ∧ numLayers ≤ maxLayerCount) (.parseFailure "COD")
  let mct ← byte "COD"
  let parameters ← codingStyleParameters flags "COD"
  pure ⟨progressionOrder,numLayers,mct = 1,⟨flags,parameters⟩⟩

/-- One byte where there are fewer than 257 components. -/
def readComponentIndex (csiz : ℕ) (marker : String) : Parse ℕ :=
  if csiz < 257 then byte marker else u16 marker

def componentIndexSize (csiz : ℕ) : ℕ := if csiz < 257 then 1 else 2

def cocMarker (csiz : ℕ) : Parse (ℕ × CodingStyleComponent) := do
  let _ ← u16 "COC"
  let componentIndex ← readComponentIndex csiz "COC"
  let flags ← byte "COC"
  let parameters ← codingStyleParameters flags "COC"
  pure (componentIndex,⟨flags,parameters⟩)

def quantizationStyleFromU8 (marker : String) : ℕ → Parse QuantizationStyle
  | 0 => pure .noQuantization
  | 1 => pure .scalarDerived
  | 2 => pure .scalarExpounded
  | _ => fail (.parseFailure marker)

def stepSizeByte (marker : String) : Parse StepSize := do
  let value ← byte marker
  pure ⟨0,value >>> 3⟩

def stepSizeWord (marker : String) : Parse StepSize := do
  let value ← u16 marker
  pure ⟨value &&& (1 <<< 11 - 1),value >>> 11⟩

/-- The style byte and the step sizes of QCD and QCC; `before` bytes of the segment are read
before it. -/
def quantizationParameters (length before : ℕ) (marker : String) : Parse QuantizationInfo := do
  let sqcdVal ← byte marker
  let style ← quantizationStyleFromU8 marker (sqcdVal &&& 0x1F)
  check (before+1 ≤ length) (.parseFailure marker)
  let remainingBytes := length-(before+1)
  let stepSizes ← match style with
    | .noQuantization => readMany (stepSizeByte marker) remainingBytes
    | .scalarDerived => readMany (stepSizeWord marker) 1
    | .scalarExpounded => readMany (stepSizeWord marker) (remainingBytes/2)
  pure ⟨style,(sqcdVal >>> 5) &&& 0x07,stepSizes⟩

def qcdMarker : Parse QuantizationInfo := do
  let length ← u16 "QCD"
  quantizationParameters length 2 "QCD"

def qccMarker (csiz : ℕ) : Parse (ℕ × QuantizationInfo) := do
  let length ← u16 "QCC"
  let componentIndex ← readComponentIndex csiz "QCC"
  let parameters ← quantizationParameters length (2+componentIndexSize csiz) "QCC"
  pure (componentIndex,parameters)

def progressionChange (csiz : ℕ) : Parse ProgressionChange := do
  let resolutionStart ← byte "POC"
  let componentStart ← readComponentIndex csiz "POC"
  let layerEnd ← u16 "POC"
  let resolutionEnd ← byte "POC"
  let componentEnd ← readComponentIndex csiz "POC"
  let order ← byte "POC"
  let progressionOrder ← progressionOrderFromU8 "POC" order
  check (resolutionStart < resolutionEnd ∧ componentStart < componentEnd ∧ componentStart < csiz ∧
    layerEnd ≠ 0 ∧ layerEnd < 2^8) (.parseFailure "POC")
  pure ⟨resolutionStart,componentStart,layerEnd,resolutionEnd,componentEnd,progressionOrder⟩

/-- The size of a progression change in memory. -/
def progressionChangeBytes : ℕ := 8

def pocMarker (csiz maxOwnedBytes : ℕ) : Parse (List ProgressionChange) := do
  let length ← u16 "POC"
  check (2 ≤ length) (.parseFailure "POC")
  let changeSize := 5+2*componentIndexSize csiz
  check (length-2 ≠ 0 ∧ (length-2)%changeSize = 0) (.parseFailure "POC")
  let changeCount := (length-2)/changeSize
  check (changeCount*progressionChangeBytes ≤ maxOwnedBytes) .imageTooLarge
  readMany (progressionChange csiz) changeCount

/-- The component, the style and the shift. -/
def rgnMarker (csiz : ℕ) : Parse (ℕ × ℕ × ℕ) := do
  let length ← u16 "RGN"
  check (length = 4+componentIndexSize csiz) (.parseFailure "RGN")
  let componentIndex ← readComponentIndex csiz "RGN"
  check (componentIndex < csiz) (.parseFailure "RGN")
  let style ← byte "RGN"
  let shift ← byte "RGN"
  pure (componentIndex,style,shift)

/-! ## The header of a tile-part -/

namespace markers
abbrev COD : ℕ := 0x52
abbrev COC : ℕ := 0x53
abbrev QCD : ℕ := 0x5C
abbrev QCC : ℕ := 0x5D
abbrev POC : ℕ := 0x5F
abbrev RGN : ℕ := 0x5E
end markers

/-- Packet data, with the packet headers where they are apart, and the packet lengths if any
are announced. -/
structure TilePart where
  headers : List (List ℕ)
  data : List ℕ
  packetLengths : Option (List ℕ)
  deriving DecidableEq, Repr

structure TileState where
  style : TileStyle
  progressionChanges : List ProgressionChange
  roiShifts : List ℕ
  tileParts : List TilePart
  deriving DecidableEq, Repr

/-- What the main header says to the tile-parts. -/
structure MainHeader where
  strict : Bool
  numComponents : ℕ
  numTiles : ℕ
  skippedResolutionLevels : ℕ
  plmPacketLengths : List ℕ
  ppmPackets : List PpmPacket
  maxOwnedBytes : ℕ

/-- What the marker loop has found. -/
structure HeaderScan where
  tile : TileState
  packetLengths : List (Sequenced (List ℕ))
  pptHeaders : List (Sequenced (List ℕ))
  deriving DecidableEq, Repr

/-- A COD, COC, QCD or QCC marker applied to the tile. -/
def applyStyle (scan : HeaderScan) (marker : HeaderMarker) : Parse HeaderScan :=
  match parseTilePartMarker scan.tile.style marker with
  | .error e => fail (.header e)
  | .ok style => pure { scan with tile := { scan.tile with style := style } }

/-- A marker segment of a tile-part header after its marker. -/
def headerMarker (header : MainHeader) (code : ℕ) (scan : HeaderScan) : Parse HeaderScan :=
  if code = markers.COD then do
    let style ← codMarker
    applyStyle scan (.cod style)
  else if code = markers.COC then do
    let (component,style) ← cocMarker header.numComponents
    applyStyle scan (.coc component style)
  else if code = markers.QCD then do
    let quantization ← qcdMarker
    applyStyle scan (.qcd quantization)
  else if code = markers.QCC then do
    let (component,quantization) ← qccMarker header.numComponents
    applyStyle scan (.qcc component quantization)
  else if code = markers.POC then do
    let changes ← pocMarker header.numComponents header.maxOwnedBytes
    pure { scan with tile :=
      { scan.tile with progressionChanges := scan.tile.progressionChanges ++ changes } }
  else if code = markers.RGN then do
    let (component,style,shift) ← rgnMarker header.numComponents
    check (style = 0) (.unsupportedFeature "explicit ROI coding")
    check (component < scan.tile.roiShifts.length) (.header .invalidComponentMetadata)
    pure { scan with tile :=
      { scan.tile with roiShifts := scan.tile.roiShifts.set component shift } }
  else if code = PacketMarkers.markers.PPT then do
    check (header.ppmPackets = []) (.segment .ppmPptConflict)
    let ppt ← segment pptMarker
    pure { scan with pptHeaders := scan.pptHeaders ++ [ppt] }
  else if code = PacketMarkers.markers.PLT then do
    let plt ← segment (pltMarker header.maxOwnedBytes)
    pure { scan with packetLengths := scan.packetLengths ++ [plt] }
  else if code = PacketMarkers.markers.COM then do
    let _ ← orFail markerSegmentPayload (.parseFailure "COM")
    pure scan
  else if isReserved code then pure scan
  else fail (.segment .unsupportedMarker)

/-- How the marker loop ends: behind SOD, before EOC, or where there is no marker. -/
inductive HeaderEnd where
  | sod
  | eoc
  | noMarker
  deriving DecidableEq, Repr

/-- The marker loop of `parse_tile_part`. A turn reads two bytes or more, so the length of the
data is fuel enough. -/
def headerLoop (header : MainHeader) : ℕ → HeaderScan → Parse (HeaderScan × HeaderEnd)
  | 0, _ => fail (.segment .invalidMarker)
  | fuel+1, scan => fun data => match readMarker data with
    | none => .ok ((scan,.noMarker),data)
    | some (code,rest) =>
      if code = PacketMarkers.markers.SOD then .ok ((scan,.sod),rest)
      else if code = PacketMarkers.markers.EOC then .ok ((scan,.eoc),data)
      else (headerMarker header code scan >>= headerLoop header fuel) rest

/-! ## Tile-parts -/

structure TilePartHeader where
  tileIndex : ℕ
  tilePartLength : ℕ
  tilePartIndex : ℕ
  numTileParts : ℕ
  deriving DecidableEq, Repr

/-- `sot_marker` finds its length field and twelve bytes in all. -/
def sotMarker : List ℕ → Option (TilePartHeader × List ℕ)
  | 0 :: 10 :: i₀ :: i₁ :: p₀ :: p₁ :: p₂ :: p₃ :: tilePartIndex :: numTileParts :: rest =>
    some (⟨i₀*2^8+i₁,p₀*2^24+p₁*2^16+p₂*2^8+p₃,tilePartIndex,numTileParts⟩,rest)
  | _ => none

structure ParseState where
  tiles : List TileState
  ppmPacketIdx : ℕ
  deriving DecidableEq, Repr

def ParseState.setTile (s : ParseState) (i : ℕ) (tile : TileState) : ParseState :=
  { s with tiles := s.tiles.set i tile }

/-- The announced packet lengths: those of the tile-part header, or those of the main header
where one tile-part holds the only tile. -/
def packetLengthMetadata (header : MainHeader) (sot : TilePartHeader) (scan : HeaderScan) :
    Option (List ℕ) :=
  if scan.packetLengths = [] ∧ header.plmPacketLengths ≠ [] ∧ header.numTiles = 1 ∧
      sot.tilePartIndex = 0 ∧ sot.numTileParts = 1 then some header.plmPacketLengths
  else if scan.packetLengths = [] then none else some (packetLengthsOf scan.packetLengths)

/-- The bytes that a tile-part has after its SOT segment. -/
def dataLen (sot : TilePartHeader) (data : List ℕ) : Except TileParseError ℕ :=
  if sot.tilePartLength = 0 then .ok data.length
  else if sot.tilePartLength < 12 then .error .invalidTile
  else .ok (sot.tilePartLength-12)

/-- Packet data and what describes them, of `remaining` bytes. -/
def takeTilePart (header : MainHeader) (s : ParseState) (sot : TilePartHeader) (scan : HeaderScan)
    (remaining : ℕ) (data : List ℕ) : Except TileParseError (ParseState × List ℕ) :=
  match tilePartHeaders scan.pptHeaders header.ppmPackets s.ppmPacketIdx with
  | .error e => .error (.segment e)
  | .ok (headers,ppmPacketIdx) => match readBytes remaining data with
    | none => .error .invalidTile
    | some (body,rest) =>
      let part : TilePart := ⟨headers,body,packetLengthMetadata header sot scan⟩
      .ok (⟨s.tiles.set sot.tileIndex { scan.tile with tileParts := scan.tile.tileParts ++ [part] },
        ppmPacketIdx⟩,rest)

/-- The tile-part behind its header of `consumed` bytes. -/
def finishTilePart (header : MainHeader) (s : ParseState) (sot : TilePartHeader)
    (dataLen consumed : ℕ) (scan : HeaderScan) (headerEnd : HeaderEnd) (rest : List ℕ) :
    Except TileParseError (ParseState × List ℕ) :=
  if headerEnd = .noMarker then
    if header.strict then .error (.segment .invalidMarker)
    else .ok (s.setTile sot.tileIndex scan.tile,rest)
  else if scan.tile.style.componentInfos.any fun info =>
      info.codingStyle.parameters.geometry.numResolutionLevels ≤ header.skippedResolutionLevels then
    .error (.unsupportedFeature "tile coding style has fewer levels than the requested reduction")
  else if dataLen < consumed then
    if header.strict then .error .invalidTile
    else .ok (s.setTile sot.tileIndex scan.tile,rest)
  else takeTilePart header s sot scan (dataLen-consumed) rest

/-- The tile-part behind its SOT segment. -/
def tilePartBody (header : MainHeader) (s : ParseState) (sot : TilePartHeader) (data : List ℕ) :
    Except TileParseError (ParseState × List ℕ) :=
  if header.numTiles ≤ sot.tileIndex then .error .invalidIndex
  else do
    let dataLen ← dataLen sot data
    match s.tiles[sot.tileIndex]? with
    | none => throw .invalidIndex
    | some tile => do
      let ((scan,headerEnd),rest) ← headerLoop header (data.length+1) ⟨tile,[],[]⟩ data
      finishTilePart header s sot dataLen (data.length-rest.length) scan headerEnd rest

def parseTilePart (header : MainHeader) (s : ParseState) (data : List ℕ) :
    Except TileParseError (ParseState × List ℕ) :=
  match readMarker data with
  | none => .error (.segment .invalidMarker)
  | some (code,data) =>
    if code ≠ PacketMarkers.markers.SOT then .error (.expected "SOT")
    else match sotMarker data with
      | none => .error (.parseFailure "SOT")
      | some (sot,data) => tilePartBody header s sot data

def atSot (data : List ℕ) : Bool :=
  match readMarker data with
  | some (code,_) => code = PacketMarkers.markers.SOT
  | none => false

/-- Tile-parts as long as one starts; each takes twelve bytes or more. -/
def parseTileParts (header : MainHeader) : ℕ → ParseState → List ℕ →
    Except TileParseError (ParseState × List ℕ)
  | 0, _, _ => .error .invalidTile
  | fuel+1, s, data => do
    let (s,data) ← parseTilePart header s data
    if atSot data then parseTileParts header fuel s data else pure (s,data)

/-- The checks after the last tile-part. -/
def finish (header : MainHeader) (s : ParseState) (data : List ℕ) :
    Except TileParseError ParseState :=
  if header.strict ∧ s.ppmPacketIdx ≠ header.ppmPackets.length then .error .invalidTile
  else if header.strict then
    match readMarker data with
    | none => .error (.segment .invalidMarker)
    | some (code,_) =>
      if code = PacketMarkers.markers.EOC then .ok s else .error (.expected "EOC")
  else .ok s

def parse (header : MainHeader) (s : ParseState) (data : List ℕ) :
    Except TileParseError ParseState := do
  let (s,data) ← parseTileParts header (data.length+1) s data
  finish header s data

end J2kNative.TilePartParsing
