import J2kNative.PacketMarkers
import J2kNative.KeyedLists

/-!
# Reading packet-length and packet-header marker segments

The decoder's side of PLT, PLM, PPT and PPM: the marker loops of the main header
and of a tile-part header, the parsers of the four segments, the assembly of the
PPM stream, and the cursor that presents packet headers to the packet parser. A
reader at a byte boundary is the list of bytes before it. Of the other markers of
a header only those without an effect here (COM, TLM, the reserved ones) are read;
the accounting of the decoder's own allocations is left out, except for the bound
on the packet lengths of one segment.
-/
namespace J2kNative.MarkerSegments
open PacketMarkers KeyedLists

inductive DecodeError where
  | invalidMarker
  | unsupportedMarker
  | parseFailure (marker : String)
  | imageTooLarge
  | ppmPptConflict
  | invalidTile
  deriving DecidableEq, Repr

/-! ## Byte reader -/

def readByte : List ℕ → Option (ℕ × List ℕ)
  | [] => none
  | byte :: rest => some (byte, rest)

def readBytes (len : ℕ) (data : List ℕ) : Option (List ℕ × List ℕ) :=
  if len ≤ data.length then some (data.take len, data.drop len) else none

def readU16 : List ℕ → Option (ℕ × List ℕ)
  | b₀ :: b₁ :: rest => some (b₀ * 2 ^ 8 + b₁, rest)
  | _ => none

def readU32 : List ℕ → Option (ℕ × List ℕ)
  | b₀ :: b₁ :: b₂ :: b₃ :: rest => some (b₀ * 2 ^ 24 + b₁ * 2 ^ 16 + b₂ * 2 ^ 8 + b₃, rest)
  | _ => none

/-- `read_marker`: `0xFF` and the marker code. -/
def readMarker : List ℕ → Option (ℕ × List ℕ)
  | 0xFF :: code :: rest => some (code, rest)
  | _ => none

/-- `marker_segment_payload`. -/
def markerSegmentPayload (data : List ℕ) : Option (List ℕ × List ℕ) := do
  let (length, data) ← readU16 data
  if length < 2 then none else readBytes (length - 2) data

/-! ## Packet lengths -/

/-- The loop of `visit_packet_lengths` from a partial value; the visited lengths. -/
def visitPacketLengths (marker : String) : ℕ → Bool → List ℕ → Except DecodeError (List ℕ)
  | _, inProgress, [] => if inProgress then .error (.parseFailure marker) else .ok []
  | value, _, byte :: data =>
      -- `checked_shl` bounds the shift amount only
      let value := (value <<< 7) % 2 ^ 32 + (byte &&& 0x7F)
      if value ≥ 2 ^ 32 then .error (.parseFailure marker)
      else if byte &&& 0x80 = 0 then do
        let lengths ← visitPacketLengths marker 0 false data
        .ok (value :: lengths)
      else visitPacketLengths marker value true data

def validateOutputBytes (packetCount maxOwnedBytes : ℕ) : Except DecodeError Unit :=
  if packetCount * 4 > maxOwnedBytes then .error .imageTooLarge else .ok ()

/-- `decode_packet_lengths_with_limit`. -/
def decodePacketLengths (data : List ℕ) (maxOwnedBytes : ℕ) (marker : String) :
    Except DecodeError (List ℕ) := do
  let lengths ← visitPacketLengths marker 0 false data
  validateOutputBytes lengths.length maxOwnedBytes
  .ok lengths

/-- A segment's sequence number and what it carries. -/
structure Sequenced (α : Type) where
  sequenceIdx : ℕ
  payload : α
  deriving DecidableEq, Repr

/-- The sequence number and the rest of a marker segment. -/
def sequencedSegment (marker : String) (data : List ℕ) :
    Except DecodeError (Sequenced (List ℕ) × List ℕ) :=
  match markerSegmentPayload data with
  | some (sequenceIdx :: payload, rest) => .ok (⟨sequenceIdx, payload⟩, rest)
  | _ => .error (.parseFailure marker)

/-- `plt_marker`. -/
def pltMarker (maxOwnedBytes : ℕ) (data : List ℕ) :
    Except DecodeError (Sequenced (List ℕ) × List ℕ) := do
  let (segment, rest) ← sequencedSegment "PLT" data
  let packetLengths ← decodePacketLengths segment.payload maxOwnedBytes "PLT"
  .ok (⟨segment.sequenceIdx, packetLengths⟩, rest)

/-- `visit_plm_chunks`. A chunk takes four bytes or more, so the length of the payload is
fuel enough. -/
def visitPlmChunks : ℕ → List ℕ → Except DecodeError (List ℕ)
  | 0, _ => .ok []
  | fuel + 1, payload =>
      if payload.isEmpty then .ok []
      else match readU32 payload with
        | none => .error (.parseFailure "PLM")
        | some (lengthDataLen, rest) => match readBytes lengthDataLen rest with
            | none => .error (.parseFailure "PLM")
            | some (lengthData, rest) => do
                let lengths ← visitPacketLengths "PLM" 0 false lengthData
                let more ← visitPlmChunks fuel rest
                .ok (lengths ++ more)

/-- `plm_marker`. -/
def plmMarker (maxOwnedBytes : ℕ) (data : List ℕ) :
    Except DecodeError (Sequenced (List ℕ) × List ℕ) := do
  let (segment, rest) ← sequencedSegment "PLM" data
  let packetLengths ← visitPlmChunks segment.payload.length segment.payload
  validateOutputBytes packetLengths.length maxOwnedBytes
  .ok (⟨segment.sequenceIdx, packetLengths⟩, rest)

/-- `ppt_marker`. -/
def pptMarker (data : List ℕ) : Except DecodeError (Sequenced (List ℕ) × List ℕ) :=
  sequencedSegment "PPT" data

/-- `ppm_marker`. -/
def ppmMarker (data : List ℕ) : Except DecodeError (Sequenced (List ℕ) × List ℕ) :=
  sequencedSegment "PPM" data

/-- `sort_by_key` on the sequence numbers. -/
def sortSegments {α : Type} (segments : List (Sequenced α)) : List (Sequenced α) :=
  sortByKey (fun segment => [segment.sequenceIdx]) segments

/-! ## Header loops -/

def isReserved (code : ℕ) : Bool := 0x30 ≤ code && code ≤ 0x3F

structure TilePartMarkers where
  packetLengths : List (Sequenced (List ℕ))
  pptHeaders : List (Sequenced (List ℕ))
  deriving DecidableEq, Repr

/-- The marker loop of `parse_tile_part`, up to the start of data. A turn reads two bytes or
more, so the length of the data is fuel enough. -/
def tilePartMarkers (maxOwnedBytes : ℕ) (ppmPresent : Bool) :
    ℕ → List ℕ → TilePartMarkers → Except DecodeError (TilePartMarkers × List ℕ)
  | 0, _, _ => .error .invalidMarker
  | fuel + 1, data, found =>
      match readMarker data with
      | none => .error .invalidMarker
      | some (code, rest) =>
          if code = markers.SOD then .ok (found, rest)
          else if code = markers.EOC then .ok (found, data)
          else if code = markers.PPT then
            if ppmPresent then .error .ppmPptConflict
            else do
              let (segment, rest) ← pptMarker rest
              tilePartMarkers maxOwnedBytes ppmPresent fuel rest
                { found with pptHeaders := found.pptHeaders ++ [segment] }
          else if code = markers.PLT then do
            let (segment, rest) ← pltMarker maxOwnedBytes rest
            tilePartMarkers maxOwnedBytes ppmPresent fuel rest
              { found with packetLengths := found.packetLengths ++ [segment] }
          else if code = markers.COM then
            match markerSegmentPayload rest with
            | none => .error (.parseFailure "COM")
            | some (_, rest) => tilePartMarkers maxOwnedBytes ppmPresent fuel rest found
          else if isReserved code then tilePartMarkers maxOwnedBytes ppmPresent fuel rest found
          else .error .unsupportedMarker

structure MainMarkers where
  plmMarkers : List (Sequenced (List ℕ))
  ppmMarkers : List (Sequenced (List ℕ))
  deriving DecidableEq, Repr

/-- The marker loop of the main header, up to the first tile-part. -/
def mainMarkers (maxOwnedBytes : ℕ) :
    ℕ → List ℕ → MainMarkers → Except DecodeError (MainMarkers × List ℕ)
  | 0, _, _ => .error .invalidMarker
  | fuel + 1, data, found =>
      match readMarker data with
      | none => .error .invalidMarker
      | some (code, rest) =>
          if code = markers.SOT then .ok (found, data)
          else if code = markers.PLM then do
            let (segment, rest) ← plmMarker maxOwnedBytes rest
            mainMarkers maxOwnedBytes fuel rest
              { found with plmMarkers := found.plmMarkers ++ [segment] }
          else if code = markers.PPM then do
            let (segment, rest) ← ppmMarker rest
            mainMarkers maxOwnedBytes fuel rest
              { found with ppmMarkers := found.ppmMarkers ++ [segment] }
          else if code = markers.COM ∨ code = markers.TLM then
            match markerSegmentPayload rest with
            | none => .error (.parseFailure (if code = markers.COM then "COM" else "TLM"))
            | some (_, rest) => mainMarkers maxOwnedBytes fuel rest found
          else if isReserved code then mainMarkers maxOwnedBytes fuel rest found
          else .error .unsupportedMarker

/-- The packet lengths of a header's segments, in the order of their sequence numbers. -/
def packetLengthsOf (segments : List (Sequenced (List ℕ))) : List ℕ :=
  (sortSegments segments).flatMap Sequenced.payload

/-- The packet lengths that a tile-part header announces. -/
def tilePartPacketLengths (maxOwnedBytes : ℕ) (data : List ℕ) : Except DecodeError (List ℕ) := do
  let (found, _) ← tilePartMarkers maxOwnedBytes false (data.length + 1) data ⟨[], []⟩
  .ok (packetLengthsOf found.packetLengths)

/-- The packet lengths that the main header announces. -/
def mainPacketLengths (maxOwnedBytes : ℕ) (data : List ℕ) : Except DecodeError (List ℕ) := do
  let (found, _) ← mainMarkers maxOwnedBytes (data.length + 1) data ⟨[], []⟩
  .ok (packetLengthsOf found.plmMarkers)

/-! ## Assembly of the PPM stream -/

structure PpmPacket where
  data : List ℕ
  endsTilePart : Bool
  deriving DecidableEq, Repr

/-- `next_byte` of the cursor over the payloads that are left. -/
def nextByte : List (List ℕ) → Option (ℕ × List (List ℕ))
  | [] => none
  | [] :: pieces => nextByte pieces
  | (byte :: piece) :: pieces => some (byte, piece :: pieces)

/-- `read_u32` of the cursor; no value at the end of the payloads. -/
def readPacketLen (pieces : List (List ℕ)) :
    Except DecodeError (Option (ℕ × List (List ℕ))) :=
  match nextByte pieces with
  | none => .ok none
  | some (b₀, pieces) =>
      match (do
        let (b₁, pieces) ← nextByte pieces
        let (b₂, pieces) ← nextByte pieces
        let (b₃, pieces) ← nextByte pieces
        some (b₀ * 2 ^ 24 + b₁ * 2 ^ 16 + b₂ * 2 ^ 8 + b₃, pieces)) with
      | none => .error (.parseFailure "PPM")
      | some r => .ok (some r)

/-- `take_fragment`. -/
def takeFragment (maxLen : ℕ) : List (List ℕ) → Option (List ℕ × List (List ℕ))
  | [] => none
  | piece :: pieces =>
      if piece.isEmpty then takeFragment maxLen pieces
      else some (piece.take maxLen, piece.drop maxLen :: pieces)

/-- The inner loop of `try_flatten_ppm_packets`; a fragment holds a byte or more, so the
bytes that remain are fuel enough. -/
def takeFragments : ℕ → ℕ → List (List ℕ) →
    Except DecodeError (List PpmPacket × List (List ℕ))
  | 0, _, pieces => .ok ([], pieces)
  | fuel + 1, remaining, pieces =>
      if remaining = 0 then .ok ([], pieces)
      else match takeFragment remaining pieces with
        | none => .error (.parseFailure "PPM")
        | some (data, pieces) => do
            let remaining := remaining - data.length
            let (packets, pieces) ← takeFragments fuel remaining pieces
            .ok (⟨data, remaining = 0⟩ :: packets, pieces)

/-- The outer loop of `try_flatten_ppm_packets`; a turn takes four bytes or more. -/
def flattenPackets : ℕ → List (List ℕ) → Except DecodeError (List PpmPacket)
  | 0, _ => .ok []
  | fuel + 1, pieces => do
      match ← readPacketLen pieces with
      | none => .ok []
      | some (packetLen, pieces) =>
          if packetLen = 0 then do
            let packets ← flattenPackets fuel pieces
            .ok (⟨[], true⟩ :: packets)
          else do
            let (fragments, pieces) ← takeFragments packetLen packetLen pieces
            let packets ← flattenPackets fuel pieces
            .ok (fragments ++ packets)

/-- `try_flatten_ppm_packets`, on the sorted markers. -/
def tryFlattenPpmPackets (segments : List (Sequenced (List ℕ))) :
    Except DecodeError (List PpmPacket) :=
  if segments.zipIdx.any fun (segment, expected) =>
      expected ≥ 2 ^ 8 || segment.sequenceIdx != expected then .error (.parseFailure "PPM")
  else flattenPackets ((segments.flatMap Sequenced.payload).length + 1)
    (segments.map Sequenced.payload)

/-- `ppm_header_count`: the packets up to the next end of a tile-part. -/
def ppmHeaderCount (ppmPackets : List PpmPacket) (ppmPacketIdx : ℕ) : Except DecodeError ℕ :=
  if ppmPackets.isEmpty then .ok 0
  else if ppmPacketIdx > ppmPackets.length then .error .invalidTile
  else match (ppmPackets.drop ppmPacketIdx).findIdx? PpmPacket.endsTilePart with
    | some offset => .ok (offset + 1)
    | none => .error .invalidTile

/-- The header readers of a tile-part and the next position among the PPM packets. -/
def tilePartHeaders (pptHeaders : List (Sequenced (List ℕ))) (ppmPackets : List PpmPacket)
    (ppmPacketIdx : ℕ) : Except DecodeError (List (List ℕ) × ℕ) := do
  let ppmHeaderCount ← ppmHeaderCount ppmPackets ppmPacketIdx
  .ok ((sortSegments pptHeaders).map Sequenced.payload ++
    ((ppmPackets.drop ppmPacketIdx).take ppmHeaderCount).map PpmPacket.data,
    ppmPacketIdx + ppmHeaderCount)

/-! ## Packet headers under the cursor -/

/-- `TilePartCursor`: what is left of the active header reader, and the readers after it.
Without separated headers the packets' own data is the only reader. -/
structure TilePartCursor where
  header : List ℕ
  retainedHeaders : List (List ℕ)
  deriving DecidableEq, Repr

def TilePartCursor.new (headers : List (List ℕ)) (data : List ℕ) : TilePartCursor :=
  match headers with
  | [] => ⟨data, []⟩
  | header :: retainedHeaders => ⟨header, retainedHeaders⟩

/-- `header`: moves on to the next reader while the active one is at its end. -/
def TilePartCursor.advance : List ℕ → List (List ℕ) → TilePartCursor
  | [], header :: retainedHeaders => advance header retainedHeaders
  | header, retainedHeaders => ⟨header, retainedHeaders⟩

/-- Reads packet headers of the given sizes, each from the reader presented at its start. -/
def TilePartCursor.readHeaders : TilePartCursor → List ℕ → Option (List (List ℕ))
  | _, [] => some []
  | cursor, size :: sizes => do
      let cursor := advance cursor.header cursor.retainedHeaders
      let (header, rest) ← readBytes size cursor.header
      let headers ← TilePartCursor.readHeaders ⟨rest, cursor.retainedHeaders⟩ sizes
      some (header :: headers)

/-- The packet headers that a tile-part's cursor presents; their sizes are those that the
packet parser reads. -/
def tilePartPacketHeaders (maxOwnedBytes : ℕ) (data sizes : List ℕ) :
    Except DecodeError (Option (List (List ℕ))) := do
  let (found, body) ← tilePartMarkers maxOwnedBytes false (data.length + 1) data ⟨[], []⟩
  let (headers, _) ← tilePartHeaders found.pptHeaders [] 0
  .ok ((TilePartCursor.new headers body).readHeaders sizes)

/-- The packet headers of the tile-parts in turn, from the packets of the main header. -/
def readTileParts (ppmPackets : List PpmPacket) :
    ℕ → List (List ℕ) → Except DecodeError (List (Option (List (List ℕ))))
  | _, [] => .ok []
  | ppmPacketIdx, sizes :: tiles => do
      let (headers, ppmPacketIdx) ← tilePartHeaders [] ppmPackets ppmPacketIdx
      let rest ← readTileParts ppmPackets ppmPacketIdx tiles
      .ok ((TilePartCursor.new headers []).readHeaders sizes :: rest)

/-- The packet headers that the cursors of all tile-parts present out of the main header. -/
def mainPacketHeaders (maxOwnedBytes : ℕ) (data : List ℕ) (tiles : List (List ℕ)) :
    Except DecodeError (List (Option (List (List ℕ)))) := do
  let (found, _) ← mainMarkers maxOwnedBytes (data.length + 1) data ⟨[], []⟩
  let ppmPackets ← tryFlattenPpmPackets (sortSegments found.ppmMarkers)
  readTileParts ppmPackets 0 tiles

end J2kNative.MarkerSegments
