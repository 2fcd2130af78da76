import J2kNative.StreamCuts
import Mathlib.Data.Nat.Notation
import Mathlib.Tactic.SplitIfs
import Mathlib.Tactic.Ring
import Mathlib.Data.Nat.Size

/-!
# Packet-length and packet-header marker segments

The writers of PLT, PLM, PPT and PPM marker segments. PLT, PLM and PPT cut one
byte stream into segments of bounded payload, wherever a cut falls; PPM fills each
segment with whole packet headers. Bytes are natural numbers. The reservation of
the output and the overflow of `usize` are not modelled.
-/
namespace J2kNative.PacketMarkers
open StreamCuts

/-- `u16::to_be_bytes`. -/
def beBytes16 (n : ℕ) : List ℕ := [n / 2 ^ 8 % 2 ^ 8, n % 2 ^ 8]

/-- `u32::to_be_bytes`. -/
def beBytes32 (n : ℕ) : List ℕ :=
  [n / 2 ^ 24 % 2 ^ 8, n / 2 ^ 16 % 2 ^ 8, n / 2 ^ 8 % 2 ^ 8, n % 2 ^ 8]

namespace markers
abbrev PLM : ℕ := 0x57
abbrev PLT : ℕ := 0x58
abbrev PPM : ℕ := 0x60
abbrev PPT : ℕ := 0x61
abbrev SOT : ℕ := 0x90
abbrev SOD : ℕ := 0x93
abbrev EOC : ℕ := 0xD9
abbrev TLM : ℕ := 0x55
abbrev COM : ℕ := 0x64
end markers

def packetHeaderMarkerPayloadLimit : ℕ := 65535 - 3
def ppmPacketHeaderLimit : ℕ := packetHeaderMarkerPayloadLimit - 4
def maxPacketMarkers : ℕ := 255 + 1
def pltChunkSize : ℕ := 65535 - 3
def plmChunkSize : ℕ := 65535 - 7

/-- `u16::try_from(length)`, as the length field of a marker segment. -/
def markerLength (length : ℕ) (what : String) : Except String (List ℕ) :=
  if length < 2 ^ 16 then .ok (beBytes16 length) else .error what

def markerSequence (sequence : ℕ) (what : String) : Except String (List ℕ) :=
  if sequence < 2 ^ 8 then .ok [sequence] else .error what

/-! ## Packet lengths in base 128 -/

/-- The loop of `encode_packet_length`, which fills its array of digits from the end. -/
def packetLengthDigits : ℕ → ℕ → List ℕ → List ℕ
  | 0, _, encoded => encoded
  | slots + 1, value, encoded =>
      let encoded := (value &&& 0x7f) :: encoded
      let value := value >>> 7
      if value = 0 then encoded else packetLengthDigits slots value encoded

/-- `encode_packet_length`: all digits but the last carry the continuation bit. -/
def encodePacketLength (value : ℕ) : List ℕ :=
  let encoded := packetLengthDigits 5 value []
  encoded.dropLast.map (· ||| 0x80) ++ encoded.drop (encoded.length - 1)

/-- `encoded_packet_length_len`. -/
def encodedPacketLengthLen (value : ℕ) : ℕ :=
  let bits := value.size
  if bits = 0 then 1 else (bits + 6) / 7

def packetLengthPayloadLen (packetLengths : List ℕ) : ℕ :=
  packetLengths.foldl (fun bytes length => bytes + encodedPacketLengthLen length) 0

/-- `chunked_marker_bytes`, also the limit on the number of segments. -/
def chunkedMarkerBytes (payload chunkSize markerOverhead : ℕ) (countError : String) :
    Except String ℕ :=
  if payload = 0 then .ok 0
  else
    let markerCount := (payload + chunkSize - 1) / chunkSize
    if markerCount > maxPacketMarkers then .error countError
    else .ok (payload + markerCount * markerOverhead)

/-! ## Cutting a byte stream -/

structure ChunkWriter where
  out : List ℕ
  payloadRemaining : ℕ
  chunkRemaining : ℕ
  sequence : ℕ
  deriving DecidableEq, Repr

/-- The next marker segment, begun with the marker, its length and its sequence number. -/
def ChunkWriter.openChunk (start : ℕ → ℕ → Except String (List ℕ)) (chunkSize : ℕ)
    (s : ChunkWriter) : Except String ChunkWriter := do
  let chunkLen := min s.payloadRemaining chunkSize
  let opening ← start s.sequence chunkLen
  .ok ⟨s.out ++ opening, s.payloadRemaining - chunkLen, chunkLen, s.sequence + 1⟩

def ChunkWriter.pushByte (start : ℕ → ℕ → Except String (List ℕ)) (chunkSize : ℕ)
    (s : ChunkWriter) (byte : ℕ) : Except String ChunkWriter := do
  let s ← (if s.chunkRemaining = 0 then s.openChunk start chunkSize else .ok s)
  .ok { s with out := s.out ++ [byte], chunkRemaining := s.chunkRemaining - 1 }

inductive PacketLengthMarker where
  | plt
  | plm
  deriving DecidableEq, Repr

def PacketLengthMarker.chunkSize : PacketLengthMarker → ℕ
  | .plt => pltChunkSize
  | .plm => plmChunkSize

/-- `begin_packet_length_marker`. -/
def beginPacketLengthMarker (marker : PacketLengthMarker) (sequence chunkLen : ℕ) :
    Except String (List ℕ) := do
  let (markerCode, lengthOverhead) := match marker with
    | .plt => (markers.PLT, 3)
    | .plm => (markers.PLM, 7)
  let length ← markerLength (chunkLen + lengthOverhead)
    "validated packet-length marker length exceeds u16"
  let sequenceByte ← markerSequence sequence "validated packet-length marker sequence exceeds u8"
  match marker with
  | .plt => .ok ([0xFF, markerCode] ++ length ++ sequenceByte)
  | .plm =>
      if chunkLen < 2 ^ 32 then
        .ok ([0xFF, markerCode] ++ length ++ sequenceByte ++ beBytes32 chunkLen)
      else .error "validated PLM chunk length exceeds u32"

/-- `write_packet_length_chunks`. -/
def writePacketLengthChunks (out : List ℕ) (packetLengthSets : List (List ℕ))
    (totalPayload : ℕ) (marker : PacketLengthMarker) : Except String (List ℕ) := do
  let s ← packetLengthSets.foldlM (fun s packetLengths => packetLengths.foldlM
    (fun s packetLength => (encodePacketLength packetLength).foldlM
      (ChunkWriter.pushByte (beginPacketLengthMarker marker) marker.chunkSize) s) s)
    ⟨out, totalPayload, 0, 0⟩
  .ok s.out

/-- `write_plt_markers`. -/
def writePltMarkers (out packetLengths : List ℕ) : Except String (List ℕ) := do
  let payload := packetLengthPayloadLen packetLengths
  let _ ← chunkedMarkerBytes payload pltChunkSize 5
    "PLT packet lengths require more than 256 marker segments"
  writePacketLengthChunks out [packetLengths] payload .plt

/-- `write_plm_markers`, over the packet lengths of the tile-parts. -/
def writePlmMarkers (out : List ℕ) (tiles : List (List ℕ)) : Except String (List ℕ) := do
  let payload := tiles.foldl (fun bytes tile => bytes + packetLengthPayloadLen tile) 0
  let _ ← chunkedMarkerBytes payload plmChunkSize 9
    "PLM packet lengths require more than 256 marker segments"
  writePacketLengthChunks out tiles payload .plm

/-! ## Packet headers of a tile-part -/

def beginPptMarker (sequence chunkLen : ℕ) : Except String (List ℕ) := do
  let length ← markerLength (chunkLen + 3) "validated PPT marker length exceeds u16"
  let sequenceByte ← markerSequence sequence "validated PPT marker sequence exceeds u8"
  .ok ([0xFF, markers.PPT] ++ length ++ sequenceByte)

/-- The inner loop of `write_ppt_markers`. Every turn takes a byte or more, so the length of
the header is fuel enough. -/
def writePptHeader : ℕ → List ℕ → ChunkWriter → Except String ChunkWriter
  | 0, _, s => .ok s
  | fuel + 1, remaining, s =>
      if remaining.isEmpty then .ok s
      else do
        let s ← (if s.chunkRemaining = 0 then
          s.openChunk beginPptMarker packetHeaderMarkerPayloadLimit else .ok s)
        let take := min s.chunkRemaining remaining.length
        writePptHeader fuel (remaining.drop take)
          { s with out := s.out ++ remaining.take take, chunkRemaining := s.chunkRemaining - take }

/-- `write_ppt_markers`. -/
def writePptMarkers (out : List ℕ) (packetHeaders : List (List ℕ)) : Except String (List ℕ) := do
  let totalPayload := packetHeaders.foldl (fun bytes header => bytes + header.length) 0
  let _ ← chunkedMarkerBytes totalPayload packetHeaderMarkerPayloadLimit 5
    "PPT packet headers require more than 256 marker segments"
  let s ← packetHeaders.foldlM (fun s header => writePptHeader header.length header s)
    ⟨out, totalPayload, 0, 0⟩
  .ok s.out

/-! ## Packet headers of the main header -/

structure PpmHeader where
  tilePartLen : Option ℕ
  data : List ℕ
  deriving DecidableEq, Repr

/-- Position among the headers: those left of the tile-part under way, then the tile-parts
not begun. -/
structure HeaderCursor where
  headers : List (List ℕ)
  tiles : List (List (List ℕ))
  deriving DecidableEq, Repr

/-- `ppm_tile_part_header_len`. -/
def ppmTilePartHeaderLen (headers : List (List ℕ)) : Except String ℕ :=
  let len := headers.foldl (fun total header => total + header.length) 0
  if len < 2 ^ 32 then .ok len else .error "PPM tile-part packet headers exceed u32"

/-- `next_ppm_header`: the first header of a tile-part carries the length of them all. -/
def nextPpmHeader : List (List ℕ) → List (List (List ℕ)) →
    Except String (Option (PpmHeader × HeaderCursor))
  | header :: headers, tiles => .ok (some (⟨none, header⟩, ⟨headers, tiles⟩))
  | [], [] => .ok none
  | [], [] :: tiles => nextPpmHeader [] tiles
  | [], (header :: headers) :: tiles => do
      let len ← ppmTilePartHeaderLen (header :: headers)
      .ok (some (⟨some len, header⟩, ⟨headers, tiles⟩))

def PpmHeader.entryLen (header : PpmHeader) : ℕ :=
  header.data.length + (if header.tilePartLen.isSome then 1 else 0) * 4

/-- The loop of `next_ppm_chunk`: the headers that fit, the position after them and their
payload. -/
def nextPpmChunkLoop : ℕ → HeaderCursor → List PpmHeader → ℕ →
    Except String (HeaderCursor × List PpmHeader × ℕ)
  | 0, last, taken, payload => .ok (last, taken, payload)
  | fuel + 1, last, taken, payload => do
      match ← nextPpmHeader last.headers last.tiles with
      | none => .ok (last, taken, payload)
      | some (header, after) =>
          if header.data.length > ppmPacketHeaderLimit then
            .error "PPM packet header exceeds marker payload limit"
          else if payload ≠ 0 ∧ payload + header.entryLen > packetHeaderMarkerPayloadLimit then
            .ok (last, taken, payload)
          else nextPpmChunkLoop fuel after (taken ++ [header]) (payload + header.entryLen)

/-- Headers not yet taken, which bounds the turns of a chunk. -/
def HeaderCursor.size (cursor : HeaderCursor) : ℕ :=
  cursor.headers.length + cursor.tiles.flatten.length

/-- `next_ppm_chunk`. -/
def nextPpmChunk (start : HeaderCursor) :
    Except String (Option (HeaderCursor × List PpmHeader × ℕ)) := do
  let (last, taken, payload) ← nextPpmChunkLoop (start.size + 1) start [] 0
  .ok (if payload ≠ 0 then some (last, taken, payload) else none)

/-- The chunks that `next_ppm_chunk` yields, at most 256 of them. -/
def ppmChunks : ℕ → HeaderCursor → ℕ → Except String (List (List PpmHeader × ℕ))
  | 0, _, _ => .ok []
  | fuel + 1, cursor, markerCount => do
      match ← nextPpmChunk cursor with
      | none => .ok []
      | some (last, taken, payload) =>
          if markerCount + 1 > maxPacketMarkers then
            .error "PPM packet headers require more than 256 marker segments"
          else do
            let rest ← ppmChunks fuel last (markerCount + 1)
            .ok ((taken, payload) :: rest)

def PpmHeader.bytes (header : PpmHeader) : List ℕ :=
  (match header.tilePartLen with
    | some len => beBytes32 len
    | none => []) ++ header.data

/-- One segment of `write_ppm_markers`. -/
def writePpmMarker (out : List ℕ) (sequence : ℕ) (chunk : List PpmHeader × ℕ) :
    Except String (List ℕ) := do
  let length ← markerLength (chunk.2 + 3) "validated PPM marker length exceeds u16"
  let sequenceByte ← markerSequence sequence "validated PPM marker sequence exceeds u8"
  .ok (chunk.1.foldl (fun out header => out ++ header.bytes)
    (out ++ [0xFF, markers.PPM] ++ length ++ sequenceByte))

/-- `write_ppm_markers`; the second pass of the source walks the chunks of the first. -/
def writePpmMarkers (out : List ℕ) (tiles : List (List (List ℕ))) : Except String (List ℕ) := do
  if tiles.any List.isEmpty then .error "PPM encode requires separated packet headers"
  else do
    let chunks ← ppmChunks (tiles.flatten.length + 1) ⟨[], tiles⟩ 0
    chunks.zipIdx.foldlM (fun out (chunk, sequence) => writePpmMarker out sequence chunk) out

end J2kNative.PacketMarkers
