import J2kNative.JpegErrors
import Mathlib.Algebra.Group.Int.Defs
import Mathlib.Algebra.Group.Nat.Defs
import Mathlib.Data.Int.Basic
import Mathlib.Data.List.Basic
import Mathlib.Data.List.GetD

/-!
# The bit reader of the JPEG decoder

The reader keeps the bits it has fetched in the high end of a 64-bit reservoir.
It takes the stuffed zero after a data byte `0xFF` away, stops before a marker and
there can supply ones. A failed step is the end of a decoding, so the reader after
an error is left out.
-/
namespace J2kNative

structure BitReader where
  bytes : List ℕ
  pos : ℕ
  acc : ℕ
  bits : ℕ
  syntheticBits : ℕ
  marker : Option ℕ
  markerEnd : ℕ
  allowEofPadding : Bool
  deriving DecidableEq, Repr

abbrev Read (α : Type) := StateT BitReader (Except JpegError) α

def tableExhausted : JpegError := .huffmanDecode 0 .tableExhausted

namespace BitReader

def accBits : ℕ := 64
def refillThreshold : ℕ := 56

def newWithEofPadding (bytes : List ℕ) (allowEofPadding : Bool) : BitReader :=
  ⟨bytes,0,0,0,0,none,0,allowEofPadding⟩

def new (bytes : List ℕ) : BitReader := newWithEofPadding bytes false

def pushByte (b : ℕ) (r : BitReader) : BitReader :=
  { r with acc := r.acc ||| b <<< (accBits-8-r.bits), bits := r.bits+8 }

/-- How many bytes `0xFF` come first. -/
def fillLength : List ℕ → ℕ
  | [] => 0
  | b::l => if b = 0xFF then fillLength l+1 else 0

/-- The first position from `pos` on that does not hold `0xFF`. -/
def afterFill (bytes : List ℕ) (pos : ℕ) : ℕ := pos+fillLength (bytes.drop pos)

def byteAt (bytes : List ℕ) (i : ℕ) : ℕ := bytes.getD i 0

theorem drop_cons {bytes : List ℕ} {pos : ℕ} (h : pos < bytes.length) :
    bytes.drop pos = byteAt bytes pos::bytes.drop (pos+1) := by
  rw [List.drop_eq_getElem_cons h,byteAt,List.getD_eq_getElem _ _ h]

/-- Whether a byte was added, and the reader after the attempt. -/
def refillOneByte (r : BitReader) : Bool × BitReader :=
  if r.marker.isSome ∨ r.bytes.length ≤ r.pos then (false,r)
  else
    let b := byteAt r.bytes r.pos
    if b = 0xFF then
      let codePos := afterFill r.bytes (r.pos+1)
      if r.bytes.length ≤ codePos then (false,r)
      else
        let next := byteAt r.bytes codePos
        if next = 0 then (true,{ r.pushByte 0xFF with pos := codePos+1 })
        else (false,{ r with pos := codePos-1, marker := some next, markerEnd := codePos+1 })
    else (true,{ r.pushByte b with pos := r.pos+1 })

/-- Refills while fewer than `limit` bits are there, `turns` times at most. -/
def refillLoop (limit : ℕ) : ℕ → BitReader → BitReader
  | 0,r => r
  | turns+1,r =>
    if r.bits < limit then
      if r.refillOneByte.1 then refillLoop limit turns r.refillOneByte.2
      else r.refillOneByte.2
    else r

/-- A refill adds eight bits, so `limit` turns are enough. -/
def refillTo (limit : ℕ) (r : BitReader) : BitReader := refillLoop limit limit r

def refillToThreshold (r : BitReader) : BitReader := refillTo refillThreshold r

def ensureBits (n : ℕ) : Read Unit := fun r =>
  let r := refillTo n r
  if r.bits < n then .error tableExhausted else .ok ((),r)

/-- Ones after the real bits. -/
def pad : ℕ → BitReader → BitReader
  | 0,r => r
  | count+1,r => pad count
    { r with
      acc := r.acc ||| 1 <<< (accBits-1-r.bits)
      bits := r.bits+1
      syntheticBits := r.syntheticBits+1 }

def ensureBitsPadded (n : ℕ) : Read Unit := fun r =>
  let refilled := refillTo n r
  if refilled.bits < n then
    if refilled.marker = none ∧ ¬(refilled.allowEofPadding ∧ refilled.pos = refilled.bytes.length)
    then .error tableExhausted
    else .ok ((),pad (n-refilled.bits) refilled)
  else if r.bits < n then .ok ((),refillToThreshold refilled)
  else .ok ((),refilled)

def peekBits (n : ℕ) (r : BitReader) : ℕ := if n = 0 then 0 else r.acc >>> (accBits-n)

def consumed (n : ℕ) (r : BitReader) : BitReader :=
  let realBits := r.bits-r.syntheticBits
  { r with
    acc := (r.acc <<< n) % 2^accBits
    bits := r.bits-n
    syntheticBits := if realBits < n then r.syntheticBits-(n-realBits) else r.syntheticBits }

def consumeBits (n : ℕ) : Read Unit := fun r => .ok ((),consumed n r)

def peek (n : ℕ) : Read ℕ := fun r => .ok (r.peekBits n,r)

def readBits (n : ℕ) : Read ℕ := do
  ensureBits n
  let v ← peek n
  consumeBits n
  modify refillToThreshold
  pure v

/-- The value of `ssss` bits: those that start with a zero stand for negative values. -/
def extend (v ssss : ℕ) : ℤ := if v < 2^(ssss-1) then v-2^ssss+1 else v

def receiveExtend (ssss : ℕ) : Read ℤ :=
  if ssss = 0 then pure 0
  else do
    ensureBits ssss
    let v ← peek ssss
    consumeBits ssss
    pure (extend v ssss)

def takeMarker (r : BitReader) : Option (ℕ × BitReader) :=
  r.marker.map fun m => (m,{ r with marker := none, pos := r.markerEnd, markerEnd := 0 })

def resetAtRestart (r : BitReader) : BitReader := { r with acc := 0, bits := 0, syntheticBits := 0 }

def consumeRestartMarker (expectedRst mcuAt mcuTotal : ℕ) : Read ℕ := fun r =>
  let r := if r.marker = none ∧ r.bits ≤ 7 then r.refillOneByte.2 else r
  match r.takeMarker with
  | none => .error (.unexpectedEoi mcuAt mcuTotal)
  | some (marker,r) =>
    if marker ≠ 0xD0 ||| expectedRst then .error (.restartMismatch r.pos expectedRst marker)
    else .ok ((expectedRst+1) &&& 7,r.resetAtRestart)

end BitReader

end J2kNative
