import Mathlib.Algebra.GroupWithZero.Nat
import J2kNative.JpegBitReader

/-!
# Huffman tables of the JPEG decoder

The canonical codes of a table, the lookup by the next twelve bits, the packed
lookup that decodes a symbol with its magnitude at once, and the decoding steps
over the bit reader. An array of 4096 entries is a function of the index.
-/
namespace J2kNative

inductive CanonicalHuffmanError where
  | bitsExceedTableCapacity
  | bitsValuesLenMismatch
  | codeOverflow
  deriving DecidableEq, Repr

inductive HuffmanTableRole where
  | dc
  | ac
  deriving DecidableEq, Repr

/-- How many codes there are of each length from 1 to 16, and the symbols in the order of
their codes, all of them bytes. -/
structure RawHuffmanTable where
  bits : List ℕ
  values : List ℕ
  bits_length : bits.length = 16
  values_lt : ∀ value ∈ values, value < 256

structure CanonicalHuffmanDerivation where
  minCode : ℕ → ℤ
  maxCode : ℕ → ℤ
  valOffset : ℕ → ℤ
  huffcode : List ℕ
  huffsize : List ℕ

/-- The code lengths, one for each code. -/
def codeSizes (bits : List ℕ) : List ℕ :=
  bits.zipIdx.flatMap fun c => List.replicate c.1 (c.2+1)

/-- The codes of the remaining lengths, from the next code of length `si` on. -/
def assignCodes (code si : ℕ) : List ℕ → Except CanonicalHuffmanError (List ℕ)
  | [] => .ok []
  | size::sizes => do
    let code := code*2^(size-si)
    if 16 < size ∨ 2^size ≤ code then .error .codeOverflow
    else do
      let codes ← assignCodes (code+1) size sizes
      .ok (code::codes)

def deriveCanonicalHuffman (bits : List ℕ) (valuesLen : ℕ) :
    Except CanonicalHuffmanError CanonicalHuffmanDerivation := do
  if 256 < valuesLen then .error .bitsExceedTableCapacity
  else
    let huffsize := codeSizes bits
    if valuesLen < huffsize.length then .error .bitsExceedTableCapacity
    else if huffsize.length ≠ valuesLen then .error .bitsValuesLenMismatch
    else do
      let huffcode ← assignCodes 0 (huffsize.headD 0) huffsize
      let count := fun len => if len = 0 then 0 else bits.getD (len-1) 0
      let cursor := fun len => (bits.take (len-1)).sum
      let minCode : ℕ → ℤ := fun len =>
        if count len = 0 then 2^31-1 else huffcode.getD (cursor len) 0
      .ok {
        minCode := minCode
        maxCode := fun len =>
          if count len = 0 then -1 else huffcode.getD (cursor len+count len-1) 0
        valOffset := fun len => if count len = 0 then 0 else cursor len-minCode len
        huffcode := huffcode
        huffsize := huffsize }

def fastBits : ℕ := 12

/-- Two's complement in 16 bits. -/
def toU16 (value : ℤ) : ℕ := (value % 2^16).toNat
def fromU16 (value : ℕ) : ℤ := if value < 2^15 then value else value-2^16

def acFastKindMask : ℕ := 0xF <<< 28
def acFastValue : ℕ := 1 <<< 28
def acFastEob : ℕ := 2 <<< 28
def acFastZrl : ℕ := 3 <<< 28

def packAcValue (totalLen run : ℕ) (value : ℤ) : ℕ :=
  acFastValue ||| toU16 value <<< 8 ||| run <<< 4 ||| totalLen

def packAcEob (totalLen : ℕ) : ℕ := acFastEob ||| totalLen
def packAcZrl (totalLen : ℕ) : ℕ := acFastZrl ||| 15 <<< 4 ||| totalLen
def packDcValue (totalLen : ℕ) (value : ℤ) : ℕ := toU16 value <<< 8 ||| totalLen
def acDecodedRun (packed : ℕ) : ℕ := (packed &&& 0xF0) >>> 4
def acDecodedValue (packed : ℕ) : ℤ := fromU16 ((packed >>> 8) &&& 0xFFFF)

/-- The next `count` entries from `base` on. -/
def fillEntries (base count : ℕ) (entry : ℕ × ℕ) (fast : ℕ → ℕ × ℕ) : ℕ → ℕ × ℕ :=
  fun i => if base ≤ i ∧ i < base+count then entry else fast i

/-- Every code of at most twelve bits fills the entries that start with it. -/
def fastEntries (codes : List (ℕ × ℕ × ℕ)) : ℕ → ℕ × ℕ :=
  (codes.filter fun c => c.2.1 ≤ fastBits).foldl (fun fast c =>
    fillEntries (c.1 <<< (fastBits-c.2.1)) (1 <<< (fastBits-c.2.1)) (c.2.2,c.2.1) fast)
    fun _ => (0,0)

/-- The value of the magnitude bits that follow a code of length `len` in `idx`. -/
def packedMagnitude (idx len ssss : ℕ) : ℤ :=
  if ssss = 0 then 0
  else BitReader.extend ((idx >>> (fastBits-(len+ssss))) &&& (2^ssss-1)) ssss

/-- What a symbol and its magnitude decode to where both lie in the twelve bits of `idx`;
zero where they do not. -/
def packedEntry (role : HuffmanTableRole) (idx sym len : ℕ) : ℕ :=
  if len = 0 then 0
  else match role with
    | .dc =>
      if sym ≤ 15 ∧ len+sym ≤ fastBits then packDcValue (len+sym) (packedMagnitude idx len sym)
      else 0
    | .ac =>
      let run := (sym >>> 4) &&& 0xF
      let ssss := sym &&& 0xF
      if ssss = 0 then
        if run = 0 then packAcEob len else if run = 15 then packAcZrl len else 0
      else if fastBits < len+ssss then 0
      else packAcValue (len+ssss) run (packedMagnitude idx len ssss)

structure HuffmanTable where
  fast : ℕ → ℕ × ℕ
  minCode : ℕ → ℤ
  maxCode : ℕ → ℤ
  valOffset : ℕ → ℤ
  values : List ℕ
  role : HuffmanTableRole
  packed : ℕ → ℕ

def huffmanFailure (reason : HuffmanFailure) : JpegError := .huffmanDecode 0 reason

namespace HuffmanTable

def fromRaw (raw : RawHuffmanTable) (role : HuffmanTableRole) : Except JpegError HuffmanTable :=
  match deriveCanonicalHuffman raw.bits raw.values.length with
  | .error _ => .error (huffmanFailure .codeOverflow)
  | .ok canonical =>
    let fast := fastEntries (canonical.huffcode.zip (canonical.huffsize.zip raw.values))
    .ok {
      fast := fast
      minCode := canonical.minCode
      maxCode := canonical.maxCode
      valOffset := canonical.valOffset
      values := raw.values
      role := role
      packed := fun idx => packedEntry role idx (fast idx).1 (fast idx).2 }

open BitReader

/-- The first length from 13 on whose largest code is not below the bits. -/
def slowLen (table : HuffmanTable) (code16 : ℕ) : Option ℕ :=
  [13,14,15,16].find? fun len => ((code16 >>> (16-len) : ℕ) : ℤ) ≤ table.maxCode len

def decodeSlow (table : HuffmanTable) : Read ℕ := do
  ensureBitsPadded 16
  let code16 ← peek 16
  match table.slowLen code16 with
  | none => throw (huffmanFailure .codeOverflow)
  | some len => do
    consumeBits len
    match table.values[((code16 >>> (16-len) : ℕ)+table.valOffset len).toNat]? with
    | none => throw (huffmanFailure .invalidSymbol)
    | some value => pure value

def decode (table : HuffmanTable) : Read ℕ := do
  ensureBitsPadded fastBits
  let next ← peek fastBits
  let (sym,len) := table.fast next
  if len ≠ 0 then do
    consumeBits len
    pure sym
  else table.decodeSlow

def decodeFastDc (table : HuffmanTable) : Read ℤ := do
  ensureBitsPadded fastBits
  let next ← peek fastBits
  let packed := table.packed next
  if packed ≠ 0 then do
    consumeBits (packed &&& 0xF)
    pure (fromU16 ((packed >>> 8) &&& 0xFFFF))
  else do
    let ssss ← table.decode
    if 15 < ssss then throw (huffmanFailure .invalidSymbol) else receiveExtend ssss

/-- The symbol of a code that the packed entries leave open, from the twelve bits `next`. -/
def decodeUnpacked (table : HuffmanTable) (next : ℕ) : Read ℕ :=
  let (sym,len) := table.fast next
  if len ≠ 0 then do
    consumeBits len
    pure sym
  else table.decode

def decodeFastAc (table : HuffmanTable) : Read ℕ := do
  ensureBitsPadded fastBits
  let next ← peek fastBits
  let packed := table.packed next
  if packed ≠ 0 then do
    consumeBits (packed &&& 0xF)
    pure packed
  else do
    let sym ← table.decodeUnpacked next
    let run := sym >>> 4
    let ssss := sym &&& 0xF
    if ssss = 0 then pure (if run = 15 then packAcZrl 0 else packAcEob 0)
    else do
      let value ← receiveExtend ssss
      pure (packAcValue 0 run value)

/-- The magnitude that no packed entry holds is passed over. -/
def skipFastAc (table : HuffmanTable) : Read ℕ := do
  ensureBitsPadded fastBits
  let next ← peek fastBits
  let packed := table.packed next
  if packed ≠ 0 then do
    consumeBits (packed &&& 0xF)
    pure packed
  else do
    let sym ← table.decodeUnpacked next
    let run := sym >>> 4
    let ssss := sym &&& 0xF
    if ssss = 0 then pure (if run = 15 then packAcZrl 0 else packAcEob 0)
    else do
      ensureBits ssss
      consumeBits ssss
      pure (packAcValue 0 run 0)

end HuffmanTable

end J2kNative
