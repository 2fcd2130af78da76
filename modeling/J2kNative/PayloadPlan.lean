import J2kNative.MqInterval
import J2kNative.BitStuffing
import J2kNative.Fallible
import J2kNative.CodestreamWriter

/-!
# Payload plans of Tier-1 tokens

Arithmetic and raw segments are packed into buffers that refuse a byte beyond a plan, and the
plan is computed from the number of tokens before any is coded. A symbol shifts the registers at
most fifteen places and a byte takes seven places or more, so that the plan is never exceeded.
Allocation does not fail here.
-/
namespace J2kNative.PayloadPlan
open MqEncoder MqInterval MqStates StuffedDigits Fallible

/-! ## The arithmetic encoder with a byte limit -/

/-- `ArithmeticEncoder` with its limit; `exceeded` stands for the kept error. -/
structure LimitedEncoder where
  registers : ArithmeticEncoder
  byteLimit : ℕ
  exceeded : Bool
  deriving DecidableEq, Repr

namespace LimitedEncoder

/-- `try_with_byte_limit`, for which the sentinel counts as well. -/
def tryWithByteLimit (payloadBytes : ℕ) : LimitedEncoder := ⟨.new,payloadBytes + 1,false⟩

/-- A byte beyond the limit is not written; nothing reads the registers after that. -/
def byteOut (s : LimitedEncoder) : LimitedEncoder :=
  if s.exceeded then s
  else if s.registers.data.length ≥ s.byteLimit then { s with exceeded := true }
  else { s with registers := s.registers.byteOut }

def renormalizeOnce (s : LimitedEncoder) : LimitedEncoder :=
  let r := s.registers
  let s := { s with registers := { r with a := r.a <<< 1, c := r.c <<< 1, ct := r.ct - 1 } }
  if s.registers.ct = 0 then s.byteOut else s

def renormalizeLoop : ℕ → LimitedEncoder → LimitedEncoder
  | 0, s => s
  | fuel+1, s =>
      if s.exceeded then s
      else
        let s := s.renormalizeOnce
        if s.exceeded then s
        else if s.registers.a &&& 0x8000 ≠ 0 then s else renormalizeLoop fuel s

def renormalize (s : LimitedEncoder) : LimitedEncoder := renormalizeLoop 15 s

def encode (s : LimitedEncoder) (bit : ℕ) (ctx : Context) : LimitedEncoder × Context :=
  if s.exceeded then (s,ctx)
  else
    let entry := qeEntry ctx.index
    let r : ArithmeticEncoder := { s.registers with a := s.registers.a - entry.qe }
    if bit = ctx.mps then
      if r.a &&& 0x8000 ≠ 0 then ({ s with registers := { r with c := r.c + entry.qe } },ctx)
      else
        let r := if r.a < entry.qe then { r with a := entry.qe } else { r with c := r.c + entry.qe }
        (renormalize { s with registers := r },ctx.setIndex entry.nmps)
    else
      let r := if r.a < entry.qe then { r with c := r.c + entry.qe } else { r with a := entry.qe }
      let ctx := if entry.switch then ctx.xorMps 1 else ctx
      (renormalize { s with registers := r },ctx.setIndex entry.nlps)

def shiftOut (s : LimitedEncoder) : LimitedEncoder :=
  byteOut { s with registers := { s.registers with c := s.registers.c <<< s.registers.ct } }

def flush (s : LimitedEncoder) : LimitedEncoder :=
  shiftOut (shiftOut { s with registers := s.registers.setBits })

def finishChecked (s : LimitedEncoder) : Except EncodeError (List ℕ) :=
  let s := s.flush
  if s.exceeded then .error (.internalInvariant "MQ encoder exceeded its checked payload plan")
  else .ok (s.registers.data.drop 1)

end LimitedEncoder

/-! ## Output within the limit -/

/-- The encoder has written what the unlimited one has. -/
def within (r : ArithmeticEncoder) (limit : ℕ) : LimitedEncoder := ⟨r,limit,false⟩

section
variable {r : ArithmeticEncoder} {limit : ℕ}

theorem byteOut_length (h : r.data ≠ []) : r.byteOut.data.length = r.data.length + 1 := by
  have hpos := List.length_pos_iff.mpr h
  unfold ArithmeticEncoder.byteOut
  dsimp only
  split_ifs <;> simp only [List.length_append,List.length_singleton,List.length_dropLast] <;> omega

theorem within_byteOut (h : r.data ≠ []) (hle : r.byteOut.data.length ≤ limit) :
    (within r limit).byteOut = within r.byteOut limit := by
  rw [byteOut_length h] at hle
  unfold LimitedEncoder.byteOut within
  rw [if_neg Bool.false_ne_true,if_neg (Nat.not_le.mpr hle)]

theorem renormalizeOnce_length (h : r.data ≠ []) :
    r.data.length ≤ r.renormalizeOnce.data.length := by
  unfold ArithmeticEncoder.renormalizeOnce
  dsimp only
  split_ifs
  · rw [byteOut_length (by exact h)]
    exact Nat.le_succ _
  · exact le_rfl

theorem renormalizeOnce_ne (h : r.data ≠ []) : r.renormalizeOnce.data ≠ [] :=
  List.length_pos_iff.mp ((List.length_pos_iff.mpr h).trans_le (renormalizeOnce_length h))

theorem within_renormalizeOnce (h : r.data ≠ []) (hle : r.renormalizeOnce.data.length ≤ limit) :
    (within r limit).renormalizeOnce = within r.renormalizeOnce limit := by
  have honce : (within r limit).renormalizeOnce =
      if r.ct - 1 = 0 then (within (shiftBy 1 r) limit).byteOut else within (shiftBy 1 r) limit := rfl
  rw [renormalizeOnce_eq] at hle ⊢
  rw [honce]
  by_cases hct : r.ct - 1 = 0
  · rw [if_pos hct] at hle
    rw [if_pos hct,if_pos hct,within_byteOut (by exact h) hle]
  · rw [if_neg hct,if_neg hct]

theorem renormalizeLoop_length (fuel : ℕ) (h : r.data ≠ []) :
    r.data.length ≤ (r.renormalizeLoop fuel).data.length := by
  induction fuel generalizing r with
  | zero => exact le_rfl
  | succ fuel ih =>
      unfold ArithmeticEncoder.renormalizeLoop
      dsimp only
      split_ifs
      · exact renormalizeOnce_length h
      · exact (renormalizeOnce_length h).trans (ih (renormalizeOnce_ne h))

theorem within_renormalizeLoop (fuel : ℕ) (h : r.data ≠ [])
    (hle : (r.renormalizeLoop fuel).data.length ≤ limit) :
    (within r limit).renormalizeLoop fuel = within (r.renormalizeLoop fuel) limit := by
  induction fuel generalizing r with
  | zero => rfl
  | succ fuel ih =>
      have hnext := renormalizeLoop_length fuel (renormalizeOnce_ne h)
      rw [ArithmeticEncoder.renormalizeLoop] at *
      rw [LimitedEncoder.renormalizeLoop]
      dsimp only at *
      rw [if_neg (show ¬(within r limit).exceeded = true from Bool.false_ne_true)]
      by_cases hbit : r.renormalizeOnce.a &&& 0x8000 ≠ 0
      · rw [if_pos hbit] at hle ⊢
        rw [within_renormalizeOnce h hle,if_neg (by exact Bool.false_ne_true)]
        exact if_pos hbit
      · rw [if_neg hbit] at hle ⊢
        rw [within_renormalizeOnce h (hnext.trans hle),if_neg (by exact Bool.false_ne_true)]
        exact (if_neg hbit).trans (ih (renormalizeOnce_ne h) hle)

/-- A symbol is coded as without the limit, where the bytes have room. -/
theorem within_encode (bit : ℕ) (ctx : Context) (h : r.data ≠ [])
    (hle : (r.encode bit ctx).1.data.length ≤ limit) :
    (within r limit).encode bit ctx = (within (r.encode bit ctx).1 limit,(r.encode bit ctx).2) := by
  have hloop {t : ArithmeticEncoder} (ht : t.data = r.data) (ctx : Context)
      (hle : t.renormalize.data.length ≤ limit) :
      ((within t limit).renormalize,ctx) = (within t.renormalize limit,ctx) :=
    congrArg (·,ctx) (within_renormalizeLoop 15 (ht ▸ h) hle)
  unfold LimitedEncoder.encode
  unfold ArithmeticEncoder.encode at *
  rw [if_neg (show ¬(within r limit).exceeded = true from Bool.false_ne_true)]
  dsimp only [within] at *
  by_cases hmps : bit = ctx.mps
  · simp only [if_pos hmps] at hle ⊢
    by_cases hbit : r.a - (qeEntry ctx.index).qe &&& 0x8000 ≠ 0
    · simp only [if_pos hbit]
    · simp only [if_neg hbit] at hle ⊢
      exact hloop (by split_ifs <;> rfl) _ hle
  · simp only [if_neg hmps] at hle ⊢
    exact hloop (by split_ifs <;> rfl) _ hle

end

/-! ## How far a symbol shifts the registers -/

section
variable {s : ArithmeticEncoder} {ctx : Context}

theorem renormalizeLoop_scale (fuel : ℕ) (h : Ready s) (ha : s.a < 0x8000) :
    (s.renormalizeLoop fuel).scale ≤ s.scale + fuel := by
  induction fuel generalizing s with
  | zero => exact le_rfl
  | succ fuel ih =>
      obtain ⟨hr,hd,-⟩ := renormalizeOnce_spec h ha
      have hscale := (renormalizeOnce_interval h).2
      have hhalf := and_half_eq_zero (a := s.renormalizeOnce.a) (by omega)
      unfold ArithmeticEncoder.renormalizeLoop
      dsimp only
      split_ifs with hb
      · omega
      · have hrest := ih hr (hhalf.mp (not_not.mp hb))
        omega

theorem encode_scale (bit : ℕ) (h : Coding s) (hc : ctx.Valid) :
    (s.encode bit ctx).1.scale ≤ s.scale + 15 := by
  have hselect : (select s bit ctx).scale = s.scale := by
    unfold select
    dsimp only
    split_ifs <;> rfl
  have hready := (select_narrow bit h hc).ready h.toReady
  rw [encode_eq bit h hc]
  dsimp only
  unfold MqInterval.normalize
  split_ifs with hlt
  · exact (renormalizeLoop_scale 15 hready hlt).trans_eq (by rw [hselect])
  · omega

theorem offset_ge (data : List ℕ) (k : ℕ) : 7 * k ≤ offsetOf data k := by
  induction k with
  | zero => exact Nat.zero_le _
  | succ k ih =>
      have hwidth := stuffedWidth_cases (digits data k)
      unfold offsetOf at *
      rw [offset_succ]
      omega

/-- A byte takes seven places or more, and the registers hold fifteen. -/
theorem length_le_scale (h : Ready s) : 7 * s.data.length + 8 ≤ s.scale := by
  have hge := offset_ge s.data s.top
  have hct := h.ct_le
  have hne := List.length_pos_iff.mpr h.data_ne
  unfold ArithmeticEncoder.scale ArithmeticEncoder.top at *
  omega

end

/-- The encoder after some symbols. -/
structure Planned (s : LimitedEncoder) (symbols : ℕ) : Prop where
  coding : Coding s.registers
  fits : s.exceeded = false
  scale : s.registers.scale ≤ 15 * (symbols + 1)

section
variable {s : LimitedEncoder} {symbols : ℕ} {ctx : Context}

theorem planned_new (payloadBytes : ℕ) : Planned (.tryWithByteLimit payloadBytes) 0 :=
  ⟨coding_new,rfl,by show ArithmeticEncoder.new.scale ≤ 15 * 1; decide⟩

theorem Planned.within (h : Planned s symbols) : PayloadPlan.within s.registers s.byteLimit = s := by
  unfold PayloadPlan.within
  rw [← h.fits]

theorem Planned.encode (h : Planned s symbols) (bit : ℕ) (hc : ctx.Valid)
    (hlimit : 4 * (symbols + 1) + 5 ≤ s.byteLimit) :
    Planned (s.encode bit ctx).1 (symbols + 1) ∧ (s.encode bit ctx).1.byteLimit = s.byteLimit ∧
      (s.encode bit ctx).2.Valid := by
  have hcoding := encode_coding bit h.coding hc
  have hscale := encode_scale bit h.coding hc
  have hlength := length_le_scale hcoding.toReady
  have hbefore := h.scale
  have heq := within_encode bit ctx h.coding.data_ne (show _ ≤ s.byteLimit by omega)
  rw [h.within] at heq
  rw [heq]
  exact ⟨⟨hcoding,rfl,by dsimp only [PayloadPlan.within]; omega⟩,rfl,
    encode_label_valid bit h.coding hc⟩

theorem within_shiftOut {r : ArithmeticEncoder} {limit : ℕ} (h : r.data ≠ [])
    (hle : r.data.length + 1 ≤ limit) : ∃ r' : ArithmeticEncoder,
      r'.data.length = r.data.length + 1 ∧ r'.data ≠ [] ∧
        (PayloadPlan.within r limit).shiftOut = PayloadPlan.within r' limit := by
  let shifted : ArithmeticEncoder := { r with c := r.c <<< r.ct }
  have hlength : shifted.byteOut.data.length = r.data.length + 1 := byteOut_length h
  refine ⟨shifted.byteOut,hlength,List.length_pos_iff.mp (by omega),?_⟩
  exact within_byteOut (r := shifted) h (show shifted.byteOut.data.length ≤ limit by omega)

/-- The flush writes two bytes more. -/
theorem Planned.finishChecked (h : Planned s symbols) (hlimit : 4 * symbols + 5 ≤ s.byteLimit) :
    ∃ out, s.finishChecked = .ok out ∧ out.length ≤ 4 * symbols + 4 := by
  have hlength := length_le_scale h.coding.toReady
  have hscale := h.scale
  obtain ⟨r₁,hr₁,hne₁,h₁⟩ := within_shiftOut (r := s.registers.setBits)
    h.coding.data_ne (show s.registers.data.length + 1 ≤ s.byteLimit by omega)
  have hr₁ : r₁.data.length = s.registers.data.length + 1 := hr₁
  obtain ⟨r₂,hr₂,-,h₂⟩ := within_shiftOut hne₁ (show _ ≤ s.byteLimit by omega)
  have hflush : s.flush = PayloadPlan.within r₂ s.byteLimit := by
    rw [← h₂,← h₁,← h.within]
    rfl
  unfold LimitedEncoder.finishChecked
  rw [hflush]
  exact ⟨_,if_neg Bool.false_ne_true,by rw [List.length_drop]; dsimp only [PayloadPlan.within]; omega⟩

end

/-! ## The raw writer with a byte limit -/

structure LimitedWriter where
  writer : BitStuffing.BitWriter
  byteLimit : ℕ
  exceeded : Bool
  deriving DecidableEq, Repr

namespace LimitedWriter

def tryWithByteLimit (payloadBytes : ℕ) : LimitedWriter := ⟨.empty,payloadBytes,false⟩

def tryPush (w : LimitedWriter) (byte : ℕ) : LimitedWriter :=
  if w.writer.data.length ≥ w.byteLimit then { w with exceeded := true }
  else { w with writer := { w.writer with data := w.writer.data ++ [byte] } }

def writeBit (w : LimitedWriter) (bit : Bool) : LimitedWriter :=
  if w.exceeded then w
  else
    let (byte,bits) := w.writer.bits.writeBit bit
    let w := { w with writer := { w.writer with bits } }
    match byte with
    | some byte => w.tryPush byte
    | none => w

/-- The bits that are left do not matter behind the flush. -/
def flush (w : LimitedWriter) : LimitedWriter :=
  if w.exceeded then w
  else match w.writer.bits.flush with
    | some byte => w.tryPush byte
    | none => w

def finishChecked (w : LimitedWriter) : Except EncodeError (List ℕ) :=
  let w := w.flush
  if w.exceeded then
    .error (.internalInvariant "raw Tier-1 writer exceeded its checked payload plan")
  else .ok w.writer.data

end LimitedWriter

/-- The writer after some bits: a byte holds seven of them or more. -/
structure RawPlanned (w : LimitedWriter) (bits : ℕ) : Prop where
  unfilled : w.writer.bits.Unfilled
  fits : w.exceeded = false
  bytes : 7 * w.writer.data.length + w.writer.bits.bitsInBuffer ≤ bits

section
variable {w : LimitedWriter} {bits : ℕ}

theorem rawPlanned_new (payloadBytes : ℕ) : RawPlanned (.tryWithByteLimit payloadBytes) 0 :=
  ⟨BitStuffing.BitWriter.empty_unfilled,rfl,le_rfl⟩

theorem RawPlanned.writeBit (h : RawPlanned w bits) (bit : Bool)
    (hlimit : (bits + 7) / 7 + 1 ≤ w.byteLimit) :
    RawPlanned (w.writeBit bit) (bits + 1) ∧ (w.writeBit bit).byteLimit = w.byteLimit := by
  have hunfilled := BitStuffing.BitAccumulator.writeBit_unfilled h.unfilled bit
  have hbytes := h.bytes
  have hwidth := w.writer.bits.limit_bounds
  unfold LimitedWriter.writeBit
  rw [if_neg (by rw [h.fits]; exact Bool.false_ne_true)]
  rw [BitStuffing.BitAccumulator.writeBit_eq h.unfilled] at hunfilled ⊢
  by_cases hfull : w.writer.bits.bitsInBuffer + 1 = w.writer.bits.limit
  · rw [if_pos hfull] at hunfilled ⊢
    dsimp only [LimitedWriter.tryPush]
    rw [if_neg (by omega)]
    refine ⟨⟨hunfilled,h.fits,?_⟩,rfl⟩
    dsimp only
    rw [List.length_append,List.length_singleton]
    omega
  · rw [if_neg hfull] at hunfilled ⊢
    exact ⟨⟨hunfilled,h.fits,by dsimp only; omega⟩,rfl⟩

theorem RawPlanned.finishChecked (h : RawPlanned w bits)
    (hlimit : (bits + 6) / 7 + 1 ≤ w.byteLimit) :
    ∃ out, w.finishChecked = .ok out ∧ out.length ≤ (bits + 6) / 7 + 1 := by
  have hbytes := h.bytes
  have hfits := h.fits
  have hopen : ¬w.exceeded = true := by rw [hfits]; exact Bool.false_ne_true
  unfold LimitedWriter.finishChecked LimitedWriter.flush
  rw [if_neg hopen]
  cases w.writer.bits.flush with
  | none => exact ⟨_,if_neg hopen,by dsimp only; omega⟩
  | some byte =>
      have hroom : ¬w.writer.data.length ≥ w.byteLimit := by omega
      dsimp only [LimitedWriter.tryPush]
      rw [if_neg hroom]
      refine ⟨_,if_neg hopen,?_⟩
      dsimp only
      rw [List.length_append,List.length_singleton]
      omega

end

/-! ## Tokens -/

/-- `J2kTier1TokenSegment`. -/
structure TokenSegment where
  tokenBitOffset : ℕ
  tokenBitCount : ℕ
  startCodingPass : ℕ
  endCodingPass : ℕ
  useArithmetic : Bool
  deriving DecidableEq, Repr

structure TokenReader where
  bytes : List ℕ
  bitPos : ℕ
  deriving DecidableEq, Repr

namespace TokenReader

def totalBits (r : TokenReader) : Except EncodeError ℕ :=
  if r.bytes.length * 8 ≤ CodestreamWriter.usizeMax then .ok (r.bytes.length * 8)
  else .error (.invalidInput "classic Tier-1 token buffer bit length overflows")

def seek (r : TokenReader) (bitPos : ℕ) : Except EncodeError TokenReader := do
  let totalBits ← r.totalBits
  refuse (bitPos > totalBits) (.invalidInput "classic Tier-1 token offset exceeds token buffer")
  pure { r with bitPos }

def readLoop : ℕ → ℕ → TokenReader → ℕ × TokenReader
  | 0, value, r => (value,r)
  | count+1, value, r =>
      let byte := r.bytes.getD (r.bitPos / 8) 0
      let shift := 7 - r.bitPos % 8
      readLoop count (value <<< 1 ||| (byte >>> shift &&& 1)) { r with bitPos := r.bitPos + 1 }

def readBits (r : TokenReader) (count : ℕ) : Except EncodeError (ℕ × TokenReader) := do
  refuse (r.bitPos + count > CodestreamWriter.usizeMax)
    (.invalidInput "classic Tier-1 token bit range overflows")
  let totalBits ← r.totalBits
  refuse (r.bitPos + count > totalBits)
    (.invalidInput "classic Tier-1 token read exceeds token buffer")
  pure (readLoop count 0 r)

end TokenReader

def checked (what : String) (n : ℕ) : Except EncodeError ℕ :=
  if n ≤ CodestreamWriter.usizeMax then .ok n else .error (.arithmeticOverflow what)

def arithmeticTokenPayloadBound (symbolCount : ℕ) : Except EncodeError ℕ :=
  checked "classic Tier-1 MQ token payload" (symbolCount * 4 + 4)

def rawTokenPayloadBound (bitCount : ℕ) : Except EncodeError ℕ :=
  (checked "classic Tier-1 raw token payload" (bitCount + 6)).map fun bits => bits / 7 + 1

/-! ## The plan -/

structure PlanState where
  payloadBytes : ℕ
  largestSegment : ℕ
  previousEnd : ℕ
  deriving DecidableEq, Repr

/-- The bytes that are planned for a segment. -/
def segmentPlan (segment : TokenSegment) : Except EncodeError ℕ :=
  if segment.useArithmetic then do
    refuse (segment.tokenBitCount % 6 ≠ 0)
      (.invalidInput "classic Tier-1 MQ token segment is not aligned to 6-bit symbols")
    arithmeticTokenPayloadBound (segment.tokenBitCount / 6)
  else rawTokenPayloadBound segment.tokenBitCount

/-- One turn of the loop of `token_allocation`. -/
def planSegment (numberOfCodingPasses : ℕ) (s : PlanState) (segment : TokenSegment) :
    Except EncodeError PlanState := do
  let start := segment.startCodingPass
  let stop := segment.endCodingPass
  refuse (start ≥ stop ∨ stop > numberOfCodingPasses)
    (.invalidInput "classic Tier-1 token segment pass range is invalid")
  refuse (start ≠ s.previousEnd)
    (.invalidInput "classic Tier-1 token segments do not provide contiguous pass coverage")
  refuse (segment.useArithmetic ≠ decide (start ≤ 9 ∨ start % 3 = 0))
    (.invalidInput "classic Tier-1 token segment uses the wrong coding mode for its pass")
  refuse (¬segment.useArithmetic ∧ (start % 3 ≠ 1 ∨ stop - start > 2 ∨
      (List.range' start (stop - start)).any (· % 3 = 0)))
    (.invalidInput "classic Tier-1 raw token segment crosses a cleanup-pass boundary")
  let segmentBytes ← segmentPlan segment
  let payloadBytes ← checked "classic Tier-1 token payload" (s.payloadBytes + segmentBytes)
  pure ⟨payloadBytes,max s.largestSegment segmentBytes,stop⟩

/-- The size of a segment record in memory. -/
def encodedSegmentBytes : ℕ := 24

def defaultMaxCodecBytes : ℕ := 512 * 1024 * 1024

/-- The payload bytes of all segments. -/
def tokenAllocation (segments : List TokenSegment) (numberOfCodingPasses : ℕ) :
    Except EncodeError ℕ := do
  refuse (segments.length > numberOfCodingPasses)
    (.invalidInput "classic Tier-1 token segment count exceeds coding passes")
  let s ← segments.foldlM (planSegment numberOfCodingPasses) ⟨0,0,0⟩
  refuse (s.previousEnd ≠ numberOfCodingPasses)
    (.invalidInput "classic Tier-1 token segments do not cover every coding pass")
  let metadataBytes ← checked "classic Tier-1 token segment metadata"
    (segments.length * encodedSegmentBytes)
  let activeSegmentBytes ← checked "classic Tier-1 token active segment" (s.largestSegment + 1)
  let requested ← checked "classic Tier-1 token worker allocation"
    (s.payloadBytes + metadataBytes + activeSegmentBytes)
  refuse (requested > defaultMaxCodecBytes) (.allocationTooLarge
    "classic Tier-1 token worker allocation" requested defaultMaxCodecBytes)
  pure s.payloadBytes

/-! ## Packing -/

/-- The distortion of a segment is a constant and left out. -/
structure EncodedSegment where
  dataOffset : ℕ
  dataLength : ℕ
  startCodingPass : ℕ
  endCodingPass : ℕ
  useArithmetic : Bool
  deriving DecidableEq, Repr

structure PackState where
  reader : TokenReader
  contexts : List Context
  data : List ℕ
  segments : List EncodedSegment
  deriving DecidableEq, Repr

def resetContexts : List Context :=
  (((List.replicate 19 0).set 0 4).set 17 3).set 18 46

def encodeTokens : ℕ → TokenReader → LimitedEncoder → List Context →
    Except EncodeError (TokenReader × LimitedEncoder × List Context)
  | 0, reader, encoder, contexts => pure (reader,encoder,contexts)
  | symbols+1, reader, encoder, contexts => do
      let (token,reader) ← reader.readBits 6
      let ctx := token &&& 0x1F
      match contexts[ctx]? with
      | none => throw (.invalidInput "classic Tier-1 MQ token context is out of range")
      | some context =>
          let bit := token >>> 5 &&& 1
          let (encoder,context) := encoder.encode bit context
          encodeTokens symbols reader encoder (contexts.set ctx context)

def writeTokens : ℕ → TokenReader → LimitedWriter → Except EncodeError (TokenReader × LimitedWriter)
  | 0, reader, writer => pure (reader,writer)
  | bits+1, reader, writer => do
      let (bit,reader) ← reader.readBits 1
      writeTokens bits reader (writer.writeBit (bit.testBit 0))

def tryPushSegment (payloadLimit segmentLimit : ℕ) (s : PackState) (segment : TokenSegment)
    (segmentData : List ℕ) : Except EncodeError PackState := do
  let newPayloadLen ← checked "classic Tier-1 accumulated payload length"
    (s.data.length + segmentData.length)
  refuse (newPayloadLen > payloadLimit)
    (.internalInvariant "classic Tier-1 payload exceeded its checked bound")
  refuse (s.segments.length ≥ segmentLimit)
    (.internalInvariant "classic Tier-1 segment count exceeded its checked bound")
  refuse (s.data.length ≥ 2 ^ 32) (.internalInvariant "classic Tier-1 data offset exceeds u32")
  refuse (segmentData.length ≥ 2 ^ 32)
    (.internalInvariant "classic Tier-1 segment length exceeds u32")
  pure { s with
    data := s.data ++ segmentData
    segments := s.segments ++ [⟨s.data.length,segmentData.length,segment.startCodingPass,
      segment.endCodingPass,segment.useArithmetic⟩] }

/-- One turn of the loop over the segments. -/
def packSegment (payloadBytes segmentCount numberOfCodingPasses : ℕ) (s : PackState)
    (segment : TokenSegment) : Except EncodeError PackState := do
  refuse (segment.startCodingPass ≥ segment.endCodingPass)
    (.invalidInput "classic Tier-1 token segment pass range is invalid")
  refuse (segment.endCodingPass > numberOfCodingPasses)
    (.invalidInput "classic Tier-1 token segment exceeds coding passes")
  let reader ← s.reader.seek segment.tokenBitOffset
  if segment.useArithmetic then do
    refuse (segment.tokenBitCount % 6 ≠ 0)
      (.invalidInput "classic Tier-1 MQ token segment is not aligned to 6-bit symbols")
    let symbolCount := segment.tokenBitCount / 6
    let segmentLimit ← arithmeticTokenPayloadBound symbolCount
    let (reader,encoder,contexts) ←
      encodeTokens symbolCount reader (.tryWithByteLimit segmentLimit) s.contexts
    let data ← encoder.finishChecked
    tryPushSegment payloadBytes segmentCount { s with reader,contexts } segment data
  else do
    let segmentLimit ← rawTokenPayloadBound segment.tokenBitCount
    let (reader,writer) ←
      writeTokens segment.tokenBitCount reader (.tryWithByteLimit segmentLimit)
    let data ← writer.finishChecked
    tryPushSegment payloadBytes segmentCount { s with reader } segment data

structure EncodedCodeBlock where
  data : List ℕ
  segments : List EncodedSegment
  numCodingPasses : ℕ
  numZeroBitplanes : ℕ
  deriving DecidableEq, Repr

/-- `try_pack_classic_selective_bypass_tier1_tokens`. -/
def tryPackTier1Tokens (tokenBytes : List ℕ) (tokenSegments : List TokenSegment)
    (numberOfCodingPasses missingBitPlanes : ℕ) : Except EncodeError EncodedCodeBlock := do
  let payloadBytes ← tokenAllocation tokenSegments numberOfCodingPasses
  let s ← tokenSegments.foldlM
    (packSegment payloadBytes tokenSegments.length numberOfCodingPasses)
    ⟨⟨tokenBytes,0⟩,resetContexts,[],[]⟩
  pure ⟨s.data,s.segments,numberOfCodingPasses,missingBitPlanes⟩

/-! ## No plan is exceeded -/

/-- The result is as it should be, or the error is to be expected. -/
def Yields {α : Type} (x : Except EncodeError α) (P : α → Prop) : Prop :=
  match x with
  | .ok a => P a
  | .error e => e.Expected

section
variable {α β : Type} {P : α → Prop} {Q : β → Prop}

theorem Yields.bind {x : Except EncodeError α} {f : α → Except EncodeError β} (h : Yields x P)
    (hf : ∀ a, P a → Yields (f a) Q) : Yields (x >>= f) Q := by
  cases x with
  | error e => exact h
  | ok a => exact hf a h

theorem Yields.refuse {wrong : Prop} [Decidable wrong] {e : EncodeError}
    {f : Unit → Except EncodeError β} (h : wrong → e.Expected) (hf : ¬wrong → Yields (f ()) Q) :
    Yields (Fallible.refuse wrong e >>= f) Q := by
  unfold Fallible.refuse
  split_ifs with hwrong
  · exact h hwrong
  · exact hf hwrong

theorem yields_checked (what : String) (n : ℕ) : Yields (checked what n) (· = n) := by
  unfold checked
  split_ifs
  · exact rfl
  · trivial

end

theorem yields_totalBits (r : TokenReader) : Yields r.totalBits fun _ => True := by
  unfold TokenReader.totalBits
  split_ifs <;> trivial

theorem yields_seek (r : TokenReader) (bitPos : ℕ) : Yields (r.seek bitPos) fun _ => True :=
  (yields_totalBits r).bind fun _ _ => Yields.refuse (fun _ => trivial) fun _ => trivial

theorem yields_readBits (r : TokenReader) (count : ℕ) : Yields (r.readBits count) fun _ => True :=
  Yields.refuse (fun _ => trivial) fun _ => (yields_totalBits r).bind fun _ _ =>
    Yields.refuse (fun _ => trivial) fun _ => trivial

/-- Symbols are coded within a limit for all of them. -/
theorem yields_encodeTokens {done : ℕ} (symbols : ℕ) (reader : TokenReader)
    {encoder : LimitedEncoder} {contexts : List Context} (h : Planned encoder done)
    (hcontexts : ∀ ctx ∈ contexts, ctx.Valid) (hlimit : 4 * (done + symbols) + 5 ≤ encoder.byteLimit) :
    Yields (encodeTokens symbols reader encoder contexts) fun (_,encoder',contexts') =>
      Planned encoder' (done + symbols) ∧ encoder'.byteLimit = encoder.byteLimit ∧
        ∀ ctx ∈ contexts', ctx.Valid := by
  induction symbols generalizing done reader encoder contexts with
  | zero => exact ⟨h,rfl,hcontexts⟩
  | succ symbols ih =>
      refine (yields_readBits reader 6).bind fun (token,reader) _ => ?_
      dsimp only
      cases hcontext : contexts[token &&& 0x1F]? with
      | none => trivial
      | some context =>
          have hvalid := hcontexts context (List.mem_of_getElem? hcontext)
          obtain ⟨hnext,hsame,hvalid'⟩ := h.encode (token >>> 5 &&& 1) hvalid (by omega)
          have hset : ∀ ctx ∈ contexts.set (token &&& 0x1F)
              (encoder.encode (token >>> 5 &&& 1) context).2, ctx.Valid := by
            intro ctx hctx
            rcases List.mem_or_eq_of_mem_set hctx with hctx | rfl
            · exact hcontexts ctx hctx
            · exact hvalid'
          have hrest := ih reader hnext hset (by rw [hsame]; omega)
          rw [hsame,show done + 1 + symbols = done + (symbols + 1) by omega] at hrest
          exact hrest

theorem yields_writeTokens {done : ℕ} (bits : ℕ) (reader : TokenReader) {writer : LimitedWriter}
    (h : RawPlanned writer done) (hlimit : (done + bits + 6) / 7 + 1 ≤ writer.byteLimit) :
    Yields (writeTokens bits reader writer) fun (_,writer') =>
      RawPlanned writer' (done + bits) ∧ writer'.byteLimit = writer.byteLimit := by
  induction bits generalizing done reader writer with
  | zero => exact ⟨h,rfl⟩
  | succ bits ih =>
      refine (yields_readBits reader 1).bind fun (bit,reader) _ => ?_
      obtain ⟨hnext,hsame⟩ := h.writeBit (bit.testBit 0) (by omega)
      have hrest := ih reader hnext (by rw [hsame]; omega)
      rw [hsame,show done + 1 + bits = done + (bits + 1) by omega] at hrest
      exact hrest

/-- What is planned for a segment. -/
def segmentBound (segment : TokenSegment) : ℕ :=
  if segment.useArithmetic then 4 * (segment.tokenBitCount / 6) + 4
  else (segment.tokenBitCount + 6) / 7 + 1

theorem yields_segmentPlan (segment : TokenSegment) :
    Yields (segmentPlan segment) (· = segmentBound segment) := by
  unfold segmentPlan segmentBound
  split_ifs with harithmetic
  · refine Yields.refuse (fun _ => trivial) fun _ => ?_
    unfold arithmeticTokenPayloadBound
    rw [Nat.mul_comm 4]
    exact yields_checked _ _
  · unfold rawTokenPayloadBound checked
    split_ifs
    · exact rfl
    · trivial

/-- The segments before have left room for this one and those behind. -/
structure Packed (plan count : ℕ) (rest : List TokenSegment) (s : PackState) : Prop where
  contexts : ∀ ctx ∈ s.contexts, ctx.Valid
  data : s.data.length + (rest.map segmentBound).sum ≤ plan
  count : s.segments.length + rest.length = count

/-- A segment is appended, not longer than planned. -/
def Appended (segment : TokenSegment) (s s' : PackState) : Prop :=
  ∃ e : EncodedSegment, s'.segments = s.segments ++ [e] ∧ e.dataLength ≤ segmentBound segment

section
variable {plan count : ℕ} {rest : List TokenSegment} {s : PackState} {segment : TokenSegment}

theorem yields_tryPushSegment (h : Packed plan count (segment :: rest) s) (hplan : plan < 2 ^ 32)
    {reader : TokenReader} {contexts : List Context} (hcontexts : ∀ ctx ∈ contexts, ctx.Valid)
    {data : List ℕ} (hdata : data.length ≤ segmentBound segment) :
    Yields (tryPushSegment plan count { s with reader,contexts } segment data)
      fun s' => Packed plan count rest s' ∧ Appended segment s s' := by
  have hroom := h.data
  have hcount := h.count
  rw [List.map_cons,List.sum_cons] at hroom
  rw [List.length_cons] at hcount
  refine (yields_checked _ _).bind fun newPayloadLen hlen => ?_
  subst hlen
  dsimp only
  refine Yields.refuse (fun hwrong => absurd hwrong (by omega)) fun _ => ?_
  refine Yields.refuse (fun hwrong => absurd hwrong (by omega)) fun _ => ?_
  refine Yields.refuse (fun hwrong => absurd hwrong (by omega)) fun _ => ?_
  refine Yields.refuse (fun hwrong => absurd hwrong (by omega)) fun _ => ?_
  refine ⟨⟨hcontexts,?_,?_⟩,_,rfl,hdata⟩
  · dsimp only
    rw [List.length_append]
    omega
  · dsimp only
    rw [List.length_append,List.length_singleton]
    omega

theorem yields_packSegment (passes : ℕ) (h : Packed plan count (segment :: rest) s)
    (hplan : plan < 2 ^ 32) :
    Yields (packSegment plan count passes s segment)
      fun s' => Packed plan count rest s' ∧ Appended segment s s' := by
  refine Yields.refuse (fun _ => trivial) fun _ => ?_
  refine Yields.refuse (fun _ => trivial) fun _ => ?_
  refine (yields_seek _ _).bind fun reader _ => ?_
  by_cases harithmetic : segment.useArithmetic = true
  · rw [if_pos harithmetic]
    refine Yields.refuse (fun _ => trivial) fun _ => ?_
    refine (yields_checked _ _).bind fun segmentLimit hlimit => ?_
    subst hlimit
    refine (yields_encodeTokens _ reader (planned_new _) h.contexts
      (by dsimp only [LimitedEncoder.tryWithByteLimit]; omega)).bind
      fun (reader,encoder,contexts) ⟨hplanned,hsame,hcontexts⟩ => ?_
    obtain ⟨out,hout,hle⟩ := hplanned.finishChecked
      (by rw [hsame]; dsimp only [LimitedEncoder.tryWithByteLimit]; omega)
    dsimp only
    rw [hout]
    refine yields_tryPushSegment h hplan hcontexts ?_
    unfold segmentBound
    rw [if_pos harithmetic]
    omega
  · rw [if_neg harithmetic]
    unfold rawTokenPayloadBound checked
    split_ifs
    · refine (yields_writeTokens _ reader (rawPlanned_new _)
        (by dsimp only [LimitedWriter.tryWithByteLimit]; omega)).bind
        fun (reader,writer) ⟨hplanned,hsame⟩ => ?_
      obtain ⟨out,hout,hle⟩ := hplanned.finishChecked
        (by rw [hsame]; dsimp only [LimitedWriter.tryWithByteLimit]; omega)
      dsimp only
      rw [hout]
      refine yields_tryPushSegment h hplan h.contexts ?_
      unfold segmentBound
      rw [if_neg harithmetic]
      omega
    · trivial

theorem yields_packSegments (passes : ℕ) (hplan : plan < 2 ^ 32) {segments : List TokenSegment}
    (h : Packed plan count segments s) :
    Yields (segments.foldlM (packSegment plan count passes) s) fun s' =>
      s'.data.length ≤ plan ∧ ∃ new, s'.segments = s.segments ++ new ∧
        List.Forall₂ (fun segment e => e.dataLength ≤ segmentBound segment) segments new := by
  induction segments generalizing s with
  | nil => exact ⟨h.data,[],(List.append_nil _).symm,.nil⟩
  | cons segment segments ih =>
      rw [List.foldlM_cons]
      refine (yields_packSegment passes h hplan).bind fun s₁ ⟨h₁,e,happend,hlength⟩ => ?_
      have hrest := ih h₁
      cases hrun : segments.foldlM (packSegment plan count passes) s₁ with
      | error e => rwa [hrun] at hrest
      | ok s' =>
          rw [hrun] at hrest
          obtain ⟨hdata,new,hnew,hall⟩ := hrest
          exact ⟨hdata,e :: new,by rw [hnew,happend,List.append_assoc]; rfl,.cons hlength hall⟩

end

theorem yields_planSegments (passes : ℕ) (s : PlanState) (segments : List TokenSegment) :
    Yields (segments.foldlM (planSegment passes) s) fun s' =>
      s'.payloadBytes = s.payloadBytes + (segments.map segmentBound).sum := by
  induction segments generalizing s with
  | nil => exact (Nat.add_zero _).symm
  | cons segment segments ih =>
      rw [List.foldlM_cons]
      have hstep : Yields (planSegment passes s segment)
          fun s₁ => s₁.payloadBytes = s.payloadBytes + segmentBound segment := by
        refine Yields.refuse (fun _ => trivial) fun _ => ?_
        refine Yields.refuse (fun _ => trivial) fun _ => ?_
        refine Yields.refuse (fun _ => trivial) fun _ => ?_
        refine Yields.refuse (fun _ => trivial) fun _ => ?_
        refine (yields_segmentPlan segment).bind fun segmentBytes hbytes => ?_
        refine (yields_checked _ _).bind fun payloadBytes hpayload => ?_
        rw [hbytes] at hpayload
        exact hpayload
      refine hstep.bind fun s₁ hs₁ => ?_
      rw [List.map_cons,List.sum_cons,← Nat.add_assoc,← hs₁]
      exact ih s₁

theorem yields_tokenAllocation (segments : List TokenSegment) (passes : ℕ) :
    Yields (tokenAllocation segments passes) fun plan =>
      plan = (segments.map segmentBound).sum ∧ plan < 2 ^ 32 := by
  refine Yields.refuse (fun _ => trivial) fun _ => ?_
  refine (yields_planSegments passes ⟨0,0,0⟩ segments).bind fun s hs => ?_
  refine Yields.refuse (fun _ => trivial) fun _ => ?_
  refine (yields_checked _ _).bind fun metadataBytes hmetadata => ?_
  refine (yields_checked _ _).bind fun activeSegmentBytes hactive => ?_
  refine (yields_checked _ _).bind fun requested hrequested => ?_
  refine Yields.refuse (fun _ => trivial) fun hcap => ?_
  have hpayload : s.payloadBytes = (segments.map segmentBound).sum := by
    rw [hs]
    exact Nat.zero_add _
  refine ⟨hpayload,?_⟩
  unfold defaultMaxCodecBytes at hcap
  omega

/-- A plan plans every segment. -/
theorem exists_segmentPlan {passes : ℕ} {s s' : PlanState} {segments : List TokenSegment}
    (h : segments.foldlM (planSegment passes) s = .ok s') :
    ∀ segment ∈ segments, segmentPlan segment = .ok (segmentBound segment) := by
  induction segments generalizing s with
  | nil => nofun
  | cons first segments ih =>
      rw [List.foldlM_cons] at h
      obtain ⟨s₁,hfirst,h⟩ := bind_eq_ok.mp h
      refine List.forall_mem_cons.mpr ⟨?_,ih h⟩
      obtain ⟨_,-,hfirst⟩ := bind_eq_ok.mp hfirst
      obtain ⟨_,-,hfirst⟩ := bind_eq_ok.mp hfirst
      obtain ⟨_,-,hfirst⟩ := bind_eq_ok.mp hfirst
      obtain ⟨_,-,hfirst⟩ := bind_eq_ok.mp hfirst
      obtain ⟨segmentBytes,hbytes,-⟩ := bind_eq_ok.mp hfirst
      have hbound := yields_segmentPlan first
      rw [hbytes] at hbound
      rw [hbytes,show segmentBytes = segmentBound first from hbound]

theorem resetContexts_valid : ∀ ctx ∈ resetContexts, ctx.Valid := by decide

/-- Whatever the tokens and the segments are, no error reports that a plan was exceeded, and a
packed segment takes the bytes planned for it at most, as all together take those planned for
all. -/
theorem payload_plan_suffices (tokenBytes : List ℕ) (tokenSegments : List TokenSegment)
    (numberOfCodingPasses missingBitPlanes : ℕ) :
    (∀ what, tryPackTier1Tokens tokenBytes tokenSegments numberOfCodingPasses missingBitPlanes ≠
      .error (.internalInvariant what)) ∧
    ∀ encoded, tryPackTier1Tokens tokenBytes tokenSegments numberOfCodingPasses missingBitPlanes =
        .ok encoded →
      ∃ payloadBytes, tokenAllocation tokenSegments numberOfCodingPasses = .ok payloadBytes ∧
        encoded.data.length ≤ payloadBytes ∧
        List.Forall₂ (fun segment (e : EncodedSegment) =>
            ∃ bound, segmentPlan segment = .ok bound ∧ e.dataLength ≤ bound)
          tokenSegments encoded.segments := by
  have hall : Yields (tryPackTier1Tokens tokenBytes tokenSegments numberOfCodingPasses
      missingBitPlanes) fun encoded => ∃ payloadBytes,
        tokenAllocation tokenSegments numberOfCodingPasses = .ok payloadBytes ∧
        encoded.data.length ≤ payloadBytes ∧
        List.Forall₂ (fun segment (e : EncodedSegment) =>
            ∃ bound, segmentPlan segment = .ok bound ∧ e.dataLength ≤ bound)
          tokenSegments encoded.segments := by
    have hallocation := yields_tokenAllocation tokenSegments numberOfCodingPasses
    unfold tryPackTier1Tokens
    cases hplan : tokenAllocation tokenSegments numberOfCodingPasses with
    | error e => rwa [hplan] at hallocation
    | ok payloadBytes =>
        rw [hplan] at hallocation
        obtain ⟨hsum,hlt⟩ := hallocation
        rw [ok_bind]
        refine (yields_packSegments numberOfCodingPasses hlt
          (s := ⟨⟨tokenBytes,0⟩,resetContexts,[],[]⟩) ⟨resetContexts_valid,?_,?_⟩).bind
          fun s ⟨hdata,new,hnew,hlengths⟩ => ?_
        · rw [hsum]
          exact (Nat.zero_add _).le
        · exact Nat.zero_add _
        · refine ⟨payloadBytes,rfl,hdata,?_⟩
          obtain ⟨_,-,hrun⟩ := bind_eq_ok.mp hplan
          obtain ⟨_,hrun,-⟩ := bind_eq_ok.mp hrun
          have hsegments : s.segments = new := hnew
          dsimp only
          rw [hsegments]
          refine List.forall₂_iff_get.mpr ⟨hlengths.length_eq,fun i hi hi' => ?_⟩
          exact ⟨_,exists_segmentPlan hrun _ (List.get_mem _ _),hlengths.get hi hi'⟩
  constructor
  · intro what h
    rw [h] at hall
    exact hall
  · intro encoded h
    rw [h] at hall
    exact hall

example : (tryPackTier1Tokens [0x80] [⟨0,6,0,1,true⟩] 1 3).map (·.data) =
    .ok [7,255] := by decide

end J2kNative.PayloadPlan
