import J2kNative.ClassicCoder
import J2kNative.ClassicMirror
import J2kNative.MqRoundTrip

/-!
# Channels of the classic coders

Within its plan a coder writes what it would write without a limit. The finished bytes of a segment
are a channel: a decoder at the encoder's place reads the decisions that the encoder goes on with,
under the contexts that both hold, and ends with the encoder's contexts.
-/
namespace J2kNative.ClassicEncoder
open SymbolChannels RecordedRuns CountedLoops StuffedDigits MqStates MqEncoder MqInterval MqDecoder
  MqRoundTrip PayloadPlan
open ClassicDecoder (Moment BitPlaneDecodeContext)

/-- Whether a coder writes something for a decision. -/
def Decision.isBit : Decision → Bool
  | .resetContexts => false
  | _ => true

/-! ## The arithmetic coder without a limit -/

def takeSymbol (s : ArithmeticEncoder × Buffer Context) : Decision → ArithmeticEncoder × Buffer Context
  | .symbol label bit =>
      ((s.1.encode bit.toNat (s.2 label)).1,s.2.set label (s.1.encode bit.toNat (s.2 label)).2)
  | .raw _ => s
  | .resetContexts => (s.1,resetContexts)

/-- Registers and contexts of an encoder that may go on. -/
structure Going (s : ArithmeticEncoder × Buffer Context) : Prop where
  coding : Coding s.1
  valid : ∀ label, (s.2 label).Valid

section
variable {s : ArithmeticEncoder × Buffer Context} {limit : ℕ}

theorem resetContexts_valid (label : ℕ) : (resetContexts label).Valid := by
  unfold resetContexts
  split_ifs <;> decide

theorem Going.takeSymbol (h : Going s) (d : Decision) : Going (takeSymbol s d) := by
  cases d with
  | symbol label bit =>
      refine ⟨encode_coding _ h.coding (h.valid label),fun l => ?_⟩
      unfold ClassicEncoder.takeSymbol
      dsimp only
      by_cases hl : l = label
      · rw [hl,Buffer.set_self]
        exact encode_label_valid _ h.coding (h.valid label)
      · rw [Buffer.set_of_ne _ _ hl]
        exact h.valid l
  | raw bit => exact h
  | resetContexts => exact ⟨h.coding,resetContexts_valid⟩

theorem Going.takeSymbols (h : Going s) (ds : List Decision) : Going (ds.foldl ClassicEncoder.takeSymbol s) := by
  induction ds generalizing s with
  | nil => exact h
  | cons d ds ih => exact ih (h.takeSymbol d)

theorem future_of_takeSymbol {data : List ℕ} (h : Going s) (d : Decision)
    (f : Future (takeSymbol s d).1 data) : Future s.1 data := by
  cases d with
  | symbol label bit => exact Future.of_encode h.coding (h.valid label) f
  | raw bit => exact f
  | resetContexts => exact f

theorem future_of_takeSymbols {data : List ℕ} (h : Going s) (ds : List Decision)
    (f : Future (ds.foldl takeSymbol s).1 data) : Future s.1 data := by
  induction ds generalizing s with
  | nil => exact f
  | cons d ds ih => exact future_of_takeSymbol h d (ih (h.takeSymbol d) f)

/-! ## Within the plan -/

theorem takeSymbol_scale (h : Going s) (d : Decision) :
    (takeSymbol s d).1.scale ≤ s.1.scale + 15 * d.isBit.toNat := by
  cases d with
  | symbol label bit => exact encode_scale _ h.coding (h.valid label)
  | raw bit => exact Nat.le_add_right _ _
  | resetContexts => exact Nat.le_add_right _ _

theorem takeSymbols_scale (h : Going s) (ds : List Decision) :
    (ds.foldl takeSymbol s).1.scale ≤ s.1.scale + 15 * ds.countP Decision.isBit := by
  induction ds generalizing s with
  | nil => exact Nat.le_add_right _ _
  | cons d ds ih =>
      have hstep := takeSymbol_scale h d
      have hrest := ih (h.takeSymbol d)
      rw [List.foldl_cons,List.countP_cons]
      cases hbit : d.isBit <;> simp [hbit] at hstep ⊢ <;> omega

/-- Symbols are coded as without the limit, where all bytes that they may bring have room. -/
theorem codeSymbols_within (h : Going s) (ds : List Decision)
    (hlimit : s.1.scale + 15 * ds.countP Decision.isBit ≤ 7 * limit + 14) :
    ds.foldl codeSymbol (within s.1 limit,s.2) =
      (within (ds.foldl takeSymbol s).1 limit,(ds.foldl takeSymbol s).2) := by
  induction ds generalizing s with
  | nil => rfl
  | cons d ds ih =>
      have hscale := takeSymbol_scale h d
      have hlength := length_le_scale (h.takeSymbol d).coding.toReady
      rw [List.countP_cons] at hlimit
      have hstep : codeSymbol (within s.1 limit,s.2) d =
          (within (takeSymbol s d).1 limit,(takeSymbol s d).2) := by
        cases d with
        | symbol label bit =>
            have hfits : (s.1.encode bit.toNat (s.2 label)).1.data.length ≤ limit := by
              have : (Decision.symbol label bit).isBit = true := rfl
              rw [this,if_pos rfl] at hlimit
              rw [this,Bool.toNat_true] at hscale
              unfold takeSymbol at hscale hlength
              dsimp only at hscale hlength
              omega
            unfold codeSymbol takeSymbol
            dsimp only
            rw [within_encode _ _ h.coding.data_ne hfits]
        | raw bit => rfl
        | resetContexts => rfl
      rw [List.foldl_cons,List.foldl_cons,hstep]
      refine ih (h.takeSymbol d) ?_
      cases hbit : d.isBit <;> rw [hbit] at hlimit hscale <;> simp at hlimit hscale <;> omega

theorem within_flush {r : ArithmeticEncoder} (h : Coding r) (hlimit : r.data.length + 2 ≤ limit) :
    (within r limit).flush = within r.flush limit := by
  have hfirst : (within r.setBits limit).shiftOut =
      within (ArithmeticEncoder.byteOut { r.setBits with c := r.setBits.c <<< r.setBits.ct }) limit := by
    refine within_byteOut (r := { r.setBits with c := r.setBits.c <<< r.setBits.ct }) h.data_ne ?_
    rw [byteOut_length (by exact h.data_ne)]
    show r.data.length + 1 ≤ limit
    omega
  have hlength := flush_length h
  unfold LimitedEncoder.flush
  rw [show ({ within r limit with registers := (within r limit).registers.setBits } : LimitedEncoder) =
    within r.setBits limit from rfl,hfirst]
  refine within_byteOut (r := { ArithmeticEncoder.byteOut { r.setBits with
    c := r.setBits.c <<< r.setBits.ct } with c := _ }) ?_ ?_
  · exact List.length_pos_iff.mp (by rw [byteOut_length (by exact h.data_ne)]; omega)
  · exact hlength.trans_le hlimit

/-- The bytes of a segment that keeps to its plan. -/
theorem finish_within {r : ArithmeticEncoder} (h : Coding r) (hlimit : r.data.length + 2 ≤ limit) :
    (within r limit).finishChecked = .ok r.finish ∧ r.finish.length = r.data.length + 1 := by
  refine ⟨?_,?_⟩
  · unfold LimitedEncoder.finishChecked
    rw [within_flush h hlimit]
    exact if_neg Bool.false_ne_true
  · unfold ArithmeticEncoder.finish
    rw [List.length_drop,flush_length h]
    omega

end

/-! ## The arithmetic channel -/

/-- The bytes of an encoder that stands at `fin` at the end, seen from where it still codes these
decisions. -/
def arithmeticChannel (fin : ArithmeticEncoder × Buffer Context) :
    Channel Decision Moment ArithmeticDecoder (Buffer Context) where
  view := fun m => m.ctx.contexts
  Holds := fun ds contexts d => ∃ s, Going (s,contexts) ∧ Sync s d fin.1.flush.data ∧
    ds.foldl takeSymbol (s,contexts) = fin

section
variable {fin : ArithmeticEncoder × Buffer Context}

theorem readBitArithmetic_run (label : ℕ) (r : Run Moment ArithmeticDecoder) :
    ClassicDecoder.readBitArithmetic label r =
      (some ((r.source.decode (r.state.ctx.contexts label)).1 != 0),
        ⟨{ r.state with ctx := { r.state.ctx with
            contexts := r.state.ctx.contexts.set label
              (r.source.decode (r.state.ctx.contexts label)).2.2 } },
          (r.source.decode (r.state.ctx.contexts label)).2.1,
          r.trace ++ [{ r.state with ctx := { r.state.ctx with
            contexts := r.state.ctx.contexts.set label
              (r.source.decode (r.state.ctx.contexts label)).2.2 } }]⟩) := rfl

theorem carries_arithmetic (hfin : Coding fin.1) :
    Carries (arithmeticChannel fin) false ClassicDecoder.readBitArithmetic := by
  refine ⟨fun _ => rfl,fun r label bit rest h => ?_,fun rest contexts source h => ?_⟩
  · obtain ⟨s,hgoing,hsync,hrun⟩ := h
    rw [if_neg Bool.false_ne_true,List.foldl_cons] at hrun
    have hnext := hgoing.takeSymbol (.symbol label bit)
    have hfuture : Future (takeSymbol (s,r.state.ctx.contexts) (.symbol label bit)).1
        fin.1.flush.data :=
      future_of_takeSymbols hnext rest (by rw [hrun]; exact flush_future hfin)
    obtain ⟨hbit,hcontext,hsync'⟩ := hsync.decode hgoing.coding (hgoing.valid label)
      (Bool.toNat_lt bit) hfuture
    have hvalue : (bit.toNat != 0) = bit := by cases bit <;> rfl
    rw [readBitArithmetic_run,hbit,hvalue]
    exact ⟨_,_,rfl,by rw [hcontext],_,hnext,hsync',hrun⟩
  · obtain ⟨s,hgoing,hsync,hrun⟩ := h
    exact ⟨s,hgoing.takeSymbol .resetContexts,hsync,hrun⟩

/-- A decoder of the whole segment. -/
theorem arithmetic_start {contexts : Buffer Context} (hvalid : ∀ label, (contexts label).Valid)
    (ds : List Decision) :
    (arithmeticChannel (ds.foldl takeSymbol (.new,contexts))).Holds ds contexts
      (ArithmeticDecoder.new (ds.foldl takeSymbol (.new,contexts)).1.finish) := by
  have hgoing : Going (.new,contexts) := ⟨coding_new,hvalid⟩
  have hfin := (hgoing.takeSymbols ds).coding
  exact ⟨.new,hgoing,sync_finish hfin (future_of_takeSymbols hgoing ds (flush_future hfin)),rfl⟩

theorem arithmetic_end {contexts : Buffer Context} {d : ArithmeticDecoder}
    (h : (arithmeticChannel fin).Holds [] contexts d) : contexts = fin.2 := by
  obtain ⟨s,-,-,hrun⟩ := h
  exact congrArg Prod.snd hrun

end

/-! ## The raw channel -/

/-- What a raw writer does for a decision, without a limit. -/
def takeRaw (s : BitStuffing.BitWriter × Buffer Context) :
    Decision → BitStuffing.BitWriter × Buffer Context
  | .symbol _ _ => s
  | .raw bit => (s.1.writeBit bit,s.2)
  | .resetContexts => (s.1,resetContexts)

/-- The bytes of a writer that stands at `fin` at the end, seen from where it still writes these
decisions. -/
def rawChannel (fin : BitStuffing.BitWriter × Buffer Context) :
    Channel Decision Moment BitStuffing.BitReader (Buffer Context) where
  view := fun m => m.ctx.contexts
  Holds := fun ds contexts r => ∃ w, w.bits.Unfilled ∧ r = ⟨fin.1.finish,w.position⟩ ∧
    ds.foldl takeRaw (w,contexts) = fin

section
variable {fin : BitStuffing.BitWriter × Buffer Context}

theorem readRawBit_of_stuffed {strict bit : Bool} {r r' : BitStuffing.BitReader}
    (h : r.readStuffedBit = some (bit,r')) : ClassicDecoder.readRawBit strict r = (some bit,r') := by
  unfold BitStuffing.BitReader.readStuffedBit at h
  unfold ClassicDecoder.readRawBit
  cases hread : r.readBit with
  | none => rw [hread] at h; cases h
  | some p =>
      obtain ⟨first,r₁⟩ := p
      rw [hread] at h
      dsimp only [Option.bind_eq_bind,Option.bind_some] at h ⊢
      cases hneeds : r.needsToReadStuffBit with
      | false =>
          rw [hneeds,if_neg Bool.false_ne_true] at h
          rw [if_neg Bool.false_ne_true]
          obtain ⟨rfl,rfl⟩ := Prod.mk.inj (Option.some.inj h)
          rfl
      | true =>
          rw [hneeds,if_pos rfl] at h
          rw [if_pos rfl]
          unfold BitStuffing.BitReader.readStuffBit at h
          cases hstuff : r₁.readBit with
          | none => rw [hstuff] at h; cases h
          | some q =>
              obtain ⟨stuffBit,r₂⟩ := q
              rw [hstuff] at h
              cases stuffBit with
              | true => cases h
              | false =>
                  obtain ⟨rfl,rfl⟩ := Prod.mk.inj (Option.some.inj h)
                  rfl

theorem takeRaw_unfilled {w : BitStuffing.BitWriter} (h : w.bits.Unfilled)
    (contexts : Buffer Context) (ds : List Decision) :
    (ds.foldl takeRaw (w,contexts)).1.bits.Unfilled ∧
      ∃ bits, (ds.foldl takeRaw (w,contexts)).1 = w.writeBits bits := by
  induction ds generalizing w contexts with
  | nil => exact ⟨h,[],rfl⟩
  | cons d ds ih =>
      cases d with
      | symbol label bit => exact ih h contexts
      | raw bit =>
          obtain ⟨hunfilled,bits,hbits⟩ := ih (w := w.writeBit bit)
            (BitStuffing.BitAccumulator.writeBit_unfilled h bit) contexts
          exact ⟨hunfilled,bit :: bits,hbits⟩
      | resetContexts => exact ih h resetContexts

theorem carries_raw (strict : Bool) :
    Carries (rawChannel fin) true (ClassicDecoder.readBitBypass strict) := by
  refine ⟨fun _ => rfl,fun r label bit rest h => ?_,fun rest contexts source h => ?_⟩
  · obtain ⟨w,hunfilled,hsource,hrun⟩ := h
    rw [if_pos rfl,List.foldl_cons] at hrun
    have hnext := BitStuffing.BitAccumulator.writeBit_unfilled hunfilled bit
    obtain ⟨-,bits,hbits⟩ := takeRaw_unfilled (w := w.writeBit bit) hnext r.state.ctx.contexts rest
    have hfin : fin.1 = (w.writeBit bit).writeBits bits := (congrArg Prod.fst hrun).symm.trans hbits
    have hread := BitStuffing.BitWriter.readStuffedBit_of_holds hunfilled
      (BitStuffing.BitWriter.holds_writeBits hnext bits)
    rw [← hfin,← hsource] at hread
    have hbit : ClassicDecoder.readBitBypass strict label r =
        (some bit,⟨r.state,⟨fin.1.finish,(w.writeBit bit).position⟩,r.trace⟩) := by
      unfold ClassicDecoder.readBitBypass consume
      rw [readRawBit_of_stuffed hread]
    exact ⟨_,r.state.ctx.contexts,hbit,rfl,w.writeBit bit,hnext,rfl,hrun⟩
  · obtain ⟨w,hunfilled,hsource,hrun⟩ := h
    exact ⟨w,hunfilled,hsource,hrun⟩

/-- A reader of the whole segment. -/
theorem raw_start (contexts : Buffer Context) (ds : List Decision) :
    (rawChannel (ds.foldl takeRaw (.empty,contexts))).Holds ds contexts
      ⟨(ds.foldl takeRaw (.empty,contexts)).1.finish,0⟩ :=
  ⟨.empty,BitStuffing.BitWriter.empty_unfilled,rfl,rfl⟩

theorem raw_end {contexts : Buffer Context} {r : BitStuffing.BitReader}
    (h : (rawChannel fin).Holds [] contexts r) : contexts = fin.2 := by
  obtain ⟨w,-,-,hrun⟩ := h
  exact congrArg Prod.snd hrun

/-! ## Raw bits within the plan -/

/-- The writer has written what the unlimited one has. -/
def withinRaw (w : BitStuffing.BitWriter) (limit : ℕ) : LimitedWriter := ⟨w,limit,false⟩

theorem writeBit_bytes {w : BitStuffing.BitWriter} (h : w.bits.Unfilled) (bit : Bool) :
    7 * (w.writeBit bit).data.length + (w.writeBit bit).bits.bitsInBuffer ≤
      7 * w.data.length + w.bits.bitsInBuffer + 1 := by
  have hwidth := w.bits.limit_bounds
  by_cases hfull : w.bits.bitsInBuffer + 1 = w.bits.limit
  · rw [BitStuffing.BitWriter.writeBit_full h hfull]
    simp only [List.length_append,List.length_singleton]
    omega
  · rw [BitStuffing.BitWriter.writeBit_open h hfull]
    dsimp only
    omega

theorem withinRaw_writeBit {w : BitStuffing.BitWriter} (bit : Bool) {limit : ℕ}
    (hlimit : (w.writeBit bit).data.length ≤ limit) :
    (withinRaw w limit).writeBit bit = withinRaw (w.writeBit bit) limit := by
  unfold LimitedWriter.writeBit withinRaw BitStuffing.BitWriter.writeBit
  unfold BitStuffing.BitWriter.writeBit at hlimit
  rw [if_neg Bool.false_ne_true]
  dsimp only at hlimit ⊢
  cases hbyte : (w.bits.writeBit bit).1 with
  | none => simp
  | some byte =>
      rw [hbyte,Option.toList_some,List.length_append,List.length_singleton] at hlimit
      dsimp only [LimitedWriter.tryPush]
      rw [if_neg (by omega)]
      rfl

/-- Bits are written as without the limit, where all bytes that they may bring have room. -/
theorem writeRaws_within {w : BitStuffing.BitWriter} (h : w.bits.Unfilled) (contexts : Buffer Context)
    {limit : ℕ} (ds : List Decision)
    (hlimit : 7 * w.data.length + w.bits.bitsInBuffer + ds.countP Decision.isBit ≤ 7 * limit + 6) :
    ds.foldl writeRaw (withinRaw w limit,contexts) =
        (withinRaw (ds.foldl takeRaw (w,contexts)).1 limit,(ds.foldl takeRaw (w,contexts)).2) ∧
      7 * (ds.foldl takeRaw (w,contexts)).1.data.length ≤
        7 * w.data.length + w.bits.bitsInBuffer + ds.countP Decision.isBit := by
  induction ds generalizing w contexts with
  | nil => exact ⟨rfl,by simp⟩
  | cons d ds ih =>
      cases d with
      | symbol label bit =>
          rw [List.countP_cons_of_pos (by rfl)] at hlimit ⊢
          obtain ⟨hsame,hbytes⟩ := ih h contexts (by omega)
          exact ⟨hsame,hbytes.trans (by omega)⟩
      | raw bit =>
          rw [List.countP_cons_of_pos (by rfl)] at hlimit ⊢
          have hstep := writeBit_bytes h bit
          have hnext := BitStuffing.BitAccumulator.writeBit_unfilled h bit
          obtain ⟨hsame,hbytes⟩ := ih (w := w.writeBit bit) hnext contexts (by omega)
          refine ⟨?_,hbytes.trans (by omega)⟩
          rw [List.foldl_cons,List.foldl_cons]
          show ds.foldl writeRaw ((withinRaw w limit).writeBit bit,contexts) = _
          rw [withinRaw_writeBit bit (by omega)]
          exact hsame
      | resetContexts =>
          rw [List.countP_cons_of_neg (by decide)] at hlimit ⊢
          exact ih h resetContexts hlimit

/-- The bytes of a raw segment that keeps to its plan. -/
theorem finish_withinRaw {w : BitStuffing.BitWriter} {limit : ℕ} (hlimit : w.data.length + 1 ≤ limit) :
    (withinRaw w limit).finishChecked = .ok w.finish ∧ w.finish.length ≤ w.data.length + 1 := by
  have hflush : (withinRaw w limit).flush = withinRaw ⟨w.finish,w.bits⟩ limit := by
    unfold LimitedWriter.flush withinRaw BitStuffing.BitWriter.finish
    rw [if_neg Bool.false_ne_true]
    cases w.bits.flush with
    | none => simp
    | some byte =>
        dsimp only [LimitedWriter.tryPush]
        rw [if_neg (by omega)]
        rfl
  refine ⟨?_,?_⟩
  · unfold LimitedWriter.finishChecked
    rw [hflush]
    exact if_neg Bool.false_ne_true
  · unfold BitStuffing.BitWriter.finish
    cases w.bits.flush <;> simp

end

end J2kNative.ClassicEncoder
