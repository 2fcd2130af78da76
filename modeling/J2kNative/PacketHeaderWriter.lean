import J2kNative.CodestreamWriter
import J2kNative.BitStuffing
import Mathlib.Data.List.Chain

/-!
# Packet-header writer with a byte plan

The writer refuses a byte beyond its plan or beyond the capacity of its buffer, and
writes what the unlimited one writes as long as that fits. Fields come back from
the finished bytes, which have no place that could be taken for a marker.
-/
namespace J2kNative.PacketHeaderWriter
open BitStuffing CodestreamWriter Fallible

structure CheckedBitWriter where
  data : List ℕ
  bits : BitAccumulator
  plannedBytes : ℕ
  capacity : ℕ
  deriving DecidableEq, Repr

namespace CheckedBitWriter

/-- `try_with_capacity`, with the capacity that the allocation gives. -/
def tryWithCapacity (plannedBytes capacity : ℕ) : CheckedBitWriter :=
  ⟨[],⟨0,0,false⟩,plannedBytes,capacity⟩

def tryPush (w : CheckedBitWriter) (byte : ℕ) : Except EncodeError CheckedBitWriter :=
  if w.data.length ≥ w.plannedBytes ∨ w.data.length ≥ w.capacity then
    .error (.internalInvariant "packet header exceeded its checked bit-writer plan")
  else .ok { w with data := w.data ++ [byte] }

def tryWriteBit (w : CheckedBitWriter) (bit : Bool) : Except EncodeError CheckedBitWriter :=
  let (byte,bits) := w.bits.writeBit bit
  let w := { w with bits }
  match byte with
  | some byte => w.tryPush byte
  | none => .ok w

def tryWriteAll (w : CheckedBitWriter) (bits : List Bool) : Except EncodeError CheckedBitWriter :=
  bits.foldlM tryWriteBit w

/-- `try_write_bits`; the shift amounts are taken modulo 32. -/
def tryWriteBits (w : CheckedBitWriter) (value count : ℕ) : Except EncodeError CheckedBitWriter :=
  w.tryWriteAll (fieldBits value count)

def tryFinish (w : CheckedBitWriter) : Except EncodeError (List ℕ) :=
  match w.bits.flush with
  | some byte => (w.tryPush byte).map (·.data)
  | none => .ok w.data

/-- The writer without its limits. -/
def unlimited (w : CheckedBitWriter) : BitStuffing.BitWriter := ⟨w.data,w.bits⟩

/-- The most bytes that it holds. -/
def room (w : CheckedBitWriter) : ℕ := min w.plannedBytes w.capacity

end CheckedBitWriter

/-! ## The limits -/

section
variable {w w' : CheckedBitWriter}
open CheckedBitWriter

theorem tryPush_iff {byte : ℕ} : w.tryPush byte = .ok w' ↔
    w.data.length < w.room ∧ w' = { w with data := w.data ++ [byte] } := by
  unfold tryPush room
  by_cases h : w.data.length ≥ w.plannedBytes ∨ w.data.length ≥ w.capacity
  · rw [if_pos h]
    exact ⟨fun h' => (by cases h'),fun h' => absurd h'.1 (by omega)⟩
  · rw [if_neg h,Except.ok.injEq]
    exact ⟨fun h' => ⟨by omega,h'.symm⟩,fun h' => h'.2.symm⟩

/-- A bit is written as without the limits, where its byte has room. -/
theorem tryWriteBit_iff {bit : Bool} (h : w.data.length ≤ w.room) :
    w.tryWriteBit bit = .ok w' ↔
      (w.unlimited.writeBit bit).data.length ≤ w.room ∧
        w' = ⟨(w.unlimited.writeBit bit).data,(w.unlimited.writeBit bit).bits,
          w.plannedBytes,w.capacity⟩ := by
  unfold tryWriteBit unlimited BitStuffing.BitWriter.writeBit
  dsimp only
  cases (w.bits.writeBit bit).1 with
  | none =>
      simp only [Option.toList_none,List.append_nil,Except.ok.injEq]
      exact ⟨fun h' => ⟨h,h'.symm⟩,fun h' => h'.2.symm⟩
  | some byte =>
      simp only [Option.toList_some,List.length_append,List.length_singleton]
      exact tryPush_iff

theorem tryWriteAll_iff (bits : List Bool) (h : w.data.length ≤ w.room) :
    w.tryWriteAll bits = .ok w' ↔
      (w.unlimited.writeBits bits).data.length ≤ w.room ∧
        w' = ⟨(w.unlimited.writeBits bits).data,(w.unlimited.writeBits bits).bits,
          w.plannedBytes,w.capacity⟩ := by
  induction bits generalizing w with
  | nil => exact ⟨fun h' => ⟨h,by cases h'; rfl⟩,fun h' => by rw [h'.2]; rfl⟩
  | cons b bits ih =>
      have hmono : (w.unlimited.writeBit b).data.length ≤
          (w.unlimited.writeBits (b :: bits)).data.length :=
        (BitStuffing.BitWriter.writeBits_data_prefix (w.unlimited.writeBit b) bits).length_le
      unfold tryWriteAll
      rw [List.foldlM_cons]
      constructor
      · intro hall
        obtain ⟨w₁,hw₁,hall⟩ := bind_eq_ok.mp hall
        obtain ⟨hle,rfl⟩ := (tryWriteBit_iff h).mp hw₁
        exact (ih hle).mp hall
      · rintro ⟨hle,rfl⟩
        have hle₁ : (w.unlimited.writeBit b).data.length ≤ w.room := by omega
        refine bind_eq_ok.mpr ⟨_,(tryWriteBit_iff h).mpr ⟨hle₁,rfl⟩,?_⟩
        exact (ih (w := ⟨(w.unlimited.writeBit b).data,_,w.plannedBytes,w.capacity⟩) hle₁).mpr
          ⟨hle,rfl⟩

theorem tryFinish_iff {out : List ℕ} (h : w.data.length ≤ w.room) :
    w.tryFinish = .ok out ↔ w.unlimited.finish.length ≤ w.room ∧ out = w.unlimited.finish := by
  unfold tryFinish unlimited BitStuffing.BitWriter.finish
  dsimp only
  cases w.bits.flush with
  | none =>
      simp only [Option.toList_none,List.append_nil,Except.ok.injEq]
      exact ⟨fun h' => ⟨h,h'.symm⟩,fun h' => h'.2.symm⟩
  | some byte =>
      simp only [Option.toList_some,List.length_append,List.length_singleton]
      constructor
      · intro hpush
        cases hw : w.tryPush byte with
        | error e =>
            rw [hw] at hpush
            cases hpush
        | ok w₁ =>
            obtain ⟨hlt,rfl⟩ := tryPush_iff.mp hw
            rw [hw] at hpush
            cases hpush
            exact ⟨hlt,rfl⟩
      · rintro ⟨hlt,rfl⟩
        rw [tryPush_iff.mpr ⟨hlt,rfl⟩]
        rfl

/-- The bytes of a header, where they are within the limits. -/
theorem header_iff {plannedBytes capacity : ℕ} {bits : List Bool} {out : List ℕ} :
    ((tryWithCapacity plannedBytes capacity).tryWriteAll bits >>= tryFinish) = .ok out ↔
      (written bits).length ≤ min plannedBytes capacity ∧ out = written bits := by
  have h0 : (tryWithCapacity plannedBytes capacity).data.length ≤
      (tryWithCapacity plannedBytes capacity).room := Nat.zero_le _
  have hfinish : (BitStuffing.BitWriter.empty.writeBits bits).data.length ≤ (written bits).length := by
    unfold written BitStuffing.BitWriter.finish
    rw [List.length_append]
    exact Nat.le_add_right _ _
  constructor
  · intro h
    obtain ⟨w,hw,hout⟩ := bind_eq_ok.mp h
    obtain ⟨hle,rfl⟩ := (tryWriteAll_iff bits h0).mp hw
    exact (tryFinish_iff hle).mp hout
  · rintro ⟨hle,rfl⟩
    have hroom : (tryWithCapacity plannedBytes capacity).room = min plannedBytes capacity := rfl
    have hdata : ((tryWithCapacity plannedBytes capacity).unlimited.writeBits bits).data.length ≤
        (tryWithCapacity plannedBytes capacity).room := by
      rw [hroom]
      exact hfinish.trans hle
    exact bind_eq_ok.mpr ⟨_,(tryWriteAll_iff bits h0).mpr ⟨hdata,rfl⟩,
      (tryFinish_iff (w := ⟨_,_,plannedBytes,capacity⟩) hdata).mpr ⟨hle,rfl⟩⟩

end

/-! ## Places that could be markers -/

/-- No 0xFF stands before a byte of 0x80 or more. -/
def MarkerFree (data : List ℕ) : Prop := data.IsChain fun a b => a = 0xFF → b < 0x80

/-- The flag of the writer tells of 0xFF at the end of its bytes. -/
structure Guarded (w : BitStuffing.BitWriter) : Prop where
  chain : MarkerFree w.data
  last : w.bits.lastByteWasFf ↔ w.data.getLast? = some 0xFF
  bytes : ∀ byte ∈ w.data, byte < 256

section
variable {w : BitStuffing.BitWriter}

theorem guarded_empty : Guarded .empty := ⟨.nil,by decide,nofun⟩

theorem two_pow_limit_le (a : BitAccumulator) : 2 ^ a.limit ≤ 256 :=
  Nat.pow_le_pow_right (n := 2) (by decide) a.limit_bounds.2

theorem limit_of_ff (a : BitAccumulator) (h : a.lastByteWasFf) : a.limit = 7 := if_pos h

/-- A byte of as many bits as the limit allows may follow. -/
theorem Guarded.push (g : Guarded w) {byte : ℕ} (h : byte < 2 ^ w.bits.limit) :
    MarkerFree (w.data ++ [byte]) ∧ ∀ b ∈ w.data ++ [byte], b < 256 := by
  refine ⟨g.chain.append (.singleton byte) fun a ha b hb hff => ?_,fun b hb => ?_⟩
  · cases hb
    rw [hff] at ha
    rwa [limit_of_ff _ (g.last.mpr ha)] at h
  · rcases List.mem_append.mp hb with hb | hb
    · exact g.bytes b hb
    · rw [List.mem_singleton.mp hb]
      exact h.trans_le (two_pow_limit_le _)

theorem Guarded.writeBit (g : Guarded w) (hw : w.bits.Unfilled) (bit : Bool) :
    Guarded (w.writeBit bit) := by
  have hbits := hw.bits
  by_cases hfull : w.bits.bitsInBuffer + 1 = w.bits.limit
  · rw [BitStuffing.BitWriter.writeBit_full hw hfull]
    have hlt : 2 * w.bits.buffer + bit.toNat < 2 ^ w.bits.limit := by
      have := hw.buffer
      have := bit.toNat_lt
      rw [← hfull,Nat.pow_succ]
      omega
    obtain ⟨hchain,hbytes⟩ := g.push hlt
    exact ⟨hchain,by simp,hbytes⟩
  · rw [BitStuffing.BitWriter.writeBit_open hw hfull]
    exact ⟨g.chain,g.last,g.bytes⟩

theorem Guarded.writeBits (g : Guarded w) (hw : w.bits.Unfilled) (bits : List Bool) :
    Guarded (w.writeBits bits) := by
  induction bits generalizing w with
  | nil => exact g
  | cons b bits ih => exact ih (g.writeBit hw b) (BitAccumulator.writeBit_unfilled hw b)

/-- The last byte is padded with at least one zero, or is the zero behind 0xFF. -/
theorem Guarded.finish (g : Guarded w) (hw : w.bits.Unfilled) :
    MarkerFree w.finish ∧ w.finish.getLast? ≠ some 0xFF ∧ ∀ byte ∈ w.finish, byte < 256 := by
  have hbits := hw.bits
  have hlimit := w.bits.limit_bounds
  unfold BitStuffing.BitWriter.finish BitAccumulator.flush
  by_cases hempty : w.bits.bitsInBuffer = 0
  · rw [if_pos hempty]
    by_cases hff : w.bits.lastByteWasFf
    · rw [if_pos hff]
      obtain ⟨hchain,hbytes⟩ := g.push (Nat.two_pow_pos _)
      exact ⟨hchain,by simp,hbytes⟩
    · rw [if_neg hff]
      simp only [Option.toList_none,List.append_nil]
      exact ⟨g.chain,fun h => hff (g.last.mpr h),g.bytes⟩
  · rw [if_neg hempty]
    obtain ⟨k,hk⟩ : ∃ k, w.bits.limit - w.bits.bitsInBuffer = k + 1 :=
      ⟨_,(Nat.succ_pred_eq_of_pos (by omega)).symm⟩
    have hvalue : w.bits.buffer <<< (w.bits.limit - w.bits.bitsInBuffer) =
        2 * (w.bits.buffer * 2 ^ k) := by
      rw [Nat.shiftLeft_eq,hk,Nat.pow_succ]
      ring
    have hlt : w.bits.buffer <<< (w.bits.limit - w.bits.bitsInBuffer) < 2 ^ w.bits.limit := by
      rw [Nat.shiftLeft_eq]
      calc w.bits.buffer * 2 ^ (w.bits.limit - w.bits.bitsInBuffer)
          < 2 ^ w.bits.bitsInBuffer * 2 ^ (w.bits.limit - w.bits.bitsInBuffer) :=
            Nat.mul_lt_mul_of_pos_right hw.buffer (Nat.two_pow_pos _)
        _ = 2 ^ w.bits.limit := by rw [← Nat.pow_add,Nat.add_sub_cancel' hbits.le]
    have h256 := two_pow_limit_le w.bits
    rw [Nat.mod_eq_of_lt (by omega)]
    obtain ⟨hchain,hbytes⟩ := g.push hlt
    refine ⟨hchain,?_,hbytes⟩
    rw [hvalue]
    simp only [Option.toList_some,List.getLast?_append,List.getLast?_singleton,Option.some_or]
    intro h
    have := Option.some.inj h
    omega

theorem markerFree_written (bits : List Bool) :
    MarkerFree (written bits) ∧ (written bits).getLast? ≠ some 0xFF ∧
      ∀ byte ∈ written bits, byte < 256 :=
  (guarded_empty.writeBits BitStuffing.BitWriter.empty_unfilled bits).finish
    (BitStuffing.BitWriter.writeBits_unfilled BitStuffing.BitWriter.empty_unfilled bits)

end

/-! ## Fields -/

section
open CheckedBitWriter

def writeFields (w : CheckedBitWriter) (fields : List HeaderField) :
    Except EncodeError CheckedBitWriter :=
  fields.foldlM (fun w field => w.tryWriteBits field.1 field.2) w

def readFields : BitStuffing.BitReader → List ℕ → Option (List ℕ × BitStuffing.BitReader)
  | r, [] => some ([],r)
  | r, width :: widths => do
      let (value,r) ← r.readBitsWithStuffing width
      let (values,r) ← readFields r widths
      some (value :: values,r)

/-- `align`. -/
def align (r : BitStuffing.BitReader) : BitStuffing.BitReader :=
  if r.curPos % 8 ≠ 0 then { r with curPos := r.curPos + (8 - r.curPos % 8) } else r

theorem writeFields_eq (w : CheckedBitWriter) (fields : List HeaderField) :
    writeFields w fields = w.tryWriteAll (bitsOfFields fields) :=
  foldlM_flatMap (f := tryWriteBit) (fun field : HeaderField => fieldBits field.1 field.2) w fields

/-- The number that is read for a field. -/
theorem numberOf_width {value width : ℕ} (h : width ≤ 32) :
    BitStuffing.BitReader.numberOf 0 (fieldBits value width) = value % 2 ^ width := by
  have hlt : value % 2 ^ width < 2 ^ 32 :=
    (Nat.mod_lt _ (Nat.two_pow_pos _)).trans_le (Nat.pow_le_pow_right (by decide) h)
  rw [← Nat.mod_eq_of_lt (numberOf_lt 0 (by decide) (fieldBits value width)),
    numberOf_fieldBits 0 h,Nat.zero_mul,Nat.zero_add,Nat.mod_eq_of_lt hlt]

/-- Behind what was written first, the fields come back one by one. -/
theorem readFields_written (pre post : List Bool) (fields : List HeaderField)
    (h : ∀ field ∈ fields, field.2 ≤ 32) :
    readFields ⟨written (pre ++ bitsOfFields fields ++ post),placeAfter pre⟩
        (fields.map Prod.snd) =
      some (fields.map fun field => field.1 % 2 ^ field.2,
        ⟨written (pre ++ bitsOfFields fields ++ post),placeAfter (pre ++ bitsOfFields fields)⟩) := by
  induction fields generalizing pre with
  | nil => simp [readFields,bitsOfFields]
  | cons field fields ih =>
      have hplace : pre ++ bitsOfFields (field :: fields) =
          (pre ++ fieldBits field.1 field.2) ++ bitsOfFields fields := by
        simp [bitsOfFields]
      have hread := (presents_written pre (fieldBits field.1 field.2)
        (bitsOfFields fields ++ post)).readLoop 0
      rw [length_fieldBits,numberOf_width (h field List.mem_cons_self)] at hread
      have htail := ih (pre ++ fieldBits field.1 field.2)
        fun field' hfield' => h field' (List.mem_cons_of_mem _ hfield')
      rw [List.append_assoc (pre ++ fieldBits field.1 field.2)] at htail
      rw [hplace,List.append_assoc (pre ++ fieldBits field.1 field.2),List.map_cons,List.map_cons]
      unfold readFields BitStuffing.BitReader.readBitsWithStuffing
      rw [hread]
      dsimp only [Option.bind_eq_bind,Option.bind_some]
      rw [htail]
      rfl

/-- Aligning at the place behind all bits leads to the end of the bytes. -/
theorem align_placeAfter (bits : List Bool) :
    align ⟨written bits,placeAfter bits⟩ = ⟨written bits,8 * (written bits).length⟩ := by
  have hw := BitStuffing.BitWriter.writeBits_unfilled BitStuffing.BitWriter.empty_unfilled bits
  unfold written placeAfter
  generalize BitStuffing.BitWriter.empty.writeBits bits = w at hw ⊢
  have hbits := hw.bits
  have hlimit := w.bits.limit_bounds
  obtain ⟨-,hmod⟩ := BitStuffing.BitWriter.position_div hw
  have hlength : w.finish.length = w.data.length + w.bits.flush.toList.length :=
    List.length_append
  unfold align
  unfold BitAccumulator.flush at hlength
  by_cases hempty : w.bits.bitsInBuffer = 0
  · by_cases hff : w.bits.lastByteWasFf
    · rw [if_pos hempty,if_pos hff,Option.toList_some,List.length_singleton] at hlength
      have h7 := limit_of_ff _ hff
      dsimp only
      rw [if_pos (by omega),hlength]
      unfold BitStuffing.BitWriter.position at hmod ⊢
      congr 1
      omega
    · rw [if_pos hempty,if_neg hff,Option.toList_none,List.length_nil] at hlength
      have h8 : w.bits.limit = 8 := if_neg hff
      dsimp only
      rw [if_neg (by omega),hlength]
      unfold BitStuffing.BitWriter.position
      congr 1
      omega
  · rw [if_neg hempty,Option.toList_some,List.length_singleton] at hlength
    dsimp only
    rw [if_pos (by omega),hlength]
    unfold BitStuffing.BitWriter.position at hmod ⊢
    congr 1
    omega

/-- Fields are written exactly where the plan and the budget have room for their bytes. From the
bytes the values of the fields come back, behind them the reader aligns to the end of the bytes,
and the bytes have no place that could be taken for a marker. -/
theorem fields_round_trip {fields : List HeaderField}
    (hfields : ∀ field ∈ fields, field.2 ≤ 32 ∧ field.1 < 2 ^ field.2) : ∃ bytes : List ℕ,
    (∀ plannedBytes capacity out,
      (writeFields (.tryWithCapacity plannedBytes capacity) fields >>= tryFinish) = .ok out ↔
        bytes.length ≤ min plannedBytes capacity ∧ out = bytes) ∧
    (∃ r, readFields ⟨bytes,0⟩ (fields.map Prod.snd) = some (fields.map Prod.fst,r) ∧
      align r = ⟨bytes,8 * bytes.length⟩) ∧
    MarkerFree bytes ∧ bytes.getLast? ≠ some 0xFF ∧ ∀ byte ∈ bytes, byte < 256 := by
  obtain ⟨hchain,hlast,hbytes⟩ := markerFree_written (bitsOfFields fields)
  refine ⟨written (bitsOfFields fields),fun plannedBytes capacity out => ?_,
    ⟨_,?_,align_placeAfter (bitsOfFields fields)⟩,hchain,hlast,hbytes⟩
  · rw [writeFields_eq]
    exact header_iff
  · have hread := readFields_written [] [] fields fun field hfield => (hfields field hfield).1
    have hvalues : (fields.map fun field => field.1 % 2 ^ field.2) = fields.map Prod.fst :=
      List.map_congr_left fun field hfield => Nat.mod_eq_of_lt (hfields field hfield).2
    rw [List.append_nil,List.nil_append,hvalues] at hread
    exact hread

/-- The last byte of the fields is full and is 0xFF. -/
theorem fields_round_trip_stuffed : ∃ bytes, bytes = [0xFF,0x47,0xFF,0x00] ∧ MarkerFree bytes := by
  obtain ⟨bytes,hwritten,-,hchain,-⟩ :=
    @fields_round_trip [(0xFF,8),(0x8,4),(0x7FF,11)] (by decide)
  exact ⟨bytes,((hwritten 4 4 [0xFF,0x47,0xFF,0x00]).mp (by decide)).2.symm,hchain⟩

end

end J2kNative.PacketHeaderWriter
