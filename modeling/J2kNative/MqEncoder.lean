import J2kNative.StuffedDigits
import J2kNative.MqStates
import Mathlib.Data.Nat.Bitwise
import Mathlib.Data.List.GetD
import Mathlib.Tactic.SplitIfs
import Mathlib.Tactic.Ring

/-!
# MQ arithmetic encoder

The register-level encoder: interval update, one-bit renormalization steps,
byte output with carry propagation and bit stuffing, and the flush that rounds
the code register inside the final interval. The output vector keeps its zero
sentinel at index `0`; `finish` drops it. The registers are natural numbers:
`Ready.registers_lt` bounds them below `2^28`, so the `u32` of the source never
wraps. Allocation failure and the optional byte limit are not modelled.

The invariant reads the registers as one number. The output so far together
with `c` is the lower end `low` of the coding interval and `a` is its length,
both in units of `2^-scale`. Every operation either narrows that interval or
re-reads it at a finer scale.
-/
namespace J2kNative.MqEncoder
open StuffedDigits MqStates

structure ArithmeticEncoder where
  data : List ℕ
  a : ℕ
  c : ℕ
  ct : ℕ
  deriving DecidableEq, Repr

namespace ArithmeticEncoder

/-- `with_capacity`: the sentinel byte is already in the output. -/
def new : ArithmeticEncoder := ⟨[0x00], 0x8000, 0, 12⟩

def lastByte (s : ArithmeticEncoder) : ℕ := s.data.getLastD 0

def byteOut (s : ArithmeticEncoder) : ArithmeticEncoder :=
  let lastByte := s.lastByte
  if lastByte = 0xFF then
    -- 7-bit mode after 0xFF
    let b := (s.c >>> 20) % 256
    { s with data := s.data ++ [b], c := s.c &&& 0x000FFFFF, ct := 7 }
  else if s.c &&& 0x08000000 = 0 then
    let b := (s.c >>> 19) % 256
    { s with data := s.data ++ [b], c := s.c &&& 0x0007FFFF, ct := 8 }
  else
    -- bit 27 is set: propagate the carry into the last byte
    let last := lastByte + 1
    let data := s.data.dropLast ++ [last]
    let c := s.c &&& 0x07FFFFFF
    if last = 0xFF then
      let b := (c >>> 20) % 256
      { s with data := data ++ [b], c := c &&& 0x000FFFFF, ct := 7 }
    else
      let b := (c >>> 19) % 256
      { s with data := data ++ [b], c := c &&& 0x0007FFFF, ct := 8 }

/-- One turn of the renormalization loop. -/
def renormalizeOnce (s : ArithmeticEncoder) : ArithmeticEncoder :=
  let s := { s with a := s.a <<< 1, c := s.c <<< 1, ct := s.ct - 1 }
  if s.ct = 0 then s.byteOut else s

/-- The loop of `renormalize`, which tests its exit condition after the body. -/
def renormalizeLoop : ℕ → ArithmeticEncoder → ArithmeticEncoder
  | 0, s => s
  | fuel + 1, s =>
      let s := s.renormalizeOnce
      if s.a &&& 0x8000 ≠ 0 then s else renormalizeLoop fuel s

/-- A nonzero 16-bit interval reaches bit 15 within fifteen turns
(`renormalize_spec`), so the fuel is never used up. -/
def renormalize (s : ArithmeticEncoder) : ArithmeticEncoder := renormalizeLoop 15 s

/-- `encode` on one binary symbol; returns the registers and the moved label. -/
def encode (s : ArithmeticEncoder) (bit : ℕ) (ctx : Context) : ArithmeticEncoder × Context :=
  let entry := qeEntry ctx.index
  let s := { s with a := s.a - entry.qe }
  if bit = ctx.mps then
    if s.a &&& 0x8000 ≠ 0 then
      ({ s with c := s.c + entry.qe }, ctx)
    else
      let s := if s.a < entry.qe then { s with a := entry.qe }
        else { s with c := s.c + entry.qe }
      (s.renormalize, ctx.setIndex entry.nmps)
  else
    let s := if s.a < entry.qe then { s with c := s.c + entry.qe }
      else { s with a := entry.qe }
    let ctx := if entry.switch then ctx.xorMps 1 else ctx
    (s.renormalize, ctx.setIndex entry.nlps)

def setBits (s : ArithmeticEncoder) : ArithmeticEncoder :=
  let temp := s.c + s.a
  let c := s.c ||| 0xFFFF
  { s with c := if c ≥ temp then c - 0x8000 else c }

def flush (s : ArithmeticEncoder) : ArithmeticEncoder :=
  let s := s.setBits
  let s := byteOut { s with c := s.c <<< s.ct }
  byteOut { s with c := s.c <<< s.ct }

/-- The coded bytes, without the sentinel. -/
def finish (s : ArithmeticEncoder) : List ℕ := s.flush.data.drop 1

end ArithmeticEncoder

/-! ## The output as a digit string -/

/-- Bits by which a byte extends the code value of the bytes before it. -/
def stuffedWidth (b : ℕ) : ℕ := if b = 0xFF then 7 else 8

theorem stuffedWidth_cases (b : ℕ) : stuffedWidth b = 7 ∨ stuffedWidth b = 8 := by
  unfold stuffedWidth
  split_ifs
  · exact .inl rfl
  · exact .inr rfl

/-- Byte `i` of an output; past its end the decoder reads `0xFF`. -/
def digits (data : List ℕ) (i : ℕ) : ℕ := data.getD i 0xFF

theorem digits_append_left {l : List ℕ} (r : List ℕ) {i : ℕ} (h : i < l.length) :
    digits (l ++ r) i = digits l i := by
  simp only [digits, List.getD_append _ _ _ _ h]

@[simp] theorem digits_append_length (l : List ℕ) (b : ℕ) (r : List ℕ) :
    digits (l ++ b :: r) l.length = b := by
  simp [digits]

abbrev offsetOf (data : List ℕ) (k : ℕ) : ℕ := offset stuffedWidth (digits data) k

abbrev valueOf (data : List ℕ) (k : ℕ) : ℕ := value stuffedWidth (digits data) k

/-- Scale of the registers when `front ++ [last]` has been written. -/
theorem offsetOf_append (front : List ℕ) (b b' : ℕ) (r r' : List ℕ) :
    offsetOf (front ++ b :: r) front.length = offsetOf (front ++ b' :: r') front.length :=
  offset_congr _ fun i hi => by
    rw [digits_append_left _ hi, digits_append_left _ hi]

theorem valueOf_append (front : List ℕ) (b b' : ℕ) (r r' : List ℕ) :
    valueOf (front ++ b :: r) front.length + b' =
      valueOf (front ++ b' :: r') front.length + b := by
  have h := value_add_digit stuffedWidth (d := digits (front ++ b :: r))
    (e := digits (front ++ b' :: r')) (k := front.length) fun i hi => by
      rw [digits_append_left _ hi, digits_append_left _ hi]
  rwa [digits_append_length, digits_append_length] at h

theorem offsetOf_append_succ (front : List ℕ) (last : ℕ) (r : List ℕ) :
    offsetOf (front ++ last :: r) (front.length + 1) =
      offsetOf (front ++ last :: r) front.length + stuffedWidth last := by
  simp only [offsetOf, offset_succ, digits_append_length]

theorem valueOf_append_succ (front : List ℕ) (last b : ℕ) (r : List ℕ) :
    valueOf (front ++ last :: b :: r) (front.length + 1) =
      valueOf (front ++ last :: b :: r) front.length * 2 ^ stuffedWidth last + b := by
  have hb : digits (front ++ last :: b :: r) (front.length + 1) = b := by
    have := digits_append_length (front ++ [last]) b r
    simpa using this
  simp only [valueOf, value_succ, digits_append_length, hb]

/-! ## Invariant -/

/-- Headroom for a pending carry, in eighths of the last byte's unit. Nothing
carries into the sentinel or into the largest byte allowed after `0xFF`. -/
def slack (data : List ℕ) : ℕ :=
  if data.length = 1 ∨ digits data (data.length - 2) = 0xFF ∧
    digits data (data.length - 1) = 0x8F then 0 else 1

/-- Bytes as the decoder must find them: a zero sentinel, and after each `0xFF` a
byte that cannot be taken for a marker. -/
structure Stuffed (data : List ℕ) : Prop where
  sentinel : digits data 0 = 0
  byte_lt : ∀ b ∈ data, b < 256
  after : ∀ i, i + 1 < data.length → digits data i = 0xFF → digits data (i + 1) ≤ 0x8F

namespace ArithmeticEncoder

/-- Index of the last byte written. -/
def top (s : ArithmeticEncoder) : ℕ := s.data.length - 1

/-- The registers count in units of `2^-scale`. -/
def scale (s : ArithmeticEncoder) : ℕ := offsetOf s.data s.top + (27 - s.ct)

/-- Lower end of the coding interval: everything written and the code register. -/
def low (s : ArithmeticEncoder) : ℕ := valueOf s.data s.top * 2 ^ (27 - s.ct) + s.c

end ArithmeticEncoder

/-- Invariant of the registers at any point of an operation. -/
structure Room (s : ArithmeticEncoder) : Prop where
  stuffed : Stuffed s.data
  data_ne : s.data ≠ []
  ct_lt : s.ct < 27
  a_pos : 0 < s.a
  room : 8 * (s.c + s.a) ≤ (8 + slack s.data) * 2 ^ (27 - s.ct)

/-- Invariant between operations. -/
structure Ready (s : ArithmeticEncoder) : Prop extends Room s where
  ct_pos : 0 < s.ct
  ct_le : s.ct ≤ 12

theorem slack_le (data : List ℕ) : slack data ≤ 1 := by
  unfold slack
  split_ifs <;> omega

theorem Room.registers_lt {s : ArithmeticEncoder} (h : Room s) : s.c + s.a < 2 ^ 28 := by
  have hr := h.room
  have hs := slack_le s.data
  have hp : 2 ^ (27 - s.ct) ≤ 2 ^ 27 := Nat.pow_le_pow_right two_pos (Nat.sub_le _ _)
  have hm : (8 + slack s.data) * 2 ^ (27 - s.ct) ≤ 9 * 2 ^ 27 :=
    Nat.mul_le_mul (by omega) hp
  omega

/-! ## Byte output -/

/-- The top bit of a register is a comparison. -/
theorem and_two_pow_eq_zero {n c : ℕ} (h : c < 2 ^ (n + 1)) : c &&& 2 ^ n = 0 ↔ c < 2 ^ n := by
  have ht : c.testBit n = decide (2 ^ n ≤ c) := by
    rw [Nat.testBit_eq_decide_div_mod_eq]
    congr 1
    rw [eq_iff_iff]
    have hd : c / 2 ^ n < 2 := Nat.div_lt_of_lt_mul (by rwa [← pow_succ])
    have hle : 1 ≤ c / 2 ^ n ↔ 2 ^ n ≤ c := Nat.one_le_div_iff (Nat.two_pow_pos n)
    rw [← hle]
    generalize c / 2 ^ n = d at hd ⊢
    omega
  rw [Nat.and_two_pow,ht]
  by_cases hc : 2 ^ n ≤ c
  · simp [hc]
  · simp

/-- Writing the top bits of the code register keeps the number they denote. -/
theorem valueOf_push (front : List ℕ) (last c : ℕ) :
    valueOf (front ++ [last, c / 2 ^ (27 - stuffedWidth last)]) (front.length + 1) *
        2 ^ (27 - stuffedWidth last) + c % 2 ^ (27 - stuffedWidth last) =
      valueOf (front ++ [last]) front.length * 2 ^ 27 + c := by
  have hv := valueOf_append front last last [c / 2 ^ (27 - stuffedWidth last)] []
  have hw : 2 ^ 27 = 2 ^ stuffedWidth last * 2 ^ (27 - stuffedWidth last) := by
    rw [← pow_add]
    congr 1
    obtain h | h := stuffedWidth_cases last <;> omega
  rw [valueOf_append_succ, Nat.add_right_cancel hv, hw, add_mul, mul_assoc, add_assoc,
    Nat.div_add_mod']

theorem digits_append_succ (front : List ℕ) (last b : ℕ) (r : List ℕ) :
    digits (front ++ last :: b :: r) (front.length + 1) = b := by
  simpa using digits_append_length (front ++ [last]) b r

theorem slack_append (front : List ℕ) (last b : ℕ) :
    slack (front ++ [last,b]) = if last = 0xFF ∧ b = 0x8F then 0 else 1 := by
  have hl : (front ++ [last,b]).length = front.length + 2 := by simp
  unfold slack
  rw [hl,Nat.add_sub_cancel,show front.length + 2 - 1 = front.length + 1 from rfl,
    digits_append_length,digits_append_succ]
  simp

theorem Stuffed.push {front : List ℕ} {last last' b : ℕ} (h : Stuffed (front ++ [last]))
    (hle : last' = last ∨ slack (front ++ [last]) = 1 ∧ last' = last + 1) (hlast : last' < 256)
    (hb : b < 256) (hff : last' = 0xFF → b ≤ 0x8F) : Stuffed (front ++ [last',b]) := by
  refine ⟨?_,?_,?_⟩
  · have h0 := h.sentinel
    cases front with
    | nil =>
        have hs : last' = last := hle.resolve_right fun ⟨hs,_⟩ => by simp [slack] at hs
        simpa [digits,hs] using h0
    | cons x xs => simpa [digits] using h0
  · intro x hx
    simp only [List.mem_append,List.mem_cons,List.not_mem_nil,or_false] at hx
    rcases hx with hx | rfl | rfl
    · exact h.byte_lt x (List.mem_append_left _ hx)
    · exact hlast
    · exact hb
  · intro i hi hd
    simp only [List.length_append,List.length_cons,List.length_nil] at hi
    rcases Nat.lt_trichotomy (i+1) front.length with hlt | heq | hgt
    · rw [digits_append_left _ (by omega)] at hd
      have ha := h.after i (by simp; omega) (by rw [digits_append_left _ (by omega)]; exact hd)
      rwa [digits_append_left _ hlt] at ha ⊢
    · rw [digits_append_left _ (by omega)] at hd
      have hd' : digits (front ++ [last]) i = 0xFF := by
        rw [digits_append_left _ (by omega)]
        exact hd
      have ha := h.after i (by simp; omega) hd'
      rw [heq,digits_append_length] at ha ⊢
      rcases hle with he | ⟨hs,he⟩
      · omega
      · have hne : last ≠ 0x8F := by
          intro hl
          subst hl
          simp [slack,show front.length - 1 = i by omega,hd'] at hs
        omega
    · obtain rfl : i = front.length := by omega
      rw [digits_append_length] at hd
      rw [digits_append_succ]
      exact hff hd

/-- What one byte output does to `front ++ [last]` and the code register `c`. -/
structure Emitted (s t : ArithmeticEncoder) (front : List ℕ) (last last' b : ℕ) : Prop where
  data : t.data = front ++ [last', b]
  last_le : last ≤ last'
  stuffed : Stuffed t.data
  after_ff : last' = 0xFF → b * 2 ^ 20 + (t.c + t.a) ≤ 0x90 * 2 ^ 20
  a : t.a = s.a
  ct : t.ct = stuffedWidth last'
  c : t.c = s.c % 2 ^ (27 - t.ct)
  value : valueOf t.data (front.length + 1) * 2 ^ (27 - t.ct) + t.c =
    valueOf s.data front.length * 2 ^ 27 + s.c

/-- The byte that follows `last'` in the output once the carry, if any, is resolved. -/
theorem emitted_of_push {s t : ArithmeticEncoder} {front : List ℕ} {last last' c : ℕ}
    (hs : s.data = front ++ [last]) (hst : Stuffed s.data)
    (hcarry : last' = last ∧ c = s.c ∨
      slack s.data = 1 ∧ last' = last + 1 ∧ c + 2 ^ 27 = s.c)
    (hlast : last' < 256) (hb : c + s.a ≤ if last' = 0xFF then 0x90 * 2 ^ 20 else 2 ^ 28)
    (hpos : 0 < s.a) (hc : last' ≠ 0xFF → c < 2 ^ 27)
    (ht : t = ⟨front ++ [last',c / 2 ^ (27 - stuffedWidth last')],s.a,
      c % 2 ^ (27 - stuffedWidth last'),stuffedWidth last'⟩) :
    Emitted s t front last last' (c / 2 ^ (27 - stuffedWidth last')) := by
  subst ht
  have hv := valueOf_push front last' c
  have hl := valueOf_append front last' last [] []
  have hbyte : c / 2 ^ (27 - stuffedWidth last') < 256 := by
    unfold stuffedWidth
    split_ifs at hb ⊢ with hff
    · omega
    · have := hc hff
      omega
  refine ⟨rfl,by omega,?_,?_,rfl,rfl,?_,?_⟩
  · refine (hs ▸ hst).push ?_ hlast hbyte fun hff => ?_
    · rcases hcarry with ⟨he,_⟩ | ⟨hsl,he,_⟩
      · exact .inl he
      · exact .inr ⟨hs ▸ hsl,he⟩
    · rw [if_pos hff] at hb
      simp only [hff,stuffedWidth,if_true]
      omega
  · intro hff
    rw [if_pos hff] at hb
    simp only [hff,stuffedWidth,if_true]
    omega
  · rcases hcarry with ⟨_,he⟩ | ⟨_,_,he⟩
    · rw [he]
    · have hd : (2 : ℕ) ^ 27 = 2 ^ stuffedWidth last' * 2 ^ (27 - stuffedWidth last') := by
        rw [← pow_add]
        congr 1
        obtain h | h := stuffedWidth_cases last' <;> omega
      rw [← he,hd,Nat.add_mul_mod_self_right]
  · rw [hs]
    dsimp only
    rw [hv]
    omega

/-- Byte output writes one byte, moves at most one carry and keeps the interval. -/
theorem byteOut_spec {s : ArithmeticEncoder} (h : Room s) (hct : s.ct = 0) :
    ∃ front last last' b, s.data = front ++ [last] ∧
      Emitted s s.byteOut front last last' b := by
  obtain ⟨front,last,hs⟩ : ∃ front last, s.data = front ++ [last] :=
    ⟨_,_,(List.dropLast_concat_getLast h.data_ne).symm⟩
  have hlast : s.lastByte = last := by simp [ArithmeticEncoder.lastByte,hs]
  have hroom := h.room
  have hpos := h.a_pos
  rw [hct] at hroom
  have hbyte : last < 256 := h.stuffed.byte_lt last (by simp [hs])
  have hsent : front = [] → last = 0 := by
    intro hf
    have h0 := h.stuffed.sentinel
    subst hf
    simpa [hs,digits] using h0
  have hreg := h.registers_lt
  refine ⟨front,last,?_⟩
  unfold ArithmeticEncoder.byteOut
  simp only [hlast]
  have h20 (c : ℕ) (hc : c < 2 ^ 28) : (c >>> 20) % 256 = c / 2 ^ 20 := by
    rw [Nat.shiftRight_eq_div_pow]
    omega
  have h19 (c : ℕ) (hc : c < 2 ^ 27) : (c >>> 19) % 256 = c / 2 ^ 19 := by
    rw [Nat.shiftRight_eq_div_pow]
    omega
  have hm20 (c : ℕ) : c &&& 0xFFFFF = c % 2 ^ 20 := Nat.and_two_pow_sub_one_eq_mod c 20
  have hm19 (c : ℕ) : c &&& 0x7FFFF = c % 2 ^ 19 := Nat.and_two_pow_sub_one_eq_mod c 19
  have hm27 (c : ℕ) : c &&& 0x7FFFFFF = c % 2 ^ 27 := Nat.and_two_pow_sub_one_eq_mod c 27
  have hreg' : s.c < 2 ^ 28 := by omega
  have hbit : s.c &&& 0x08000000 = 0 ↔ s.c < 2 ^ 27 := and_two_pow_eq_zero (n := 27) hreg'
  simp only [hm20,hm19,hm27,hbit]
  by_cases hff : last = 0xFF
  · rw [if_pos hff]
    refine ⟨last,_,hs,emitted_of_push hs h.stuffed (.inl ⟨rfl,rfl⟩) hbyte ?_ hpos ?_ ?_⟩
    · have := slack_le s.data
      rw [if_pos hff]
      omega
    · exact fun hne => absurd hff hne
    · simp only [hff,stuffedWidth,if_true,hs,h20 s.c hreg',List.append_assoc,List.cons_append,
        List.nil_append]
  rw [if_neg hff]
  by_cases hc : s.c < 2 ^ 27
  · rw [if_pos hc]
    refine ⟨last,_,hs,emitted_of_push hs h.stuffed (.inl ⟨rfl,rfl⟩) hbyte ?_ hpos ?_ ?_⟩
    · rw [if_neg hff]
      omega
    · exact fun _ => hc
    · simp only [hff,stuffedWidth,if_false,hs,h19 s.c hc,List.append_assoc,List.cons_append,
        List.nil_append]
  · rw [if_neg hc]
    -- a carry needs headroom, so neither the sentinel nor a full stuffed byte takes one
    have hsl : slack s.data = 1 := by
      have := slack_le s.data
      omega
    have hcar : s.c % 2 ^ 27 + 2 ^ 27 = s.c := by omega
    have hsmall : s.c % 2 ^ 27 + s.a ≤ 2 ^ 24 := by omega
    refine ⟨last+1,_,hs,emitted_of_push hs h.stuffed (.inr ⟨hsl,rfl,hcar⟩) (by omega) ?_ hpos
      ?_ ?_⟩
    · split_ifs <;> omega
    · intro _
      omega
    · simp only [stuffedWidth,hs,h20 (s.c % 2 ^ 27) (by omega),h19 (s.c % 2 ^ 27) (by omega),
        List.dropLast_concat,List.append_assoc,List.cons_append,List.nil_append]
      split_ifs <;> rfl

theorem Emitted.length {s t : ArithmeticEncoder} {front : List ℕ} {last last' b : ℕ}
    (e : Emitted s t front last last' b) : t.data.length = front.length + 2 := by
  rw [e.data,List.length_append]
  rfl

theorem Emitted.room {s t : ArithmeticEncoder} {front : List ℕ} {last last' b : ℕ}
    (e : Emitted s t front last last' b) (hpos : 0 < s.a) (ha : s.a ≤ 2 ^ 16) : Ready t := by
  have hw := stuffedWidth_cases last'
  have hct := e.ct
  have hc : t.c < 2 ^ (27 - t.ct) := by
    rw [e.c]
    exact Nat.mod_lt _ (Nat.two_pow_pos _)
  refine ⟨⟨e.stuffed,by simp [e.data],by omega,by rw [e.a]; exact hpos,?_⟩,by omega,by omega⟩
  have hff := e.after_ff
  rw [e.a] at hff ⊢
  rw [e.data,slack_append]
  split_ifs with hb
  · have hb' := hff hb.1
    have hw' : stuffedWidth last' = 7 := if_pos hb.1
    rw [hct,hw']
    omega
  · rcases hw with hw | hw <;> rw [hct,hw] at hc ⊢ <;> omega

end J2kNative.MqEncoder
