import J2kNative.MqDecoder
import Mathlib.Tactic.NormNum

/-!
# MQ coder round trip

`Sync s d data` holds between an encoder state and a decoder that reads the
complete output `data` of a run through that state: the interval lengths agree
and the decoder's register is the distance from the end of the last cell it has
read to the upper end of the interval. The decoder runs ahead of the encoder by
the bits in its register; `Future` supplies the two inequalities that make its
decision the encoder's. One symbol preserves the relation, whatever the label,
so contexts and the choice of labels may depend on everything decoded before.
-/
namespace J2kNative.MqRoundTrip
open StuffedDigits MqStates MqEncoder MqInterval MqDecoder

theorem digits_drop_one (data : List ℕ) (i : ℕ) :
    digits (data.drop 1) i = digits data (i + 1) := by
  simp [digits,List.getD_eq_getElem?_getD]

/-- How the read position relates to the last digit `k` that the register holds:
either it is the current byte, or the data are exhausted and ones are shifted in. -/
inductive Position (s : ArithmeticEncoder) (d : ArithmeticDecoder) (data : List ℕ) (k : ℕ) : Prop
  | reading (current : k = d.basePointer + 1)
      (offset : offsetOf data k = s.scale + d.shiftCount)
  | exhausted (last : k + 1 = data.length) (beyond : data.length ≤ d.basePointer + 2)
      (current : digits data (d.basePointer + 1) = 0xFF) (offset : offsetOf data k ≤ s.scale + d.shiftCount)

structure SyncAt (s : ArithmeticEncoder) (d : ArithmeticDecoder) (data : List ℕ) (k : ℕ) :
    Prop where
  data_eq : d.data = data.drop 1
  a_eq : d.a = s.a
  k_lt : k < data.length
  count_le : d.shiftCount ≤ 8
  position : Position s d data k
  register : d.c + (valueOf data k + 1) * 2 ^ (s.scale + 16 - offsetOf data k) =
    (s.low + s.a) * 2 ^ 16

def Sync (s : ArithmeticEncoder) (d : ArithmeticDecoder) (data : List ℕ) : Prop :=
  ∃ k, SyncAt s d data k

theorem SyncAt.offset_le {s : ArithmeticEncoder} {d : ArithmeticDecoder} {data : List ℕ} {k : ℕ}
    (y : SyncAt s d data k) : offsetOf data k ≤ s.scale + 16 := by
  have hc := y.count_le
  cases y.position with
  | reading _ ho => omega
  | exhausted _ _ _ ho => omega

/-- A digit at or beyond the scale of the registers has not been written yet. -/
theorem top_lt_of_scale_le {s : ArithmeticEncoder} {data : List ℕ} {k : ℕ} (h : Room s)
    (f : Future s data) (hk : s.scale ≤ offsetOf data k) : s.top < k := by
  by_contra hle
  have hm : offsetOf data k ≤ offsetOf data s.top :=
    offset_mono stuffedWidth (digits data) (Nat.not_lt.mp hle)
  have ho := f.offset_eq
  have hct := h.ct_lt
  unfold ArithmeticEncoder.scale at hk
  omega

theorem SyncAt.starts {s : ArithmeticEncoder} {d : ArithmeticDecoder} {data : List ℕ} {k : ℕ}
    (y : SyncAt s d data k) (h : Room s) (f : Future s data) :
    s.low * 2 ^ 16 < (valueOf data k + 1) * 2 ^ (s.scale + 16 - offsetOf data k) := by
  refine (starts_at stuffedWidth y.offset_le).mp (f.starts k y.k_lt ?_)
  cases y.position with
  | reading _ ho => exact .inl (top_lt_of_scale_le h f (by omega))
  | exhausted hl _ _ _ => exact .inr hl

/-- The cell that the register holds ends inside every interval of this scale that
the output still completes. -/
theorem SyncAt.ends {s t : ArithmeticEncoder} {d : ArithmeticDecoder} {data : List ℕ} {k : ℕ}
    (y : SyncAt s d data k) (f : Future t data) (ht : t.scale = s.scale) :
    (valueOf data k + 1) * 2 ^ (s.scale + 16 - offsetOf data k) ≤ (t.low + t.a) * 2 ^ 16 := by
  have hk := y.k_lt
  rw [← ht]
  refine (ends_at stuffedWidth (ht ▸ y.offset_le)).mp ?_
  cases y.position with
  | reading _ ho => exact f.ends.of_prefix _ (by omega) (by change _ ≤ offsetOf data k; omega)
  | exhausted hl _ _ _ =>
      have he := f.ends
      rwa [← hl,Nat.add_sub_cancel] at he

theorem SyncAt.c_lt {s : ArithmeticEncoder} {d : ArithmeticDecoder} {data : List ℕ} {k : ℕ}
    (y : SyncAt s d data k) (h : Room s) (f : Future s data) : d.c < s.a * 2 ^ 16 := by
  have hs := y.starts h f
  have hr := y.register
  rw [add_mul s.low] at hr
  omega

/-! ## Reading a byte -/

/-- Wrapping arithmetic on a register whose true value stays in range. -/
private theorem wrap_absorb {c v x u low high : ℕ} (hr : c + (v + 2 ^ 16) = high)
    (hends : v + x + u ≤ high) (hstarts : low < v + x + u) (hu : u ≤ 2 ^ 16)
    (hrange : high ≤ low + 2 ^ 32) (hc : c < 2 ^ 32) :
    wrappingSub (wrappingAdd c (2 ^ 16 - u)) x + (v + x + u) = high := by
  obtain ⟨w,hw⟩ := Nat.exists_eq_add_of_le hu
  obtain ⟨t,ht⟩ : ∃ t, c + w = x + t := Nat.exists_eq_add_of_le (by omega)
  have hlt : t < 2 ^ 32 := by omega
  have hsub : 2 ^ 16 - u = w := by omega
  have hval : wrappingSub (wrappingAdd c w) x = t := by
    unfold wrappingSub wrappingAdd
    rw [ht]
    omega
  rw [hsub,hval]
  omega

/-- The digit after `k` absorbed into the register. -/
theorem SyncAt.absorb {s : ArithmeticEncoder} {d d' : ArithmeticDecoder} {data : List ℕ} {k : ℕ}
    (y : SyncAt s d data k) (h : Room s) (ha : s.a ≤ 0x10000) (f : Future s data)
    (hk : k + 1 < data.length) (ho : offsetOf data k = s.scale)
    (hd : d' = ⟨d.data,wrappingSub (wrappingAdd d.c
        (2 ^ 16 - 2 ^ (16 - stuffedWidth (digits data k))))
        (digits data (k + 1) * 2 ^ (16 - stuffedWidth (digits data k))),
      d.a,k,stuffedWidth (digits data k)⟩) : SyncAt s d' data (k + 1) := by
  have hw := stuffedWidth_cases (digits data k)
  have ho' : offsetOf data (k + 1) = s.scale + stuffedWidth (digits data k) := by
    rw [← ho]
    exact offset_succ _ _ _
  have hv : valueOf data (k + 1) =
      valueOf data k * 2 ^ stuffedWidth (digits data k) + digits data (k + 1) := value_succ _ _ _
  have hends := (ends_at stuffedWidth (n := 16) (by change offsetOf data (k + 1) ≤ _; omega)).mp
    (f.ends.of_prefix stuffedWidth (j := k + 1) (by omega)
      (by change _ ≤ offsetOf data (k + 1); omega))
  have hstarts := (starts_at stuffedWidth (n := 16)
    (by change offsetOf data (k + 1) ≤ _; omega)).mp
    (f.starts (k + 1) hk (.inl (top_lt_of_scale_le h f (by omega))))
  change (valueOf data (k + 1) + 1) * 2 ^ (s.scale + 16 - offsetOf data (k + 1)) ≤ _ at hends
  change _ < (valueOf data (k + 1) + 1) * 2 ^ (s.scale + 16 - offsetOf data (k + 1)) at hstarts
  have hr := y.register
  have hc := y.c_lt h f
  rw [ho,Nat.add_sub_cancel_left] at hr
  rw [ho',hv,Nat.add_sub_add_left] at hends hstarts
  have hsplit : valueOf data k * 2 ^ stuffedWidth (digits data k) *
      2 ^ (16 - stuffedWidth (digits data k)) = valueOf data k * 2 ^ 16 := by
    rw [mul_assoc,← pow_add]
    congr 2
    omega
  have hu : 2 ^ (16 - stuffedWidth (digits data k)) ≤ 2 ^ 16 :=
    Nat.pow_le_pow_right two_pos (Nat.sub_le _ _)
  subst hd
  refine ⟨y.data_eq,y.a_eq,hk,by dsimp only; omega,.reading rfl ho',?_⟩
  rw [ho',hv,Nat.add_sub_add_left]
  rw [add_mul,add_mul (valueOf data k * _),hsplit,one_mul] at hends hstarts ⊢
  rw [add_mul,one_mul] at hr
  have ha' : s.a * 2 ^ 16 ≤ 2 ^ 32 := Nat.mul_le_mul_right (2 ^ 16) ha
  have hrange : (s.low + s.a) * 2 ^ 16 ≤ s.low * 2 ^ 16 + 2 ^ 32 := by
    rw [add_mul]
    exact Nat.add_le_add_left ha' _
  exact wrap_absorb hr hends hstarts hu hrange (hc.trans_le ha')

theorem SyncAt.currentByte_eq {s : ArithmeticEncoder} {d : ArithmeticDecoder} {data : List ℕ}
    {k : ℕ} (y : SyncAt s d data k) : d.currentByte = digits data (d.basePointer + 1) := by
  unfold ArithmeticDecoder.currentByte
  rw [y.data_eq]
  exact digits_drop_one data d.basePointer

theorem SyncAt.nextByte_eq {s : ArithmeticEncoder} {d : ArithmeticDecoder} {data : List ℕ}
    {k : ℕ} (y : SyncAt s d data k) : d.nextByte = digits data (d.basePointer + 2) := by
  unfold ArithmeticDecoder.nextByte
  rw [y.data_eq]
  exact digits_drop_one data (d.basePointer + 1)

theorem digits_of_length_le {data : List ℕ} {i : ℕ} (h : data.length ≤ i) :
    digits data i = 0xFF :=
  List.getD_eq_default _ _ h

/-- The data are used up once the last byte has been shifted through. -/
theorem SyncAt.exhaust {s : ArithmeticEncoder} {d d' : ArithmeticDecoder} {data : List ℕ} {k : ℕ}
    (y : SyncAt s d data k) (hl : k + 1 = data.length) (ho : offsetOf data k ≤ s.scale)
    (hdata : d'.data = d.data) (hc : d'.c = d.c) (ha : d'.a = d.a) (hcount : d'.shiftCount = 8)
    (hbeyond : data.length ≤ d'.basePointer + 2) (hcur : digits data (d'.basePointer + 1) = 0xFF) :
    SyncAt s d' data k := by
  refine ⟨hdata.trans y.data_eq,ha.trans y.a_eq,y.k_lt,hcount.le,?_,?_⟩
  · exact .exhausted hl hbeyond hcur (by omega)
  · rw [hc]
    exact y.register

private theorem wrap_ones {c : ℕ} (h : c < 2 ^ 32) :
    wrappingSub (wrappingAdd c 0xFF00) (0xFF <<< 8) = c := by
  have hs : 0xFF <<< 8 = 0xFF00 := rfl
  unfold wrappingSub wrappingAdd
  rw [hs]
  omega

/-- A byte read with an empty bit buffer. -/
theorem SyncAt.readByte {s : ArithmeticEncoder} {d : ArithmeticDecoder} {data : List ℕ} {k : ℕ}
    (y : SyncAt s d data k) (h : Room s) (ha : s.a ≤ 0x10000) (f : Future s data)
    (h0 : d.shiftCount = 0) : Sync s d.readByte data := by
  have hcur := y.currentByte_eq
  have hnext := y.nextByte_eq
  have hk := y.k_lt
  have hc32 : d.c < 2 ^ 32 := by
    have := y.c_lt h f
    omega
  unfold ArithmeticDecoder.readByte
  dsimp only
  cases y.position with
  | exhausted hl hbeyond hff ho =>
      have hn : d.nextByte = 0xFF := by rw [hnext,digits_of_length_le hbeyond]
      rw [if_pos (hcur.trans hff),if_pos (by omega)]
      exact ⟨k,y.exhaust hl (by omega) rfl rfl rfl rfl hbeyond hff⟩
  | reading hbp ho =>
      have ho' : offsetOf data k = s.scale := by omega
      rw [← hbp] at hcur
      have hmove : ({ d with basePointer := d.basePointer + 1 } : ArithmeticDecoder).currentByte =
          digits data (k + 1) := by
        rw [hbp]
        exact hnext
      by_cases hl : k + 1 = data.length
      · have hlast : digits data (k + 1) = 0xFF := digits_of_length_le (by omega)
        split_ifs with hff hmark
        · refine ⟨k,y.exhaust hl ho'.le rfl rfl rfl rfl (by dsimp only; omega) ?_⟩
          rw [← hbp,← hcur]
          exact hff
        · rw [hnext,show d.basePointer + 2 = k + 1 by omega,hlast] at hmark
          omega
        · -- the byte past the end reads as ones, whose complement adds nothing
          refine ⟨k,y.exhaust hl ho'.le rfl ?_ rfl rfl (by dsimp only; omega) ?_⟩
          · rw [hmove,hlast]
            exact wrap_ones hc32
          · rw [← hbp]
            exact hlast
      · have hk' : k + 1 < data.length := by omega
        split_ifs with hff hmark
        · have hs := f.stuffed.after k hk' (by rw [← hcur]; exact hff)
          rw [hnext,show d.basePointer + 2 = k + 1 by omega] at hmark
          omega
        · rw [hcur] at hff
          have hw : stuffedWidth (digits data k) = 7 := if_pos hff
          refine ⟨k + 1,y.absorb h ha f hk' ho' ?_⟩
          have hones : 2 ^ 16 - 2 ^ (16 - 7) = 0xFE00 := by norm_num
          have hunit : 2 ^ (16 - 7) = 2 ^ 9 := by norm_num
          rw [hmove,hw,Nat.shiftLeft_eq,hbp,hones,hunit]
        · rw [hcur] at hff
          have hw : stuffedWidth (digits data k) = 8 := if_neg hff
          refine ⟨k + 1,y.absorb h ha f hk' ho' ?_⟩
          have hones : 2 ^ 16 - 2 ^ (16 - 8) = 0xFF00 := by norm_num
          have hunit : 2 ^ (16 - 8) = 2 ^ 8 := by norm_num
          rw [hmove,hw,Nat.shiftLeft_eq,hbp,hones,hunit]

theorem Sync.refill {s : ArithmeticEncoder} {d : ArithmeticDecoder} {data : List ℕ}
    (y : Sync s d data) (h : Room s) (ha : s.a ≤ 0x10000) (f : Future s data) :
    Sync s (refill d) data := by
  obtain ⟨k,y⟩ := y
  unfold MqDecoder.refill
  split_ifs with h0
  · exact y.readByte h ha f h0
  · exact ⟨k,y⟩

/-! ## Shifts and decisions -/

/-- Buffered bits shifted through on both sides. -/
theorem SyncAt.shift {s t : ArithmeticEncoder} {d : ArithmeticDecoder} {data : List ℕ} {k n : ℕ}
    (y : SyncAt s d data k) (hn : n ≤ d.shiftCount) (ha : t.a = s.a * 2 ^ n)
    (ha32 : s.a * 2 ^ n < 2 ^ 16) (hc : d.c < s.a * 2 ^ 16) (hlow : t.low = s.low * 2 ^ n)
    (hscale : t.scale = s.scale + n) : SyncAt t (MqDecoder.shiftBy n d) data k := by
  have ho := y.offset_le
  have haeq := y.a_eq
  have hcount := y.count_le
  have hc32 : d.c * 2 ^ n < 2 ^ 32 := by
    have h1 := Nat.mul_lt_mul_of_pos_right hc (Nat.two_pow_pos n)
    rw [mul_right_comm] at h1
    omega
  refine ⟨y.data_eq,?_,y.k_lt,(Nat.sub_le _ _).trans hcount,?_,?_⟩
  · dsimp only [MqDecoder.shiftBy]
    rw [Nat.shiftLeft_eq,haeq,ha]
    exact Nat.mod_eq_of_lt (ha32.trans (by norm_num))
  · cases y.position with
    | reading hbp hof =>
        refine .reading hbp ?_
        dsimp only [MqDecoder.shiftBy]
        omega
    | exhausted hl hb hff hof =>
        refine .exhausted hl hb hff ?_
        dsimp only [MqDecoder.shiftBy]
        omega
  · have hr := y.register
    have hexp : s.scale + n + 16 - offsetOf data k = s.scale + 16 - offsetOf data k + n := by
      omega
    dsimp only [MqDecoder.shiftBy]
    rw [Nat.shiftLeft_eq,Nat.mod_eq_of_lt hc32,hscale,hexp,pow_add,hlow,ha,← mul_assoc,
      ← add_mul,← add_mul,hr,mul_right_comm]

/-- One turn on both sides. -/
theorem Sync.renormalizeOnce {s : ArithmeticEncoder} {d : ArithmeticDecoder} {data : List ℕ}
    (y : Sync s d data) (h : Ready s) (ha : s.a < 0x8000) (f : Future s data) :
    Sync s.renormalizeOnce (renormalizeOnce d) data := by
  obtain ⟨k,y⟩ := y.refill h.toRoom (by omega) f
  obtain ⟨_,hd,_⟩ := renormalizeOnce_spec h ha
  obtain ⟨hlow,hscale⟩ := renormalizeOnce_interval h
  exact ⟨k,y.shift (refill_pos d) (by omega) (by omega) (y.c_lt h.toRoom f) hlow hscale⟩

theorem Future.of_iterate_once {n : ℕ} {s : ArithmeticEncoder} {data : List ℕ} (h : Ready s)
    (hn : n ≤ shortfall s.a) (f : Future (ArithmeticEncoder.renormalizeOnce^[n] s) data) :
    Future s data := by
  induction n generalizing s with
  | zero => exact f
  | succ n ih =>
      have hlt := lt_of_shortfall_pos (by omega : 0 < shortfall s.a)
      obtain ⟨hr,hd,hfut⟩ := renormalizeOnce_spec h hlt
      have hsub := (mul_two_pow_lt h.a_pos hlt (n := 1) (by omega)).2
      refine hfut data (ih hr ?_ f)
      rw [hd,mul_comm,← pow_one 2]
      omega

/-- The turns that renormalize the encoder keep a decoder synchronized. -/
theorem Sync.iterate_once {n : ℕ} {s : ArithmeticEncoder} {d : ArithmeticDecoder} {data : List ℕ}
    (y : Sync s d data) (h : Ready s) (hn : n ≤ shortfall s.a)
    (f : Future (ArithmeticEncoder.renormalizeOnce^[n] s) data) :
    Sync (ArithmeticEncoder.renormalizeOnce^[n] s) (MqDecoder.renormalizeOnce^[n] d) data := by
  induction n generalizing s d with
  | zero => exact y
  | succ n ih =>
      have hlt := lt_of_shortfall_pos (by omega : 0 < shortfall s.a)
      obtain ⟨hr,hd,_⟩ := renormalizeOnce_spec h hlt
      have hsub := (mul_two_pow_lt h.a_pos hlt (n := 1) (by omega)).2
      refine ih (y.renormalizeOnce h hlt (Future.of_iterate_once h hn f)) hr ?_ f
      rw [hd,mul_comm,← pow_one 2]
      omega

theorem Sync.a_eq {s : ArithmeticEncoder} {d : ArithmeticDecoder} {data : List ℕ}
    (y : Sync s d data) : d.a = s.a := by
  obtain ⟨k,y⟩ := y
  exact y.a_eq

theorem Sync.normalize {s : ArithmeticEncoder} {d : ArithmeticDecoder} {data : List ℕ}
    (y : Sync s d data) (h : Ready s) (ha : s.a < 0x10000)
    (f : Future (MqInterval.normalize s) data) :
    Sync (MqInterval.normalize s) (MqDecoder.normalize d) data := by
  have haeq := y.a_eq
  rw [encoder_normalize_eq h] at f ⊢
  rw [normalize_eq (by rw [haeq]; exact h.a_pos) (by omega),haeq]
  exact y.iterate_once h le_rfl f

theorem Position.of_scale {s t : ArithmeticEncoder} {d d' : ArithmeticDecoder} {data : List ℕ}
    {k : ℕ} (p : Position s d data k) (ht : t.scale = s.scale)
    (hb : d'.basePointer = d.basePointer) (hc : d'.shiftCount = d.shiftCount) :
    Position t d' data k := by
  cases p with
  | reading hbp ho => exact .reading (by rw [hb]; exact hbp) (by rw [ht,hc]; exact ho)
  | exhausted hl hbeyond hff ho =>
      exact .exhausted hl (by rw [hb]; exact hbeyond) (by rw [hb]; exact hff)
        (by rw [ht,hc]; exact ho)

/-- The decision of the decoder is the symbol of the encoder, and the registers of
both move to the same sub-interval. -/
theorem Sync.select {s : ArithmeticEncoder} {d : ArithmeticDecoder} {data : List ℕ} {bit : ℕ}
    {ctx : Context} (y : Sync s d data) (h : Coding s) (hc : ctx.Valid)
    (f : Future (MqInterval.select s bit ctx) data) :
    takesUpper d.a bit ctx = decide (d.c / 2 ^ 16 < d.a - (qeEntry ctx.index).qe) ∧
      Sync (MqInterval.select s bit ctx) (MqDecoder.select d bit ctx) data := by
  obtain ⟨k,y⟩ := y
  have hroom := (select_narrow bit h hc).room h.toRoom
  have hq := (row_bounds hc).qe_le
  have ha := h.a_ge
  have haeq := y.a_eq
  have hr := y.register
  unfold MqInterval.select at f hroom ⊢
  unfold MqDecoder.select
  rw [haeq]
  generalize (qeEntry ctx.index).qe = q at *
  cases hup : takesUpper s.a bit ctx with
  | true =>
      rw [hup] at f hroom
      simp only [if_true] at f hroom ⊢
      -- the register is unchanged: the upper end of the interval stays
      have y' : SyncAt { s with a := s.a - q, c := s.c + q } { d with a := s.a - q } data k := by
        refine ⟨y.data_eq,rfl,y.k_lt,y.count_le,y.position.of_scale rfl rfl rfl,?_⟩
        refine hr.trans (congrArg (· * 2 ^ 16) ?_)
        change s.low + s.a = valueOf s.data s.top * 2 ^ (27 - s.ct) + (s.c + q) + (s.a - q)
        unfold ArithmeticEncoder.low
        omega
      have hlt : d.c < (s.a - q) * 2 ^ 16 := y'.c_lt hroom f
      refine ⟨(decide_eq_true ?_).symm,k,y'⟩
      omega
  | false =>
      rw [hup] at f hroom
      simp only [Bool.false_eq_true,if_false] at f hroom ⊢
      have he := y.ends f rfl
      have hlow : ({ s with a := q } : ArithmeticEncoder).low = s.low := rfl
      rw [hlow] at he
      have hge : (s.a - q) * 2 ^ 16 ≤ d.c := by
        dsimp only at he
        rw [add_mul] at he hr
        rw [Nat.sub_mul]
        omega
      refine ⟨(decide_eq_false ?_).symm,k,y.data_eq,rfl,y.k_lt,y.count_le,
        y.position.of_scale rfl rfl rfl,?_⟩
      · omega
      · change d.c - (s.a - q) * 2 ^ 16 + (valueOf data k + 1) *
          2 ^ (s.scale + 16 - offsetOf data k) = (s.low + q) * 2 ^ 16
        rw [Nat.sub_mul] at hge ⊢
        rw [add_mul s.low] at hr ⊢
        omega

/-- One symbol. Whatever label is asked for, the decoder returns the symbol that the
encoder coded, moves the label as the encoder did and stays synchronized. -/
theorem Sync.decode {s : ArithmeticEncoder} {d : ArithmeticDecoder} {data : List ℕ} {bit : ℕ}
    {ctx : Context} (y : Sync s d data) (h : Coding s) (hc : ctx.Valid) (hbit : bit < 2)
    (f : Future (s.encode bit ctx).1 data) :
    (d.decode ctx).1 = bit ∧ (d.decode ctx).2.2 = (s.encode bit ctx).2 ∧
      Sync (s.encode bit ctx).1 (d.decode ctx).2.1 data := by
  have haeq := y.a_eq
  obtain ⟨hdec,hsync⟩ := y.select h hc (Future.select_of_encode h hc f)
  rw [decode_eq (by rw [haeq]; exact h.a_lt) hc hbit hdec]
  rw [encode_eq bit h hc] at f ⊢
  refine ⟨rfl,by rw [haeq],?_⟩
  exact hsync.normalize ((select_narrow bit h hc).ready h.toReady) (select_a_lt bit h hc) f

/-! ## Initialization -/

/-- The encoder seven shifts before its initial state. The decoder's `initialize`
starts from the first byte at that point and catches up. -/
def beforeNew : ArithmeticEncoder := ⟨[0x00],2 ^ 8,0,19⟩

theorem beforeNew_room : Room beforeNew :=
  ⟨coding_new.stuffed,by decide,by decide,by decide,by decide⟩

theorem xor_byte_ones {b : ℕ} (h : b < 256) : b ^^^ 0xFF = 255 - b := by
  have hall : ∀ b < 256, b ^^^ 0xFF = 255 - b := by decide +kernel
  exact hall b h

theorem digits_lt {data : List ℕ} (h : ∀ b ∈ data, b < 256) (i : ℕ) : digits data i < 256 := by
  unfold digits
  rw [List.getD_eq_getElem?_getD]
  cases hi : data[i]? with
  | none => exact (by decide : 0xFF < 256)
  | some b => exact h b (List.mem_of_getElem? hi)

theorem sync_new {data : List ℕ} (f : Future ArithmeticEncoder.new data)
    (hlen : 1 < data.length) :
    Sync ArithmeticEncoder.new (ArithmeticDecoder.new (data.drop 1)) data := by
  have hf : Future beforeNew data := Future.of_shiftBy (n := 7) beforeNew_room (by decide) f
  have hb := digits_lt f.stuffed.byte_lt 1
  have hs := f.stuffed.sentinel
  let d : ArithmeticDecoder := ⟨data.drop 1,(digits data 1 ^^^ 0xFF) <<< 16,2 ^ 8,0,0⟩
  have ho : offsetOf data 1 = 8 := by
    simp only [offsetOf,offset_succ,offset_zero,hs]
    rfl
  have hv : valueOf data 1 = digits data 1 := by
    change value stuffedWidth (digits data) 0 * _ + digits data 1 = _
    rw [value_zero,hs,Nat.zero_mul,Nat.zero_add]
  have y : SyncAt beforeNew d data 1 := by
    refine ⟨rfl,rfl,hlen,Nat.zero_le _,.reading rfl ho,?_⟩
    rw [ho,hv]
    change (digits data 1 ^^^ 0xFF) <<< 16 + (digits data 1 + 1) * 2 ^ 16 = (0 + 2 ^ 8) * 2 ^ 16
    rw [xor_byte_ones hb,Nat.shiftLeft_eq]
    omega
  obtain ⟨k,yr⟩ := y.readByte beforeNew_room (by decide) hf rfl
  have hcount := readByte_shiftCount d
  have yn := yr.shift (n := 7) (t := ArithmeticEncoder.new) (by omega) rfl (by decide)
    (yr.c_lt beforeNew_room hf) rfl rfl
  refine ⟨k,?_⟩
  have hbyte : ArithmeticDecoder.currentByte ⟨data.drop 1,0,0,0,0⟩ = digits data 1 :=
    digits_drop_one data 0
  have hread := readByte_with_a d 0
  have ha : d.readByte.a = 2 ^ 8 := readByte_a d
  have hnew : ArithmeticDecoder.new (data.drop 1) = MqDecoder.shiftBy 7 d.readByte := by
    unfold ArithmeticDecoder.new MqDecoder.shiftBy
    dsimp only
    rw [hbyte,hread,ha]
    rfl
  rw [hnew]
  exact yn

/-! ## Runs -/

section
variable {κ : Type*} [DecidableEq κ]

/-- Codes a sequence of decisions; returns the registers and the labels after each. -/
def encodeDecisions (s : ArithmeticEncoder) (ctxs : κ → Context) :
    List (κ × Bool) → ArithmeticEncoder × List (κ → Context)
  | [] => (s, [])
  | (label, bit) :: decisions =>
      let (s, ctx) := s.encode bit.toNat (ctxs label)
      let ctxs := Function.update ctxs label ctx
      let (s, trace) := encodeDecisions s ctxs decisions
      (s, ctxs :: trace)

/-- Decodes one symbol for each label; returns the symbols and the labels after each. -/
def decodeDecisions (d : ArithmeticDecoder) (ctxs : κ → Context) :
    List κ → List (ℕ × (κ → Context))
  | [] => []
  | label :: labels =>
      let (bit, d, ctx) := d.decode (ctxs label)
      let ctxs := Function.update ctxs label ctx
      (bit, ctxs) :: decodeDecisions d ctxs labels

theorem update_valid {ctxs : κ → Context} {ctx : Context} (h : ∀ l, (ctxs l).Valid)
    (label : κ) (hc : ctx.Valid) (l : κ) : (Function.update ctxs label ctx l).Valid := by
  by_cases hl : l = label
  · rw [hl,Function.update_self]
    exact hc
  · rw [Function.update_of_ne hl]
    exact h l

theorem encodeDecisions_coding {s : ArithmeticEncoder} {ctxs : κ → Context} (h : Coding s)
    (hc : ∀ l, (ctxs l).Valid) (decisions : List (κ × Bool)) :
    Coding (encodeDecisions s ctxs decisions).1 := by
  induction decisions generalizing s ctxs with
  | nil => exact h
  | cons decision decisions ih =>
      exact ih (encode_coding _ h (hc _)) (update_valid hc _ (encode_label_valid _ h (hc _)))

theorem Future.of_encodeDecisions {s : ArithmeticEncoder} {ctxs : κ → Context} {data : List ℕ}
    (h : Coding s) (hc : ∀ l, (ctxs l).Valid) (decisions : List (κ × Bool))
    (f : Future (encodeDecisions s ctxs decisions).1 data) : Future s data := by
  induction decisions generalizing s ctxs with
  | nil => exact f
  | cons decision decisions ih =>
      exact Future.of_encode h (hc _) (ih (encode_coding _ h (hc _))
        (update_valid hc _ (encode_label_valid _ h (hc _))) f)

/-- The decoder repeats the encoder over a whole sequence of decisions. -/
theorem Sync.decodeDecisions {s : ArithmeticEncoder} {d : ArithmeticDecoder} {data : List ℕ}
    {ctxs : κ → Context} (y : Sync s d data) (h : Coding s) (hc : ∀ l, (ctxs l).Valid)
    (decisions : List (κ × Bool)) (f : Future (encodeDecisions s ctxs decisions).1 data) :
    decodeDecisions d ctxs (decisions.map Prod.fst) =
      (decisions.map fun decision => decision.2.toNat).zip
        (encodeDecisions s ctxs decisions).2 := by
  induction decisions generalizing s d ctxs with
  | nil => rfl
  | cons decision decisions ih =>
      obtain ⟨label,bit⟩ := decision
      have hs := encode_coding bit.toNat h (hc label)
      have hcs := update_valid hc label (encode_label_valid bit.toNat h (hc label))
      have hf := Future.of_encodeDecisions hs hcs decisions f
      obtain ⟨hbit,hctx,hsync⟩ := y.decode h (hc label) (Bool.toNat_lt bit) hf
      have htail := ih hsync hs hcs f
      simp only [MqRoundTrip.decodeDecisions,encodeDecisions,List.map_cons,List.zip_cons_cons,
        hbit,hctx]
      rw [htail]

theorem encodeDecisions_length (s : ArithmeticEncoder) (ctxs : κ → Context)
    (decisions : List (κ × Bool)) :
    (encodeDecisions s ctxs decisions).2.length = decisions.length := by
  induction decisions generalizing s ctxs with
  | nil => rfl
  | cons decision decisions ih => exact congrArg Nat.succ (ih _ _)

/-- A decoder of the finished bytes starts synchronized with the encoder. -/
theorem sync_finish {s : ArithmeticEncoder} (h : Coding s)
    (f : Future ArithmeticEncoder.new s.flush.data) :
    Sync ArithmeticEncoder.new (ArithmeticDecoder.new s.finish) s.flush.data := by
  refine sync_new f ?_
  rw [flush_length h]
  omega

/-- Decoding the finished bytes under the same labels returns the coded symbols, and
after every decision the labels of the decoder are those of the encoder. -/
theorem mq_round_trip (ctxs : κ → Context) (decisions : List (κ × Bool))
    (hc : ∀ l, (ctxs l).Valid) :
    let coded := encodeDecisions ArithmeticEncoder.new ctxs decisions
    let decoded := decodeDecisions (ArithmeticDecoder.new coded.1.finish) ctxs
      (decisions.map Prod.fst)
    decoded.map Prod.fst = decisions.map (fun decision => decision.2.toNat) ∧
      decoded.map Prod.snd = coded.2 := by
  dsimp only
  have hcoding := encodeDecisions_coding coding_new hc decisions
  have hend := flush_future hcoding
  have hstart := Future.of_encodeDecisions coding_new hc decisions hend
  rw [(sync_finish hcoding hstart).decodeDecisions coding_new hc decisions hend]
  have hlen := encodeDecisions_length ArithmeticEncoder.new ctxs decisions
  exact ⟨List.map_fst_zip (by rw [List.length_map,hlen]),
    List.map_snd_zip (by rw [List.length_map,hlen])⟩

theorem mq_round_trip_two_labels :
    (decodeDecisions (ArithmeticDecoder.new (encodeDecisions ArithmeticEncoder.new
      (fun label : Bool => if label then 174 else 4)
      [(true,false),(false,true),(true,true),(true,false)]).1.finish)
      (fun label : Bool => if label then 174 else 4) [true,false,true,true]).map Prod.fst =
    [0,1,1,0] := by
  have h := mq_round_trip (fun label : Bool => if label then 174 else 4)
    [(true,false),(false,true),(true,true),(true,false)] (by decide)
  exact h.1

end

end J2kNative.MqRoundTrip
