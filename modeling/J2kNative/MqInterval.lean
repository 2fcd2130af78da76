import J2kNative.MqEncoder

/-!
# The coding interval of the MQ encoder and its final bytes

`Future s data` relates an encoder state to the complete output of a run that
passes through it. Bytes before the newest one are final, the newest one can
only grow by a carry, and the interval of the state contains the value that the
complete output denotes. The relation is established at the flush and carried
backwards over each register operation, so that a decoder which holds the
complete output can be compared with every intermediate encoder state.
-/
namespace J2kNative.MqInterval
open StuffedDigits MqStates MqEncoder

/-- `t` codes a sub-interval of `s` at the same scale. -/
structure Narrow (s t : ArithmeticEncoder) : Prop where
  data : t.data = s.data
  ct : t.ct = s.ct
  a_pos : 0 < t.a
  low_le : s.c ≤ t.c
  high_le : t.c + t.a ≤ s.c + s.a

theorem Narrow.room {s t : ArithmeticEncoder} (n : Narrow s t) (h : Room s) : Room t := by
  refine ⟨n.data ▸ h.stuffed,n.data ▸ h.data_ne,n.ct ▸ h.ct_lt,n.a_pos,?_⟩
  rw [n.data,n.ct]
  exact (Nat.mul_le_mul_left 8 n.high_le).trans h.room

theorem Narrow.ready {s t : ArithmeticEncoder} (n : Narrow s t) (h : Ready s) : Ready t :=
  ⟨n.room h.toRoom,n.ct ▸ h.ct_pos,n.ct ▸ h.ct_le⟩

/-- The registers shifted left without byte output. -/
def shiftBy (n : ℕ) (s : ArithmeticEncoder) : ArithmeticEncoder :=
  { s with a := s.a <<< n, c := s.c <<< n, ct := s.ct - n }

theorem shiftBy_room {s : ArithmeticEncoder} {n : ℕ} (h : Room s) (hn : n ≤ s.ct) :
    Room (shiftBy n s) := by
  refine ⟨h.stuffed,h.data_ne,(Nat.sub_le _ _).trans_lt h.ct_lt,?_,?_⟩
  · simp only [shiftBy,Nat.shiftLeft_eq]
    exact Nat.mul_pos h.a_pos (Nat.two_pow_pos n)
  · have hct := h.ct_lt
    have hp : 2 ^ (27 - (s.ct - n)) = 2 ^ (27 - s.ct) * 2 ^ n := by
      rw [← pow_add]
      congr 1
      omega
    simp only [shiftBy,Nat.shiftLeft_eq,hp]
    rw [← add_mul,← mul_assoc,← mul_assoc]
    exact Nat.mul_le_mul_right _ h.room

/-- `data` is the output, sentinel included, of a run that goes on from `s`. -/
structure Future (s : ArithmeticEncoder) (data : List ℕ) : Prop where
  stuffed : Stuffed data
  length_le : s.data.length ≤ data.length
  agree : ∀ i < s.top, digits data i = digits s.data i
  carry : valueOf s.data s.top ≤ valueOf data s.top
  starts : ∀ k < data.length, s.top < k ∨ k + 1 = data.length →
    Starts stuffedWidth (digits data) k s.low s.scale
  ends : Ends stuffedWidth (digits data) (data.length - 1) (s.low + s.a) s.scale

theorem Future.offset_eq {s : ArithmeticEncoder} {data : List ℕ} (f : Future s data) :
    offsetOf data s.top = offsetOf s.data s.top :=
  offset_congr _ f.agree

theorem Future.of_narrow {s t : ArithmeticEncoder} {data : List ℕ} (n : Narrow s t)
    (f : Future t data) : Future s data := by
  have htop : t.top = s.top := by simp only [ArithmeticEncoder.top,n.data]
  have hscale : t.scale = s.scale := by simp only [ArithmeticEncoder.scale,htop,n.data,n.ct]
  have hlow : t.low + s.c = s.low + t.c := by
    simp only [ArithmeticEncoder.low,htop,n.data,n.ct]
    omega
  have h1 := n.low_le
  have h2 := n.high_le
  refine ⟨f.stuffed,n.data ▸ f.length_le,?_,?_,?_,?_⟩
  · rw [← htop,← n.data]
    exact f.agree
  · rw [← htop,← n.data]
    exact f.carry
  · intro k hk ht
    rw [← hscale]
    exact (f.starts k hk (htop.symm ▸ ht)).anti _ (by omega)
  · rw [← hscale]
    exact f.ends.mono _ (by omega)

theorem shiftBy_interval {s : ArithmeticEncoder} {n : ℕ} (h : Room s) (hn : n ≤ s.ct) :
    (shiftBy n s).low = s.low * 2 ^ n ∧ (shiftBy n s).scale = s.scale + n := by
  have hct := h.ct_lt
  have hsub : 27 - (s.ct - n) = 27 - s.ct + n := by omega
  constructor
  · simp only [ArithmeticEncoder.low,ArithmeticEncoder.top,shiftBy,hsub,Nat.shiftLeft_eq,
      pow_add,add_mul,mul_assoc]
  · simp only [ArithmeticEncoder.scale,ArithmeticEncoder.top,shiftBy,hsub]
    omega

theorem Future.of_shiftBy {s : ArithmeticEncoder} {n : ℕ} {data : List ℕ} (h : Room s)
    (hn : n ≤ s.ct) (f : Future (shiftBy n s) data) : Future s data := by
  obtain ⟨hlow,hscale⟩ := shiftBy_interval h hn
  have hhigh : (shiftBy n s).low + (shiftBy n s).a = (s.low + s.a) * 2 ^ n := by
    rw [hlow,add_mul]
    simp only [shiftBy,Nat.shiftLeft_eq]
  refine ⟨f.stuffed,f.length_le,f.agree,f.carry,?_,?_⟩
  · intro k hk ht
    have hs := f.starts k hk ht
    rwa [hlow,hscale,starts_scale] at hs
  · have he := f.ends
    rwa [hhigh,hscale,ends_scale] at he

/-- Where `Emitted` leaves the interval: the same number at the same scale. -/
theorem Emitted.interval {s t : ArithmeticEncoder} {front : List ℕ} {last last' b : ℕ}
    (hs : s.data = front ++ [last]) (hct : s.ct = 0) (e : Emitted s t front last last' b) :
    s.top = front.length ∧ t.top = front.length + 1 ∧ t.low = s.low ∧ t.scale = s.scale := by
  have hstop : s.top = front.length := by simp [ArithmeticEncoder.top,hs]
  have httop : t.top = front.length + 1 := by simp [ArithmeticEncoder.top,e.data]
  refine ⟨hstop,httop,?_,?_⟩
  · simp only [ArithmeticEncoder.low,hstop,httop,hct]
    exact e.value
  · have ho := offsetOf_append_succ front last' [b]
    have ho' := offsetOf_append front last' last [b] []
    have hw := stuffedWidth_cases last'
    simp only [ArithmeticEncoder.scale,hstop,httop,hct]
    rw [e.data,e.ct,hs,ho,ho']
    omega

theorem Future.of_byteOut {s : ArithmeticEncoder} {data : List ℕ} (h : Room s)
    (hct : s.ct = 0) (f : Future s.byteOut data) : Future s data := by
  obtain ⟨front,last,last',b,hs,e⟩ := byteOut_spec h hct
  obtain ⟨hstop,httop,hlow,hscale⟩ := Emitted.interval hs hct e
  have hagree := f.agree
  rw [httop] at hagree
  have hfront (i : ℕ) (hi : i < front.length) : digits data i = digits s.data i := by
    rw [hagree i (by omega),e.data,hs,digits_append_left _ hi,digits_append_left _ hi]
  have hlast : digits data front.length = last' := by
    rw [hagree _ (Nat.lt_succ_self _),e.data,digits_append_length]
  refine ⟨f.stuffed,?_,?_,?_,?_,?_⟩
  · have := f.length_le
    rw [e.length] at this
    rw [hs,List.length_append,List.length_singleton]
    omega
  · rwa [hstop]
  · have hv := value_add_digit stuffedWidth (d := digits s.data) (e := digits data)
      (k := front.length) fun i hi => (hfront i hi).symm
    have hl : digits s.data front.length = last := by rw [hs,digits_append_length]
    have hle := e.last_le
    rw [hlast,hl] at hv
    rw [hstop]
    change value stuffedWidth (digits s.data) front.length ≤
      value stuffedWidth (digits data) front.length
    omega
  · intro k hk ht
    by_cases hk' : k = s.byteOut.top
    · -- byte `k` is written here: it is the floor of the lower end
      subst hk'
      have hc : s.byteOut.c < 2 ^ (27 - s.byteOut.ct) := by
        rw [e.c]
        exact Nat.mod_lt _ (Nat.two_pow_pos _)
      have hcarry := f.carry
      have hlt : s.byteOut.low < (valueOf data s.byteOut.top + 1) * 2 ^ (27 - s.byteOut.ct) := by
        have := Nat.mul_le_mul_right (2 ^ (27 - s.byteOut.ct)) hcarry
        simp only [ArithmeticEncoder.low,add_mul,one_mul]
        omega
      have hm := Nat.mul_lt_mul_of_pos_right hlt (Nat.two_pow_pos (offsetOf data s.byteOut.top))
      unfold Starts
      rw [← hlow,← hscale]
      refine hm.trans_eq ?_
      rw [ArithmeticEncoder.scale,← f.offset_eq,pow_add,mul_comm (2 ^ offsetOf _ _),mul_assoc]
    · rw [← hlow,← hscale]
      refine f.starts k hk ?_
      omega
  · rw [← hlow,← hscale,← e.a]
    exact f.ends

/-! ## Encoding one symbol -/

/-- A state between two symbols. -/
structure Coding (s : ArithmeticEncoder) : Prop extends Ready s where
  a_ge : 0x8000 ≤ s.a
  a_lt : s.a < 0x10000

theorem coding_new : Coding ArithmeticEncoder.new := by
  refine ⟨⟨⟨⟨rfl,by decide,?_⟩,by decide,by decide,by decide,by decide⟩,by decide,by decide⟩,
    by decide,by decide⟩
  intro i hi
  simp [ArithmeticEncoder.new] at hi

/-- Whether the symbol takes the upper sub-interval: the more probable symbol does
unless its share is the smaller one (conditional exchange). -/
def takesUpper (a bit : ℕ) (ctx : Context) : Bool :=
  (bit = ctx.mps) != (a - (qeEntry ctx.index).qe < (qeEntry ctx.index).qe)

/-- The registers narrowed to the sub-interval of a symbol. -/
def select (s : ArithmeticEncoder) (bit : ℕ) (ctx : Context) : ArithmeticEncoder :=
  let qe := (qeEntry ctx.index).qe
  if takesUpper s.a bit ctx then { s with a := s.a - qe, c := s.c + qe } else { s with a := qe }

/-- The label after a symbol coded at interval length `a`. -/
def nextLabel (a bit : ℕ) (ctx : Context) : Context :=
  if bit = ctx.mps then
    if 0x8000 ≤ a - (qeEntry ctx.index).qe then ctx else ctx.afterMps
  else ctx.afterLps

def normalize (s : ArithmeticEncoder) : ArithmeticEncoder :=
  if s.a < 0x8000 then s.renormalize else s

theorem and_half_eq_zero {a : ℕ} (h : a < 0x10000) : a &&& 0x8000 = 0 ↔ a < 0x8000 :=
  and_two_pow_eq_zero (n := 15) h

theorem encode_eq {s : ArithmeticEncoder} {ctx : Context} (bit : ℕ) (h : Coding s)
    (hc : ctx.Valid) :
    s.encode bit ctx = (normalize (select s bit ctx),nextLabel s.a bit ctx) := by
  have hq := (row_bounds hc).qe_le
  have ha := h.a_lt
  have hhalf := and_half_eq_zero (a := s.a - (qeEntry ctx.index).qe) (by omega)
  unfold ArithmeticEncoder.encode select nextLabel takesUpper normalize Context.afterMps
    Context.afterLps
  by_cases hb : bit = ctx.mps
  · by_cases hn : s.a - (qeEntry ctx.index).qe < 0x8000
    · by_cases hx : s.a - (qeEntry ctx.index).qe < (qeEntry ctx.index).qe
      · simp [hb,hhalf,hx,Nat.not_le.mpr hn,show (qeEntry ctx.index).qe < 0x8000 by omega]
      · simp [hb,hhalf,hn,hx,Nat.not_le.mpr hn]
    · have hx : ¬ s.a - (qeEntry ctx.index).qe < (qeEntry ctx.index).qe := by omega
      simp [hb,hhalf,hn,hx,Nat.not_lt.mp hn]
  · by_cases hx : s.a - (qeEntry ctx.index).qe < (qeEntry ctx.index).qe
    · have hn : s.a - (qeEntry ctx.index).qe < 0x8000 := by omega
      simp [hb,hx,hn]
    · have hn : (qeEntry ctx.index).qe < 0x8000 := by omega
      simp [hb,hx,hn]

theorem select_narrow {s : ArithmeticEncoder} {ctx : Context} (bit : ℕ) (h : Coding s)
    (hc : ctx.Valid) : Narrow s (select s bit ctx) := by
  have hq := row_bounds hc
  have h1 := hq.qe_pos
  have h2 := hq.qe_le
  have h3 := h.a_ge
  unfold select
  split_ifs
  · exact ⟨rfl,rfl,by dsimp only; omega,by dsimp only; omega,by dsimp only; omega⟩
  · exact ⟨rfl,rfl,by dsimp only; omega,le_rfl,by dsimp only; omega⟩

/-! ## Renormalization -/

theorem renormalizeOnce_eq (s : ArithmeticEncoder) : s.renormalizeOnce =
    if s.ct - 1 = 0 then (shiftBy 1 s).byteOut else shiftBy 1 s := rfl

/-- One turn doubles the interval length; what follows it follows the state before. -/
theorem renormalizeOnce_spec {s : ArithmeticEncoder} (h : Ready s) (ha : s.a < 0x8000) :
    Ready s.renormalizeOnce ∧ s.renormalizeOnce.a = 2 * s.a ∧
      ∀ data, Future s.renormalizeOnce data → Future s data := by
  have hct := h.ct_pos
  have hroom := shiftBy_room h.toRoom hct
  have hdouble : (shiftBy 1 s).a = 2 * s.a := by
    simp only [shiftBy,Nat.shiftLeft_eq]
    omega
  rw [renormalizeOnce_eq]
  split_ifs with h0
  · obtain ⟨front,last,last',b,hs,e⟩ := byteOut_spec hroom h0
    refine ⟨e.room hroom.a_pos (by rw [hdouble]; omega),e.a.trans hdouble,fun data f => ?_⟩
    exact (f.of_byteOut hroom h0).of_shiftBy h.toRoom hct
  · exact ⟨⟨hroom,Nat.pos_of_ne_zero h0,(Nat.sub_le _ _).trans h.ct_le⟩,hdouble,fun data f => f.of_shiftBy h.toRoom hct⟩

/-- One turn re-reads the same interval one bit finer. -/
theorem renormalizeOnce_interval {s : ArithmeticEncoder} (h : Ready s) :
    s.renormalizeOnce.low = s.low * 2 ^ 1 ∧ s.renormalizeOnce.scale = s.scale + 1 := by
  have hct := h.ct_pos
  have hroom := shiftBy_room h.toRoom hct
  obtain ⟨hlow,hscale⟩ := shiftBy_interval h.toRoom hct
  rw [renormalizeOnce_eq]
  split_ifs with h0
  · obtain ⟨front,last,last',b,hs,e⟩ := byteOut_spec hroom h0
    obtain ⟨_,_,hl,hsc⟩ := Emitted.interval hs h0 e
    exact ⟨hl.trans hlow,hsc.trans hscale⟩
  · exact ⟨hlow,hscale⟩

theorem renormalizeLoop_spec (fuel : ℕ) {s : ArithmeticEncoder} (h : Ready s)
    (ha : s.a < 0x8000) (hf : 0x8000 ≤ s.a * 2 ^ fuel) :
    Coding (s.renormalizeLoop fuel) ∧
      ∀ data, Future (s.renormalizeLoop fuel) data → Future s data := by
  induction fuel generalizing s with
  | zero => omega
  | succ fuel ih =>
      obtain ⟨hr,hd,hfut⟩ := renormalizeOnce_spec h ha
      have hhalf := and_half_eq_zero (a := s.renormalizeOnce.a) (by omega)
      unfold ArithmeticEncoder.renormalizeLoop
      dsimp only
      split_ifs with hb
      · exact ⟨⟨hr,by omega,by omega⟩,hfut⟩
      · have hlt : s.renormalizeOnce.a < 0x8000 := hhalf.mp (not_not.mp hb)
        obtain ⟨hc,hl⟩ := ih hr hlt (by rw [hd,mul_comm 2,mul_assoc,← pow_succ']; exact hf)
        exact ⟨hc,fun data f => hfut data (hl data f)⟩

theorem normalize_spec {s : ArithmeticEncoder} (h : Ready s) (ha : s.a < 0x10000) :
    Coding (normalize s) ∧ ∀ data, Future (normalize s) data → Future s data := by
  unfold normalize
  split_ifs with hlt
  · have hpos := h.a_pos
    exact renormalizeLoop_spec 15 h hlt (by omega)
  · exact ⟨⟨h,by omega,ha⟩,fun _ f => f⟩

theorem select_a_lt {s : ArithmeticEncoder} {ctx : Context} (bit : ℕ) (h : Coding s)
    (hc : ctx.Valid) : (select s bit ctx).a < 0x10000 := by
  have := (select_narrow bit h hc).high_le
  have := (select_narrow bit h hc).low_le
  have := h.a_lt
  omega

theorem encode_coding {s : ArithmeticEncoder} {ctx : Context} (bit : ℕ) (h : Coding s)
    (hc : ctx.Valid) : Coding (s.encode bit ctx).1 := by
  rw [encode_eq bit h hc]
  exact (normalize_spec ((select_narrow bit h hc).ready h.toReady) (select_a_lt bit h hc)).1

theorem encode_label_valid {s : ArithmeticEncoder} {ctx : Context} (bit : ℕ) (h : Coding s)
    (hc : ctx.Valid) : (s.encode bit ctx).2.Valid := by
  rw [encode_eq bit h hc]
  dsimp only [nextLabel]
  split_ifs
  · exact hc
  · exact (row_bounds hc).afterMps
  · exact (row_bounds hc).afterLps

/-- A complete output that follows the registers narrowed to a symbol. -/
theorem Future.select_of_encode {s : ArithmeticEncoder} {ctx : Context} {bit : ℕ}
    {data : List ℕ} (h : Coding s) (hc : ctx.Valid)
    (f : Future (s.encode bit ctx).1 data) : Future (select s bit ctx) data := by
  rw [encode_eq bit h hc] at f
  exact (normalize_spec ((select_narrow bit h hc).ready h.toReady)
    (select_a_lt bit h hc)).2 data f

theorem Future.of_encode {s : ArithmeticEncoder} {ctx : Context} {bit : ℕ} {data : List ℕ}
    (h : Coding s) (hc : ctx.Valid) (f : Future (s.encode bit ctx).1 data) : Future s data :=
  (Future.select_of_encode h hc f).of_narrow (select_narrow bit h hc)

/-! ## Flush -/

/-- Byte output reads the output and the code register only. -/
theorem byteOut_congr {s t : ArithmeticEncoder} (hd : s.data = t.data) (hc : s.c = t.c) :
    s.byteOut.data = t.byteOut.data ∧ s.byteOut.c = t.byteOut.c ∧ s.byteOut.ct = t.byteOut.ct := by
  unfold ArithmeticEncoder.byteOut ArithmeticEncoder.lastByte
  rw [hd,hc]
  dsimp only
  split_ifs <;> exact ⟨rfl,rfl,rfl⟩

theorem or_low_half (c : ℕ) : c ||| 0xFFFF = c / 0x10000 * 0x10000 + 0xFFFF := by
  apply Nat.eq_of_testBit_eq
  intro i
  rw [show c / 0x10000 * 0x10000 + 0xFFFF = 2 ^ 16 * (c / 2 ^ 16) + (2 ^ 16 - 1) by omega,
    Nat.testBit_or,Nat.testBit_two_pow_mul_add _ (by decide),
    show (0xFFFF : ℕ) = 2 ^ 16 - 1 from rfl,Nat.testBit_two_pow_sub_one]
  by_cases hi : i < 16
  · simp [hi]
  · rw [Nat.testBit_div_two_pow]
    simp [hi,Nat.sub_add_cancel (Nat.not_lt.mp hi)]

/-- The flush rounds inside the interval and leaves fifteen one bits. -/
theorem setBits_spec (s : ArithmeticEncoder) (ha : 0x8000 ≤ s.a) :
    s.c ≤ s.setBits.c ∧ s.setBits.c < s.c + s.a ∧ 2 ^ 15 ∣ s.setBits.c + 1 := by
  unfold ArithmeticEncoder.setBits
  dsimp only
  rw [or_low_half]
  split_ifs with hge
  · refine ⟨by omega,by omega,?_⟩
    omega
  · exact ⟨by omega,by omega,by omega⟩

theorem dvd_mod_add {c a e q : ℕ} (h : 2 ^ e ∣ c + a) (he : e ≤ q) :
    2 ^ e ∣ c % 2 ^ q + a := by
  have hq : 2 ^ e ∣ 2 ^ q * (c / 2 ^ q) := (pow_dvd_pow 2 he).mul_right _
  have hsum : 2 ^ q * (c / 2 ^ q) + (c % 2 ^ q + a) = c + a := by
    have := Nat.div_add_mod c (2 ^ q)
    omega
  exact (Nat.dvd_add_right hq).mp (hsum ▸ h)

/-- The interval of length one that the flush settles on. -/
def settled (s : ArithmeticEncoder) : ArithmeticEncoder := { s with a := 1, c := s.setBits.c }

theorem settled_narrow {s : ArithmeticEncoder} (h : Coding s) : Narrow s (settled s) := by
  obtain ⟨hlo,hhi,_⟩ := setBits_spec s h.a_ge
  exact ⟨rfl,rfl,Nat.one_pos,hlo,hhi⟩

/-- The pending bits shifted out and written. -/
def drain (s : ArithmeticEncoder) : ArithmeticEncoder := (shiftBy s.ct s).byteOut

theorem drain_spec {s : ArithmeticEncoder} (h : Ready s) : ∃ front last last' b,
    s.data = front ++ [last] ∧ Emitted (shiftBy s.ct s) (drain s) front last last' b :=
  byteOut_spec (shiftBy_room h.toRoom le_rfl) (Nat.sub_self _)

theorem drain_length {s : ArithmeticEncoder} (h : Ready s) :
    (drain s).data.length = s.data.length + 1 := by
  obtain ⟨front,last,last',b,hs,e⟩ := drain_spec h
  rw [e.length,hs,List.length_append]
  rfl

theorem drain_a {s : ArithmeticEncoder} (h : Ready s) : (drain s).a = s.a * 2 ^ s.ct := by
  obtain ⟨front,last,last',b,hs,e⟩ := drain_spec h
  rw [e.a]
  exact Nat.shiftLeft_eq _ _

theorem drain_ready {s : ArithmeticEncoder} (h : Ready s) (ha : s.a * 2 ^ s.ct ≤ 2 ^ 16) :
    Ready (drain s) := by
  obtain ⟨front,last,last',b,hs,e⟩ := drain_spec h
  refine e.room (shiftBy_room h.toRoom le_rfl).a_pos ?_
  simpa only [shiftBy,Nat.shiftLeft_eq] using ha

theorem drain_ct {s : ArithmeticEncoder} (h : Ready s) :
    (drain s).ct = 7 ∨ (drain s).ct = 8 := by
  obtain ⟨front,last,last',b,hs,e⟩ := drain_spec h
  rw [e.ct]
  exact stuffedWidth_cases last'

theorem Future.of_drain {s : ArithmeticEncoder} {data : List ℕ} (h : Ready s)
    (f : Future (drain s) data) : Future s data :=
  (f.of_byteOut (shiftBy_room h.toRoom le_rfl) (Nat.sub_self _)).of_shiftBy h.toRoom le_rfl

theorem drain_dvd {s : ArithmeticEncoder} {e q : ℕ} (h : Ready s) (hd : 2 ^ e ∣ s.c + s.a)
    (hq : q ≤ e + s.ct) (hq' : q ≤ 27 - (drain s).ct) :
    2 ^ q ∣ (drain s).c + (drain s).a := by
  obtain ⟨front,last,last',b,hs,em⟩ := drain_spec h
  rw [em.c,em.a]
  refine dvd_mod_add ((pow_dvd_pow 2 hq).trans ?_) hq'
  simpa only [shiftBy,Nat.shiftLeft_eq,← add_mul,pow_add] using
    Nat.mul_dvd_mul_right hd (2 ^ s.ct)

/-- The state after the last byte. The bits that were cut off the settled register
are ones, so reading ones in their place stays inside the interval. -/
theorem drain_complete {s : ArithmeticEncoder} (h : Ready s)
    (hfill : 2 ^ (27 - (drain s).ct) ≤ (drain s).c + (drain s).a) :
    Future (drain s) (drain s).data := by
  obtain ⟨front,last,last',b,hs,e⟩ := drain_spec h
  generalize drain s = t at e hfill ⊢
  have hc : t.c < 2 ^ (27 - t.ct) := by
    rw [e.c]
    exact Nat.mod_lt _ (Nat.two_pow_pos _)
  have hlen : t.data.length - 1 = t.top := rfl
  have hscale : 2 ^ (27 - t.ct) * 2 ^ offsetOf t.data t.top = 2 ^ t.scale := by
    rw [ArithmeticEncoder.scale,pow_add,mul_comm]
  have hlow : t.low = valueOf t.data t.top * 2 ^ (27 - t.ct) + t.c := rfl
  refine ⟨e.stuffed,le_rfl,fun _ _ => rfl,le_rfl,?_,?_⟩
  · intro k hk ht
    obtain rfl : k = t.top := by omega
    have hlt : t.low < (valueOf t.data t.top + 1) * 2 ^ (27 - t.ct) := by
      rw [hlow,add_mul,one_mul]
      omega
    have hm := Nat.mul_lt_mul_of_pos_right hlt (Nat.two_pow_pos (offsetOf t.data t.top))
    rwa [mul_assoc (_ + 1),hscale] at hm
  · have hle : (valueOf t.data t.top + 1) * 2 ^ (27 - t.ct) ≤ t.low + t.a := by
      rw [hlow,add_mul,one_mul]
      omega
    have hm := Nat.mul_le_mul_right (2 ^ offsetOf t.data t.top) hle
    rwa [mul_assoc (_ + 1),hscale] at hm

/-- The source keeps the stale interval length during the flush; byte output never
reads it. -/
theorem flush_data (s : ArithmeticEncoder) : s.flush.data = (drain (drain (settled s))).data := by
  obtain ⟨hd,hc,hct⟩ := byteOut_congr
    (s := { s.setBits with c := s.setBits.c <<< s.setBits.ct })
    (t := shiftBy s.ct (settled s)) rfl rfl
  unfold ArithmeticEncoder.flush drain
  refine (byteOut_congr ?_ ?_).1
  · exact hd
  · exact congrArg₂ (· <<< ·) hc hct

theorem flush_length {s : ArithmeticEncoder} (h : Coding s) :
    s.flush.data.length = s.data.length + 2 := by
  have hready := (settled_narrow h).ready h.toReady
  have hpow : 2 ^ s.ct ≤ 2 ^ 12 := Nat.pow_le_pow_right two_pos h.ct_le
  have hready₂ : Ready (drain (settled s)) := drain_ready hready (by simp [settled]; omega)
  rw [flush_data,drain_length hready₂,drain_length hready]
  rfl

/-- The flushed output completes the state it was flushed from. -/
theorem flush_future {s : ArithmeticEncoder} (h : Coding s) : Future s s.flush.data := by
  have hn := settled_narrow h
  have hready := hn.ready h.toReady
  have hpow : 2 ^ s.ct ≤ 2 ^ 12 := Nat.pow_le_pow_right two_pos h.ct_le
  have hready₂ : Ready (drain (settled s)) := drain_ready hready (by simp [settled]; omega)
  obtain ⟨_,_,hones⟩ := setBits_spec s h.a_ge
  have hct := drain_ct hready
  have hct₂ := drain_ct hready₂
  have hpos := h.ct_pos
  have hd₁ : 2 ^ 16 ∣ (drain (settled s)).c + (drain (settled s)).a :=
    drain_dvd hready hones (by change 16 ≤ 15 + s.ct; omega) (by omega)
  have hd₂ := drain_dvd (q := 27 - (drain (drain (settled s))).ct) hready₂ hd₁ (by omega) le_rfl
  have ha : 0 < (drain (drain (settled s))).a := by
    rw [drain_a hready₂]
    exact Nat.mul_pos hready₂.a_pos (Nat.two_pow_pos _)
  rw [flush_data]
  have f := drain_complete hready₂ (Nat.le_of_dvd (by omega) hd₂)
  exact ((f.of_drain hready₂).of_drain hready).of_narrow hn

end J2kNative.MqInterval
