import J2kNative.JpegBitStream

/-!
# When the reader pads

A reader supplies ones after the real bits when it has come to a marker, or to the
end of the bytes where that is allowed and no fill byte is left over. So whether it
can show so many bits is known before they are fetched.
-/
namespace J2kNative.BitReader

/-- The bytes end in `0xFF` bytes that neither a stuffed zero nor a marker follows. -/
def endsFilled : Bool → List ℕ → Bool
  | fill,[] => fill
  | true,b::l =>
    if b = 0xFF then endsFilled true l else if b = 0 then endsFilled false l else false
  | false,b::l => if b = 0xFF then endsFilled true l else endsFilled false l

theorem endsFilled_fill (l : List ℕ) :
    endsFilled true l = match l.drop (fillLength l) with
      | [] => true
      | b::rest => if b = 0 then endsFilled false rest else false := by
  induction l with
  | nil => rfl
  | cons b l ih =>
      rw [endsFilled,fillLength]
      by_cases h : b = 0xFF
      · rw [if_pos h,if_pos h,List.drop_succ_cons]
        exact ih
      · rw [if_neg h,if_neg h,List.drop_zero]

/-- The reader supplies ones once the real bits are used. -/
def Pads (r : BitReader) : Prop :=
  r.next.isSome ∨ r.allowEofPadding = true ∧ r.pos ≤ r.bytes.length ∧
    endsFilled false (r.bytes.drop r.pos) = false

/-- Nothing more is fetched, and padding is decided by the state. -/
def Halted (r : BitReader) : Prop :=
  Pads r ↔ r.marker.isSome ∨ r.allowEofPadding = true ∧ r.pos = r.bytes.length

theorem halted_of_marker {r : BitReader} (h : r.marker.isSome) : Halted r := by
  refine iff_of_true (.inl ?_) (.inl h)
  obtain ⟨m,hm⟩ := Option.isSome_iff_exists.mp h
  rw [next,hm]
  rfl

/-- The bytes that end where the first is `0xFF`. -/
theorem endsFilled_ff {bytes : List ℕ} {pos : ℕ} (hlt : pos < bytes.length)
    (hb : byteAt bytes pos = 0xFF) :
    endsFilled false (bytes.drop pos) =
      if bytes.length ≤ afterFill bytes (pos+1) then true
      else if byteAt bytes (afterFill bytes (pos+1)) = 0 then
        endsFilled false (bytes.drop (afterFill bytes (pos+1)+1))
      else false := by
  rw [drop_cons hlt,endsFilled,if_pos hb,endsFilled_fill,List.drop_drop]
  change (match bytes.drop (afterFill bytes (pos+1)) with
    | [] => true
    | b::rest => if b = 0 then endsFilled false rest else false) = _
  split_ifs with hend hzero
  · rw [List.drop_eq_nil_of_le hend]
  · rw [drop_cons (Nat.lt_of_not_le hend)]
    exact if_pos hzero
  · rw [drop_cons (Nat.lt_of_not_le hend)]
    exact if_neg hzero

/-- An attempt to refill does not change whether the reader pads, and settles it when it fails. -/
theorem pads_refillOneByte (r : BitReader) :
    (Pads r.refillOneByte.2 ↔ Pads r) ∧ r.refillOneByte.2.syntheticBits = r.syntheticBits ∧
      (r.refillOneByte.1 = false → Halted r.refillOneByte.2) := by
  have hnext : r.refillOneByte.2.next = r.next := by
    obtain ⟨-,pos,marker,markerEnd,-,hnext,-⟩ | ⟨b,ds,pos,-,-,-,hnext,-⟩ := refillOneByte_spec r
    · exact hnext
    · exact hnext
  have hmoved : ∀ r' : BitReader, r'.next = r.next → r'.allowEofPadding = r.allowEofPadding →
      (r'.pos ≤ r'.bytes.length ∧ endsFilled false (r'.bytes.drop r'.pos) = false ↔
        r.pos ≤ r.bytes.length ∧ endsFilled false (r.bytes.drop r.pos) = false) →
      (Pads r' ↔ Pads r) := by
    intro r' hn ha hends
    rw [Pads,Pads,hn,ha,hends]
  revert hnext
  unfold refillOneByte
  dsimp only
  by_cases hstop : r.marker.isSome ∨ r.bytes.length ≤ r.pos
  · rw [if_pos hstop]
    refine fun _ => ⟨Iff.rfl,rfl,fun _ => ?_⟩
    rcases hmarker : r.marker with _ | m
    · have hle : r.bytes.length ≤ r.pos := hstop.resolve_left (by simp [hmarker])
      have hdrop : r.bytes.drop r.pos = [] := List.drop_eq_nil_of_le hle
      have hnone : r.next = none := by simp [next,hmarker,hdrop,splitAhead]
      unfold Halted Pads
      rw [hnone,hmarker,hdrop]
      simp only [Option.isSome_none,Bool.false_eq_true,false_or,endsFilled,and_true]
      exact and_congr_right fun _ => ⟨fun h => Nat.le_antisymm h hle,fun h => h.le⟩
    · exact halted_of_marker (by rw [hmarker]; rfl)
  · rw [if_neg hstop]
    obtain ⟨hmarker,hlt⟩ := not_or.mp hstop
    have hnone : r.marker = none := by simpa using hmarker
    have hlt : r.pos < r.bytes.length := Nat.lt_of_not_le hlt
    by_cases hb : byteAt r.bytes r.pos = 0xFF
    · have hends := endsFilled_ff hlt hb
      rw [if_pos hb]
      by_cases hcode : r.bytes.length ≤ afterFill r.bytes (r.pos+1)
      · rw [if_pos hcode] at hends ⊢
        refine fun _ => ⟨Iff.rfl,rfl,fun _ => ?_⟩
        have hsplit := splitAhead_ff hlt hb
        rw [if_pos hcode] at hsplit
        have hnext : r.next = none := by rw [next,hnone,hsplit]
        unfold Halted Pads
        rw [hnext,hnone,hends]
        simp [Nat.ne_of_lt hlt]
      · rw [if_neg hcode] at hends ⊢
        by_cases hzero : byteAt r.bytes (afterFill r.bytes (r.pos+1)) = 0
        · rw [if_pos hzero] at hends ⊢
          refine fun hnext => ⟨hmoved _ hnext rfl ?_,rfl,fun h => absurd h.symm Bool.false_ne_true⟩
          rw [hends]
          exact and_congr_left fun _ => iff_of_true (Nat.lt_of_not_le hcode) hlt.le
        · rw [if_neg hzero]
          refine fun hnext => ⟨?_,rfl,fun _ => halted_of_marker rfl⟩
          have hsome : r.next.isSome := hnext ▸ rfl
          exact iff_of_true (.inl rfl) (.inl hsome)
    · rw [if_neg hb]
      refine fun hnext => ⟨hmoved _ hnext rfl ?_,rfl,fun h => absurd h.symm Bool.false_ne_true⟩
      rw [drop_cons hlt,endsFilled,if_neg hb]
      exact and_congr_left fun _ => iff_of_true hlt hlt.le

/-- After a refill either enough bits are there, or the state tells whether the reader pads. -/
theorem pads_refillLoop {limit : ℕ} (turns : ℕ) {r : BitReader} (hturns : limit ≤ r.bits+8*turns) :
    (Pads (refillLoop limit turns r) ↔ Pads r) ∧
      (refillLoop limit turns r).syntheticBits = r.syntheticBits ∧
      (limit ≤ (refillLoop limit turns r).bits ∨ Halted (refillLoop limit turns r)) := by
  induction turns generalizing r with
  | zero => exact ⟨Iff.rfl,rfl,.inl hturns⟩
  | succ turns ih =>
      rw [refillLoop]
      by_cases hbits : r.bits < limit
      · rw [if_pos hbits]
        obtain ⟨hpads,hsynthetic,hhalted⟩ := pads_refillOneByte r
        by_cases hadded : r.refillOneByte.1 = true
        · rw [if_pos hadded]
          have hmore : r.refillOneByte.2.bits = r.bits+8 := by
            obtain ⟨-,pos,marker,markerEnd,hrefill,-,-⟩ | ⟨b,ds,pos,-,hrefill,-,-,-⟩ :=
              refillOneByte_spec r
            · rw [hrefill] at hadded
              cases hadded
            · rw [hrefill]
              rfl
          obtain ⟨hpads',hsynthetic',hend⟩ := ih (by rw [hmore]; omega)
          exact ⟨hpads'.trans hpads,hsynthetic'.trans hsynthetic,hend⟩
        · rw [if_neg hadded]
          exact ⟨hpads,hsynthetic,.inr (hhalted (by simpa using hadded))⟩
      · rw [if_neg hbits]
        exact ⟨Iff.rfl,rfl,.inl (Nat.le_of_not_lt hbits)⟩

theorem pads_refillTo (limit : ℕ) (r : BitReader) :
    (Pads (refillTo limit r) ↔ Pads r) ∧ (refillTo limit r).syntheticBits = r.syntheticBits ∧
      (limit ≤ (refillTo limit r).bits ∨ Halted (refillTo limit r)) :=
  pads_refillLoop limit (by omega)

theorem pads_pad {r : BitReader} (count : ℕ) : Pads (pad count r) ↔ Pads r := by
  induction count generalizing r with
  | zero => exact Iff.rfl
  | succ count ih => exact ih

/-- The reader can show `n` bits, where `u` are the real ones. -/
def Fills (n : ℕ) (r : BitReader) (u : List ℕ) : Prop :=
  n ≤ u.length+r.syntheticBits ∨ Pads r

theorem Fills.mono {m n : ℕ} {r : BitReader} {u : List ℕ} (h : Fills n r u) (hle : m ≤ n) :
    Fills m r u :=
  h.imp_left hle.trans

theorem fills_of_next {n : ℕ} {r : BitReader} {u : List ℕ} (h : r.next.isSome) : Fills n r u :=
  .inr (.inl h)

/-- The padded reservoir holds enough where the reader can show so many bits, and what it can
show stays the same. -/
theorem fills_ensureBitsPadded {n : ℕ} (hn : n ≤ 57) {r : BitReader} {u : List ℕ} (h : Reads r u)
    (hf : Fills n r u) :
    ∃ r', ensureBitsPadded n r = .ok ((),r') ∧ Reads r' u ∧ Kept r r' ∧ n ≤ r'.bits ∧
      ∀ m, Fills m r' u ↔ Fills m r u := by
  obtain ⟨hr,hk,hmore,hend⟩ := reads_refillTo hn h
  obtain ⟨hpads,hsynthetic,hhalted⟩ := pads_refillTo n r
  unfold BitReader.ensureBitsPadded
  dsimp only
  by_cases hbits : (refillTo n r).bits < n
  · have hd : Drained (refillTo n r) := hend.resolve_left (by omega)
    have hlen := hr.length_le hd.1
    have hp : Pads r := hf.resolve_left (by omega)
    have hpadding := (hhalted.resolve_left (by omega)).mp (hpads.mpr hp)
    obtain ⟨hreads,hpk,hpbits,-⟩ := reads_pad hr hd.1 (by omega :
      (refillTo n r).bits+(n-(refillTo n r).bits) ≤ 64)
    refine ⟨_,?_,hreads,hk.trans hpk,by omega,fun m =>
      iff_of_true (.inr ((pads_pad _).mpr (hpads.mpr hp))) (.inr hp)⟩
    rw [if_pos hbits,if_neg]
    rintro ⟨hnone,hnot⟩
    rw [hnone] at hpadding
    exact hnot (hpadding.resolve_left nofun)
  · by_cases hfirst : r.bits < n
    · obtain ⟨ht,htk,htbits,-⟩ := reads_refillTo (by decide : refillThreshold ≤ 57) hr
      obtain ⟨htpads,htsynthetic,-⟩ := pads_refillTo refillThreshold (refillTo n r)
      refine ⟨_,?_,ht,hk.trans htk,Nat.le_trans (Nat.le_of_not_lt hbits) htbits,fun m => ?_⟩
      · rw [if_neg hbits,if_pos hfirst]
        rfl
      · rw [Fills,Fills,htsynthetic,hsynthetic,htpads,hpads]
    · refine ⟨_,?_,hr,hk,by omega,fun m => ?_⟩
      · rw [if_neg hbits,if_neg hfirst]
      · rw [Fills,Fills,hsynthetic,hpads]

theorem Reads.bits_le {r : BitReader} {u : List ℕ} (h : Reads r u) :
    r.bits ≤ u.length+r.syntheticBits := by
  obtain ⟨l,hl,rfl,-,-⟩ := h
  rw [← hl.length_eq,List.length_append]
  omega

/-- Where it cannot show so many bits the reader fails. -/
theorem ensureBitsPadded_error {n : ℕ} (hn : n ≤ 57) {r : BitReader} {u : List ℕ} (h : Reads r u)
    (hf : ¬Fills n r u) : ensureBitsPadded n r = .error tableExhausted := by
  obtain ⟨hlen,hp⟩ := not_or.mp hf
  obtain ⟨hr,hk,hmore,hend⟩ := reads_refillTo hn h
  obtain ⟨hpads,hsynthetic,hhalted⟩ := pads_refillTo n r
  have hbits : (refillTo n r).bits < n := by
    have := hr.bits_le
    omega
  have hnot := mt (hhalted.resolve_left (by omega)).mpr (mt hpads.mp hp)
  rw [not_or] at hnot
  unfold BitReader.ensureBitsPadded
  dsimp only
  rw [if_pos hbits,if_pos ⟨by simpa using hnot.1,hnot.2⟩]

/-! ## What is left after a look -/

variable {r : BitReader} {u w : List ℕ} {n : ℕ}

/-- All bits that can be shown without padding. -/
theorem consumed_shown (h : Reads r u) (hn : n ≤ r.bits) :
    (u.drop n).length+(consumed n r).syntheticBits = u.length+r.syntheticBits-n := by
  obtain ⟨l,hl,rfl,-,hsynthetic⟩ := h
  have hlength := hl.length_eq
  have hreal : r.bits-r.syntheticBits = l.length := by omega
  rw [List.length_drop]
  show _+(if r.bits-r.syntheticBits < n then r.syntheticBits-(n-(r.bits-r.syntheticBits))
    else r.syntheticBits) = _
  rw [hreal]
  split_ifs with hlt
  · have hnil := hsynthetic (by omega)
    rw [hnil]
    simp only [bytesBits,List.flatMap_nil,List.append_nil]
    omega
  · rw [List.length_append]
    omega

theorem ensureBitsPadded_shown (hn : n ≤ 57) (h : Reads r u) {r' : BitReader}
    (hrun : ensureBitsPadded n r = .ok ((),r')) :
    u.length+r'.syntheticBits ≤ max n (u.length+r.syntheticBits) := by
  obtain ⟨hr,-,-,hend⟩ := reads_refillTo hn h
  obtain ⟨-,hsynthetic,-⟩ := pads_refillTo n r
  obtain ⟨-,hthreshold,-⟩ := pads_refillTo refillThreshold (refillTo n r)
  have hpad : ∀ count (s : BitReader), (pad count s).syntheticBits = s.syntheticBits+count := by
    intro count
    induction count with
    | zero => exact fun _ => rfl
    | succ count ih =>
        intro s
        rw [pad,ih]
        dsimp only
        omega
  unfold ensureBitsPadded at hrun
  dsimp only at hrun
  split_ifs at hrun with hbits hnone hfirst
  · obtain rfl := (Prod.mk.inj (Except.ok.inj hrun)).2
    have hlen := hr.length_le (hend.resolve_left (by omega)).1
    rw [hpad]
    omega
  · obtain rfl := (Prod.mk.inj (Except.ok.inj hrun)).2
    rw [refillToThreshold,hthreshold,hsynthetic]
    exact le_max_right _ _
  · obtain rfl := (Prod.mk.inj (Except.ok.inj hrun)).2
    rw [hsynthetic]
    exact le_max_right _ _

/-- A refill does not count more bits than there are. -/
theorem bits_refillLoop (limit turns : ℕ) (r : BitReader) :
    (refillLoop limit turns r).bits+8*(refillLoop limit turns r).ahead.length =
      r.bits+8*r.ahead.length := by
  induction turns generalizing r with
  | zero => rfl
  | succ turns ih =>
      have hone : r.refillOneByte.2.bits+8*r.refillOneByte.2.ahead.length =
          r.bits+8*r.ahead.length := by
        obtain ⟨hnil,pos,marker,markerEnd,hrun,-,hdrained⟩ | ⟨b,ds,pos,hahead,hrun,hds,-,-⟩ :=
          refillOneByte_spec r
        · rw [hdrained.1,hnil,hrun]
        · rw [hds,hahead,hrun,List.length_cons]
          show r.bits+8+_ = _
          omega
      rw [refillLoop]
      split_ifs
      · exact (ih _).trans hone
      · exact hone
      · rfl

theorem bits_refillTo_le (h : Reads r u) (limit : ℕ) :
    (refillTo limit r).bits ≤ u.length+r.syntheticBits := by
  have hcount := bits_refillLoop limit limit r
  obtain ⟨l,hl,rfl,-,-⟩ := h
  have hlength := hl.length_eq
  have hbytes : (bytesBits r.ahead).length = 8*r.ahead.length := by
    simp [bytesBits,byteBits,length_codeBits,Nat.mul_comm]
  unfold refillTo
  rw [List.length_append,hbytes]
  omega

theorem ensureBits_short (h : Reads r u) (hshort : u.length+r.syntheticBits < n) :
    ensureBits n r = .error tableExhausted := by
  have hbits := bits_refillTo_le h n
  unfold ensureBits
  dsimp only
  rw [if_pos (by omega)]

theorem ensureBits_held (hbits : n ≤ r.bits) : ensureBits n r = .ok ((),r) := by
  have hrefill : refillTo n r = r := by
    unfold refillTo
    cases n with
    | zero => rfl
    | succ n => exact if_neg (Nat.not_lt.mpr hbits)
  unfold ensureBits
  dsimp only
  rw [hrefill,if_neg (Nat.not_lt.mpr hbits)]

/-- The reader after the bits that are looked at were fetched. -/
structure Looked (n : ℕ) (r : BitReader) (u : List ℕ) (q : BitReader) : Prop where
  run : ensureBitsPadded n r = .ok ((),q)
  reads : Reads q u
  kept : Kept r q
  bits : n ≤ q.bits
  fills : ∀ m, Fills m q u ↔ Fills m r u
  shown : u.length+q.syntheticBits ≤ max n (u.length+r.syntheticBits)

theorem exists_looked (hn : n ≤ 57) (h : Reads r u) (hf : Fills n r u) : ∃ q, Looked n r u q := by
  obtain ⟨q,hrun,hq,hk,hbits,hfills⟩ := fills_ensureBitsPadded hn h hf
  exact ⟨q,hrun,hq,hk,hbits,hfills,ensureBitsPadded_shown hn h hrun⟩

/-- The reader after `k` of `n` bits were taken. -/
structure Took (k n : ℕ) (r : BitReader) (u : List ℕ) (r' : BitReader) : Prop where
  reads : Reads r' (u.drop k)
  kept : Kept r r'
  bits : n ≤ r'.bits+k
  shown : (u.drop k).length+r'.syntheticBits ≤ max n (u.length+r.syntheticBits)-k

theorem Looked.take {q : BitReader} (h : Looked n r u q) {k : ℕ} (hk : k ≤ n) :
    Took k n r u (consumed k q) := by
  obtain ⟨hreads,hkept,-⟩ := reads_consumed h.reads (hk.trans h.bits)
  refine ⟨hreads,h.kept.trans hkept,?_,?_⟩
  · have := h.bits
    show n ≤ q.bits-k+k
    omega
  · rw [consumed_shown h.reads (hk.trans h.bits)]
    exact Nat.sub_le_sub_right h.shown k

theorem Took.left {k : ℕ} {r' : BitReader} (h : Took k n r (w ++ u) r') (hk : w.length = k) :
    Reads r' u := by
  have hreads := h.reads
  rw [List.drop_left' hk] at hreads
  exact hreads

end J2kNative.BitReader
