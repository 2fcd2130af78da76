import J2kNative.HuffmanCodes

/-!
# Decoding the codes of a table

What the decoding steps yield at a reader that has a code of the table ahead,
whether it is found by the next twelve bits or by the comparisons for longer codes.
-/
namespace J2kNative

open BitReader

variable {raw : RawHuffmanTable} {role : HuffmanTableRole} {codes : List ℕ} {table : HuffmanTable}
  {p symbol code len : ℕ} {r : BitReader} {m u : List ℕ}

theorem CodeAt.bitValue_codeBits (hcanonical : CanonicalCodes raw codes)
    (h : CodeAt raw codes p symbol code len) : bitValue (codeBits code len) = code :=
  (J2kNative.bitValue_codeBits code len).trans (Nat.mod_eq_of_lt (hcanonical.lt h))

/-- What the lookup finds where a code is ahead: its symbol, or that it is a long one. -/
theorem fast_ahead (hbuilt : BuiltFrom raw role codes table)
    (h : CodeAt raw codes p symbol code len) (hr : Reads r u)
    (hahead : Ahead u (codeBits code len)) (hbits : fastBits ≤ r.bits) :
    table.fast (r.peekBits fastBits) = if len ≤ fastBits then (symbol,len) else (0,0) := by
  rw [hbuilt.fast_eq]
  have hvalue := h.bitValue_codeBits hbuilt.canonical
  split_ifs with hlen
  · apply fast_of_codeAt hbuilt.canonical h hlen
    have hstart := peek_starts hr hahead (by rw [length_codeBits]; exact hlen) (by decide) hbits
    rw [length_codeBits,hvalue] at hstart
    exact hstart
  · have hlong : fastBits < len := Nat.lt_of_not_le hlen
    have hpeek : r.peekBits fastBits = code/2^(len-fastBits) := by
      have hle : ∀ b ∈ codeBits code len, b ≤ 1 := fun b hb => codeBits_le hb
      have hsplit := (bitValue_split hle (n := fastBits)).1
      rw [length_codeBits,hvalue] at hsplit
      rw [Ahead,length_codeBits] at hahead
      rw [peek_view hr hbits (by decide),hsplit,← hahead,List.take_take,min_eq_left hlong.le]
    rw [hpeek]
    exact fast_of_long hbuilt.canonical h hlong

/-- The bits that must be there for a code of so many. -/
def lookahead (len : ℕ) : ℕ := if len ≤ fastBits then fastBits else 16

theorem fastBits_le_lookahead (len : ℕ) : fastBits ≤ lookahead len := by
  unfold lookahead fastBits
  split_ifs <;> decide

/-- A code of the table gives its symbol, and nothing else is read. -/
theorem decode_code (hbuilt : BuiltFrom raw role codes table)
    (h : CodeAt raw codes p symbol code len) (hr : Reads r u)
    (hahead : Ahead u (codeBits code len)) (hf : Fills (lookahead len) r u) :
    ∃ r', table.decode r = .ok (symbol,r') ∧ Took len (lookahead len) r u r' := by
  have hvalue := h.bitValue_codeBits hbuilt.canonical
  obtain ⟨q,hq⟩ := exists_looked (by decide : fastBits ≤ 57) hr (hf.mono (fastBits_le_lookahead len))
  have hfast := fast_ahead hbuilt h hq.reads hahead hq.bits
  by_cases hlen : len ≤ fastBits
  · rw [if_pos hlen] at hfast
    rw [lookahead,if_pos hlen]
    refine ⟨consumed len q,(run_bind_ok hq.run).trans ?_,hq.take hlen⟩
    show (if (table.fast (q.peekBits fastBits)).2 ≠ 0 then
      consumeBits (table.fast (q.peekBits fastBits)).2 >>= fun _ =>
        pure (table.fast (q.peekBits fastBits)).1 else table.decodeSlow : Read ℕ) q = _
    rw [hfast,if_pos (Nat.ne_of_gt h.len_pos.1)]
    rfl
  · rw [if_neg hlen] at hfast
    rw [lookahead,if_neg hlen] at hf ⊢
    obtain ⟨q',hq'⟩ := exists_looked (by decide : 16 ≤ 57) hq.reads ((hq.fills 16).mpr hf)
    have hlen16 := h.len_pos.2
    have hcode16 := peek_starts hq'.reads hahead (by rw [length_codeBits]; exact hlen16) (le_refl 16)
      hq'.bits
    rw [length_codeBits,hvalue] at hcode16
    obtain ⟨hslow,hsymbol⟩ := slow_of_codeAt hbuilt h (Nat.lt_of_not_le hlen) hcode16
    have htook := hq'.take hlen16
    have hrun : table.decodeSlow q = .ok (symbol,consumed len q') := by
      refine (run_bind_ok hq'.run).trans ((run_bind_ok rfl).trans ?_)
      rw [hslow]
      dsimp only
      rw [hsymbol]
      rfl
    refine ⟨consumed len q',(run_bind_ok hq.run).trans ?_,htook.reads,hq.kept.trans htook.kept,
      htook.bits,?_⟩
    · show (if (table.fast (q.peekBits fastBits)).2 ≠ 0 then _ else table.decodeSlow : Read ℕ) q = _
      rw [hfast,if_neg (not_not.mpr rfl)]
      exact hrun
    · have hshown := htook.shown
      have hfirst := hq.shown
      unfold fastBits at hfirst
      omega

/-- Without the bits that are looked at a code is refused, even if it is there. -/
theorem decode_short (hbuilt : BuiltFrom raw role codes table)
    (h : CodeAt raw codes p symbol code len) (hr : Reads r u)
    (hahead : Ahead u (codeBits code len)) (hf : ¬Fills (lookahead len) r u) :
    table.decode r = .error tableExhausted := by
  by_cases h12 : Fills fastBits r u
  · have hlong : ¬len ≤ fastBits := fun hle => hf (by rw [lookahead,if_pos hle]; exact h12)
    rw [lookahead,if_neg hlong] at hf
    obtain ⟨q,hq⟩ := exists_looked (by decide : fastBits ≤ 57) hr h12
    have hfast := fast_ahead hbuilt h hq.reads hahead hq.bits
    rw [if_neg hlong] at hfast
    refine (run_bind_ok hq.run).trans ?_
    show (if (table.fast (q.peekBits fastBits)).2 ≠ 0 then _ else table.decodeSlow : Read ℕ) q = _
    rw [hfast,if_neg (not_not.mpr rfl)]
    exact run_bind_error (ensureBitsPadded_error (by decide) hq.reads (mt (hq.fills 16).mp hf))
  · exact run_bind_error (ensureBitsPadded_error (by decide) hr h12)

/-- The value of magnitude bits. -/
def magnitudeOf (m : List ℕ) : ℤ := if m.length = 0 then 0 else extend (bitValue m) m.length

theorem magnitudeOf_bounds (hm : ∀ b ∈ m, b ≤ 1) (hlen : m.length ≤ 15) :
    -2^15 < magnitudeOf m ∧ magnitudeOf m < 2^15 := by
  have hlt := bitValue_lt hm
  have hpow : 2^m.length ≤ 2^15 := Nat.pow_le_pow_right Nat.two_pos hlen
  have hcast : ((2^m.length : ℕ) : ℤ) = (2 : ℤ)^m.length := Nat.cast_pow 2 m.length
  unfold magnitudeOf extend
  split_ifs <;> omega

/-- The packed entry of a code with its magnitude. -/
theorem packed_ahead (hbuilt : BuiltFrom raw role codes table)
    (h : CodeAt raw codes p symbol code len) (hm : ∀ b ∈ m, b ≤ 1)
    (hfits : len+m.length ≤ fastBits) {idx : ℕ}
    (hidx : idx/2^(fastBits-(len+m.length)) = bitValue (codeBits code len ++ m)) :
    table.packed idx = packedEntry role idx symbol len ∧
      packedMagnitude idx len m.length = magnitudeOf m := by
  rw [bitValue_append,h.bitValue_codeBits hbuilt.canonical] at hidx
  have hlt := bitValue_lt hm
  have hcode : idx/2^(fastBits-len) = code := by
    rw [show fastBits-len = fastBits-(len+m.length)+m.length by omega,pow_add,
      ← Nat.div_div_eq_div_mul,hidx,Nat.mul_comm,Nat.mul_add_div (Nat.two_pow_pos _),
      Nat.div_eq_of_lt hlt,Nat.add_zero]
  constructor
  · rw [hbuilt.packed_eq,hbuilt.fast_eq,fast_of_codeAt hbuilt.canonical h (by omega) hcode]
  · unfold packedMagnitude magnitudeOf
    rw [Nat.shiftRight_eq_div_pow,hidx,Nat.and_two_pow_sub_one_eq_mod,Nat.mul_comm,
      Nat.mul_add_mod,Nat.mod_eq_of_lt hlt]

theorem receiveExtend_code (hr : Reads r (m ++ u)) (hlen : m.length ≤ 57) :
    ∃ r', receiveExtend m.length r = .ok (magnitudeOf m,r') ∧ Reads r' u ∧ Kept r r' := by
  unfold receiveExtend magnitudeOf
  by_cases hzero : m.length = 0
  · rw [if_pos hzero,if_pos hzero]
    rw [List.length_eq_zero_iff.mp hzero] at hr
    exact ⟨r,rfl,hr,⟨rfl,rfl⟩⟩
  · rw [if_neg hzero,if_neg hzero]
    obtain ⟨q,hensure,hq,hkept,hbits⟩ := reads_ensureBits hlen hr (by simp)
    obtain ⟨hr',hk,-⟩ := reads_consumed hq hbits
    rw [List.drop_left] at hr'
    refine ⟨consumed m.length q,?_,hr',hkept.trans hk⟩
    have hpeek : q.peekBits m.length = bitValue m := by
      rw [peekBits_eq hq hbits,List.append_assoc,List.take_left]
    show (ensureBits m.length r >>= fun p => _) = _
    rw [hensure]
    show Except.ok (extend (q.peekBits m.length) m.length,consumed m.length q) = _
    rw [hpeek]

/-- Where the code and the magnitude do not both lie in the twelve bits, the packed entry is
open. -/
theorem decodeFastDc_open (hbuilt : BuiltFrom raw .dc codes table)
    (h : CodeAt raw codes p symbol code len) (hr : Reads r u)
    (hahead : Ahead u (codeBits code len)) (hf : Fills (lookahead len) r u)
    (hopen : ¬(symbol ≤ 15 ∧ len+symbol ≤ fastBits)) :
    ∃ q, table.decodeFastDc r = (if 15 < symbol then throw (huffmanFailure .invalidSymbol)
      else receiveExtend symbol : Read ℤ) q ∧ Took len (lookahead len) r u q := by
  obtain ⟨q,hq⟩ := exists_looked (by decide : fastBits ≤ 57) hr (hf.mono (fastBits_le_lookahead len))
  have hzero : table.packed (q.peekBits fastBits) = 0 := by
    rw [hbuilt.packed_eq,fast_ahead hbuilt h hq.reads hahead hq.bits]
    by_cases hlen : len ≤ fastBits
    · rw [if_pos hlen]
      unfold packedEntry
      dsimp only
      rw [if_neg (Nat.ne_of_gt h.len_pos.1),if_neg hopen]
    · rw [if_neg hlen]
      rfl
  obtain ⟨q',hdecode,htook⟩ := decode_code hbuilt h hq.reads hahead ((hq.fills _).mpr hf)
  refine ⟨q',(run_bind_ok hq.run).trans ?_,htook.reads,hq.kept.trans htook.kept,htook.bits,?_⟩
  · show (if table.packed (q.peekBits fastBits) ≠ 0 then _ else _ : Read ℤ) q = _
    rw [hzero,if_neg (not_not.mpr rfl)]
    exact run_bind_ok hdecode
  · have hshown := htook.shown
    have hfirst := hq.shown
    have := fastBits_le_lookahead len
    omega

/-- A category with its magnitude gives the difference, and nothing else is read. -/
theorem decodeFastDc_code (hbuilt : BuiltFrom raw .dc codes table)
    (h : CodeAt raw codes p m.length code len) (hlen : m.length ≤ 15)
    (hr : Reads r (codeBits code len ++ m ++ u))
    (hf : Fills (lookahead len) r (codeBits code len ++ m ++ u)) :
    ∃ r', table.decodeFastDc r = .ok (magnitudeOf m,r') ∧ Reads r' u ∧ Kept r r' := by
  have hm : ∀ b ∈ m, b ≤ 1 := fun b hb =>
    hr.le_one b (List.mem_append_left _ (List.mem_append_right _ hb))
  by_cases hfits : len+m.length ≤ fastBits
  · have hlength : (codeBits code len ++ m).length = len+m.length := by
      rw [List.length_append,length_codeBits]
    have hbounds := magnitudeOf_bounds hm hlen
    have hpacked : ∀ idx, idx/2^(fastBits-(codeBits code len ++ m).length) =
        bitValue (codeBits code len ++ m) →
        table.packed idx = packDcValue (codeBits code len ++ m).length (magnitudeOf m) :=
      fun idx hidx => by
        rw [hlength] at hidx
        obtain ⟨hentry,hmagnitude⟩ := packed_ahead hbuilt h hm hfits hidx
        rw [hentry]
        unfold packedEntry
        dsimp only
        rw [if_neg (Nat.ne_of_gt h.len_pos.1),if_pos ⟨hlen,hfits⟩,hlength,hmagnitude]
    obtain ⟨r',hrun,htook⟩ := decodeFastDc_packed
      (by rw [hlength]; exact Nat.add_pos_left h.len_pos.1 _) (by rw [hlength]; exact hfits) hpacked
      (by omega) hr (ahead_append _ u) (hf.mono (fastBits_le_lookahead len))
    exact ⟨r',hrun,htook.left rfl,htook.kept⟩
  · rw [List.append_assoc] at hr hf
    obtain ⟨q,hdecode,htook⟩ := decodeFastDc_open hbuilt h hr (ahead_append _ _) hf fun hopen =>
      hfits hopen.2
    rw [if_neg (Nat.not_lt.mpr hlen)] at hdecode
    obtain ⟨r',hreceive,hr',hkept'⟩ := receiveExtend_code (htook.left (length_codeBits code len))
      (by omega)
    exact ⟨r',hdecode.trans hreceive,hr',htook.kept.trans hkept'⟩

/-- Category 16 is refused. -/
theorem decodeFastDc_invalid (hbuilt : BuiltFrom raw .dc codes table)
    (h : CodeAt raw codes p symbol code len) (hsymbol : 15 < symbol)
    (hr : Reads r (codeBits code len ++ u))
    (hf : Fills (lookahead len) r (codeBits code len ++ u)) :
    table.decodeFastDc r = .error (huffmanFailure .invalidSymbol) := by
  obtain ⟨q,hdecode,-⟩ := decodeFastDc_open hbuilt h hr (ahead_append _ u) hf fun hopen => by omega
  rw [if_pos hsymbol] at hdecode
  exact hdecode

end J2kNative
