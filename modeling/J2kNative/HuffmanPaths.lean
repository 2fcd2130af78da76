import J2kNative.BitSerial

/-!
# Every decoding path against the procedures bit by bit

The lookup, the packed entries with their magnitudes, the comparisons for the long
codes and the path that passes the magnitudes over take the same codes and values
as the standard's procedures, from the same bits, wherever the reader can show the
bits they look at.
-/
namespace J2kNative.HuffmanPaths

open BitReader BitSerial

/-! ## Packed words -/

/-- What the block decoders take from a word. -/
def stepOf (packed : ℕ) : AcStep :=
  if packed &&& acFastKindMask = acFastEob then .eob
  else if packed &&& acFastKindMask = acFastZrl then .zrl
  else .value (acDecodedRun packed) (acDecodedValue packed)

/-- The part of a word at a place, as a number. -/
theorem and_shift (n k s : ℕ) : n &&& (2^k-1) <<< s = (n/2^s % 2^k) <<< s := by
  rw [← Nat.and_two_pow_sub_one_eq_mod,← Nat.shiftRight_eq_div_pow]
  apply Nat.eq_of_testBit_eq
  intro i
  rw [Nat.testBit_and,Nat.testBit_shiftLeft,Nat.testBit_shiftLeft,Nat.testBit_and,
    Nat.testBit_shiftRight]
  by_cases hi : s ≤ i
  · rw [Nat.add_sub_cancel' hi]
    simp [hi]
  · simp [hi]

/-- The parts of a word of a tag, a value, a run and a length. -/
theorem word_parts {tag d run len : ℕ} (htag : tag < 16) (hd : d < 2^16) (hrun : run < 16)
    (hlen : len < 16) {packed : ℕ} (h : packed = tag*2^28+d*2^8+run*2^4+len) :
    packed &&& acFastKindMask = tag <<< 28 ∧ acDecodedRun packed = run ∧
      acDecodedValue packed = fromU16 d ∧ packed &&& 0xF = len := by
  have hkind := and_shift packed 4 28
  have hruns := and_shift packed 4 4
  have hmask : acFastKindMask = (2^4-1) <<< 28 := rfl
  refine ⟨?_,?_,?_,?_⟩
  · rw [hmask,hkind,show packed/2^28 % 2^4 = tag by omega]
  · rw [acDecodedRun,show (0xF0 : ℕ) = (2^4-1) <<< 4 from rfl,hruns,Nat.shiftLeft_shiftRight]
    omega
  · rw [acDecodedValue,show (0xFFFF : ℕ) = 2^16-1 from rfl,Nat.and_two_pow_sub_one_eq_mod,
      Nat.shiftRight_eq_div_pow,show packed/2^8 % 2^16 = d by omega]
  · rw [show (0xF : ℕ) = 2^4-1 from rfl,Nat.and_two_pow_sub_one_eq_mod]
    omega

theorem packAcValue_eq {len run : ℕ} (hlen : len < 16) (hrun : run < 16) (v : ℤ) :
    packAcValue len run v = 1*2^28+toU16 v*2^8+run*2^4+len := by
  have hv := toU16_lt v
  have htag : acFastValue ||| toU16 v <<< 8 = (2^20+toU16 v) <<< 8 := by
    rw [acFastValue,← Nat.shiftLeft_add_eq_or_of_lt (by rw [Nat.shiftLeft_eq]; omega)]
    simp only [Nat.shiftLeft_eq]
    omega
  have hruns : (2^20+toU16 v) <<< 8 ||| run <<< 4 = ((2^20+toU16 v)*2^4+run) <<< 4 := by
    rw [← Nat.shiftLeft_add_eq_or_of_lt (by rw [Nat.shiftLeft_eq]; omega)]
    simp only [Nat.shiftLeft_eq]
    omega
  rw [packAcValue,htag,hruns,← Nat.shiftLeft_add_eq_or_of_lt (by omega)]
  simp only [Nat.shiftLeft_eq]
  omega

theorem packAcEob_eq {len : ℕ} (hlen : len < 16) : packAcEob len = 2*2^28+0*2^8+0*2^4+len := by
  rw [packAcEob,acFastEob,← Nat.shiftLeft_add_eq_or_of_lt (by omega),Nat.shiftLeft_eq]
  omega

theorem packAcZrl_eq {len : ℕ} (hlen : len < 16) : packAcZrl len = 3*2^28+0*2^8+15*2^4+len := by
  have htag : acFastZrl ||| 15 <<< 4 = (3*2^24+15) <<< 4 := rfl
  rw [packAcZrl,htag,← Nat.shiftLeft_add_eq_or_of_lt (by omega),Nat.shiftLeft_eq]
  omega

theorem stepOf_packAcEob {len : ℕ} (hlen : len < 16) :
    stepOf (packAcEob len) = .eob ∧ packAcEob len &&& 0xF = len ∧ packAcEob len ≠ 0 := by
  obtain ⟨hkind,-,-,hlow⟩ := word_parts (by decide) (by decide) (by decide) hlen (packAcEob_eq hlen)
  exact ⟨if_pos hkind,hlow,by rw [packAcEob_eq hlen]; omega⟩

theorem stepOf_packAcZrl {len : ℕ} (hlen : len < 16) :
    stepOf (packAcZrl len) = .zrl ∧ packAcZrl len &&& 0xF = len ∧ packAcZrl len ≠ 0 := by
  obtain ⟨hkind,-,-,hlow⟩ := word_parts (by decide) (by decide) (by decide) hlen (packAcZrl_eq hlen)
  refine ⟨?_,hlow,by rw [packAcZrl_eq hlen]; omega⟩
  rw [stepOf,hkind]
  rfl

theorem stepOf_packAcValue {len run : ℕ} (hlen : len < 16) (hrun : run < 16) {v : ℤ}
    (hv : -2^15 ≤ v ∧ v < 2^15) :
    stepOf (packAcValue len run v) = .value run v ∧ packAcValue len run v &&& 0xF = len ∧
      packAcValue len run v ≠ 0 := by
  obtain ⟨hkind,hruns,hvalue,hlow⟩ := word_parts (by decide) (toU16_lt v) hrun hlen
    (packAcValue_eq hlen hrun v)
  refine ⟨?_,hlow,by rw [packAcValue_eq hlen hrun]; omega⟩
  rw [stepOf,hkind,hruns,hvalue,fromU16_toU16 hv]
  rfl

variable {raw : RawHuffmanTable} {role : HuffmanTableRole} {codes : List ℕ} {table : HuffmanTable}
  {p symbol code len n : ℕ} {r : BitReader} {u w : List ℕ}

/-! ## Bits that are no code -/

theorem fast_of_noCode (hbuilt : BuiltFrom raw role codes table) (hno : NoCode raw codes u 16)
    (hbits : ∀ b ∈ u, b ≤ 1) (hu : 16 ≤ u.length) :
    table.fast (bitValue (u.take fastBits)) = (0,0) := by
  rw [hbuilt.fast_eq,fastEntries,foldl_fill_of_not]
  rintro ⟨code,len,symbol⟩ he heq
  obtain ⟨hmem,hlen⟩ := List.mem_filter.mp he
  have hlen : len ≤ fastBits := by simpa using hlen
  obtain ⟨q,hq⟩ := mem_tableEntries hmem
  have hlt := hno len hq.len_pos.2 hq.len_pos.1
  have hle := code_le_maxCode hbuilt.canonical hq
  rw [take_value hbits ((by decide : fastBits ≤ 16).trans hu) hlen] at heq
  dsimp only at heq hle
  omega

theorem slowLen_of_noCode (hbuilt : BuiltFrom raw role codes table) (hno : NoCode raw codes u 16)
    (hbits : ∀ b ∈ u, b ≤ 1) (hu : 16 ≤ u.length) :
    table.slowLen (bitValue (u.take 16)) = none := by
  unfold HuffmanTable.slowLen
  rw [List.find?_eq_none]
  intro l hl
  have hrange : 0 < l ∧ l ≤ 16 := by
    simp only [List.mem_cons,List.not_mem_nil,or_false] at hl
    omega
  have hlt := hno l hrange.2 hrange.1
  rw [decide_eq_true_eq,Nat.shiftRight_eq_div_pow,take_value hbits hu hrange.2,hbuilt.maxCode_eq]
  exact Int.not_le.mpr hlt

/-- The lookup finds nothing. -/
theorem noCode_ahead (hbuilt : BuiltFrom raw role codes table)
    (hno : NoCode raw codes (u ++ List.replicate 16 1) 16) (hr : Reads r u)
    (hf : Fills fastBits r u) :
    ∃ q, Looked fastBits r u q ∧ table.fast (q.peekBits fastBits) = (0,0) ∧
      table.packed (q.peekBits fastBits) = 0 := by
  obtain ⟨q,hq⟩ := exists_looked (by decide : fastBits ≤ 57) hr hf
  have hfast : table.fast (q.peekBits fastBits) = (0,0) := by
    rw [peek_view hq.reads hq.bits (by decide)]
    exact fast_of_noCode hbuilt hno (view_le hr) (view_length u)
  refine ⟨q,hq,hfast,?_⟩
  rw [hbuilt.packed_eq,hfast]
  rfl

/-- Sixteen bits that start with no code are refused. -/
theorem decode_noCode (hbuilt : BuiltFrom raw role codes table)
    (hno : NoCode raw codes (u ++ List.replicate 16 1) 16) (hr : Reads r u) :
    ∃ e, table.decode r = .error e := by
  by_cases hf : Fills fastBits r u
  · obtain ⟨q,hq,hfast,-⟩ := noCode_ahead hbuilt hno hr hf
    have hslow : ∃ e, table.decodeSlow q = .error e := by
      by_cases hf16 : Fills 16 r u
      · obtain ⟨q',hq'⟩ := exists_looked (by decide : 16 ≤ 57) hq.reads ((hq.fills 16).mpr hf16)
        refine ⟨huffmanFailure .codeOverflow,(run_bind_ok hq'.run).trans
          ((run_bind_ok rfl).trans ?_)⟩
        rw [peek_view hq'.reads hq'.bits (le_refl 16),
          slowLen_of_noCode hbuilt hno (view_le hr) (view_length u)]
        rfl
      · exact ⟨_,run_bind_error
          (ensureBitsPadded_error (by decide) hq.reads (mt (hq.fills 16).mp hf16))⟩
    obtain ⟨e,hslow⟩ := hslow
    refine ⟨e,(run_bind_ok hq.run).trans ?_⟩
    show (if (table.fast (q.peekBits fastBits)).2 ≠ 0 then _ else table.decodeSlow : Read ℕ) q = _
    rw [hfast,if_neg (not_not.mpr rfl)]
    exact hslow
  · exact ⟨_,run_bind_error (ensureBitsPadded_error (by decide) hr hf)⟩

/-! ## The AC paths -/

/-- A path by the packed entries; `finish` takes the magnitude of a symbol that they leave open. -/
def fastAcWith (table : HuffmanTable) (finish : ℕ → Read ℕ) : Read ℕ := do
  ensureBitsPadded fastBits
  let next ← peek fastBits
  let packed := table.packed next
  if packed ≠ 0 then do
    consumeBits (packed &&& 0xF)
    pure packed
  else do
    let sym ← table.decodeUnpacked next
    finish sym

theorem fastAcWith_packed {finish : ℕ → Read ℕ} {packed : ℕ} (hlen : w.length ≤ fastBits)
    (hpacked : ∀ idx, idx/2^(fastBits-w.length) = bitValue w → table.packed idx = packed)
    (hword : packed &&& 0xF = w.length ∧ packed ≠ 0) (hr : Reads r u) (hahead : Ahead u w)
    (hf : Fills fastBits r u) :
    ∃ r', fastAcWith table finish r = .ok (packed,r') ∧ Took w.length fastBits r u r' := by
  obtain ⟨q,hq⟩ := exists_looked (by decide : fastBits ≤ 57) hr hf
  have hentry := hpacked _ (peek_starts hq.reads hahead hlen (by decide) hq.bits)
  refine ⟨consumed w.length q,(run_bind_ok hq.run).trans ?_,hq.take hlen⟩
  show (if table.packed (q.peekBits fastBits) ≠ 0 then _ else _ : Read ℕ) q = _
  rw [hentry,if_pos hword.2,hword.1]
  rfl

theorem fastAcWith_open {finish : ℕ → Read ℕ} (hbuilt : BuiltFrom raw .ac codes table)
    (h : CodeAt raw codes p symbol code len)
    (hopen : len ≤ fastBits → ∀ idx, packedEntry .ac idx symbol len = 0)
    (hr : Reads r u) (hahead : Ahead u (codeBits code len)) (hf : Fills (lookahead len) r u) :
    ∃ q, fastAcWith table finish r = finish symbol q ∧ Took len (lookahead len) r u q := by
  obtain ⟨q,hq⟩ := exists_looked (by decide : fastBits ≤ 57) hr (hf.mono (fastBits_le_lookahead len))
  have hfast := fast_ahead hbuilt h hq.reads hahead hq.bits
  have hzero : table.packed (q.peekBits fastBits) = 0 := by
    rw [hbuilt.packed_eq,hfast]
    split_ifs with hlen
    · exact hopen hlen _
    · rfl
  obtain ⟨q',hunpacked,htook⟩ : ∃ q', table.decodeUnpacked (q.peekBits fastBits) q =
      .ok (symbol,q') ∧ Took len (lookahead len) r u q' := by
    unfold HuffmanTable.decodeUnpacked
    rw [hfast]
    by_cases hlen : len ≤ fastBits
    · rw [if_pos hlen,lookahead,if_pos hlen]
      dsimp only
      rw [if_pos (Nat.ne_of_gt h.len_pos.1)]
      exact ⟨consumed len q,rfl,hq.take hlen⟩
    · rw [if_neg hlen]
      obtain ⟨q',hdecode,htook⟩ := decode_code hbuilt h hq.reads hahead ((hq.fills _).mpr hf)
      refine ⟨q',hdecode,htook.reads,hq.kept.trans htook.kept,htook.bits,?_⟩
      have hshown := htook.shown
      have hfirst := hq.shown
      have := fastBits_le_lookahead len
      omega
  refine ⟨q',(run_bind_ok hq.run).trans ?_,htook⟩
  show (if table.packed (q.peekBits fastBits) ≠ 0 then _ else _ : Read ℕ) q = _
  rw [hzero,if_neg (not_not.mpr rfl)]
  exact run_bind_ok hunpacked

theorem fastAcWith_noCode {finish : ℕ → Read ℕ} (hbuilt : BuiltFrom raw .ac codes table)
    (hno : NoCode raw codes (u ++ List.replicate 16 1) 16) (hr : Reads r u) :
    ∃ e, fastAcWith table finish r = .error e := by
  by_cases hf : Fills fastBits r u
  · obtain ⟨q,hq,hfast,hpacked⟩ := noCode_ahead hbuilt hno hr hf
    obtain ⟨e,hdecode⟩ := decode_noCode hbuilt hno hq.reads
    refine ⟨e,(run_bind_ok hq.run).trans ?_⟩
    show (if table.packed (q.peekBits fastBits) ≠ 0 then _ else _ : Read ℕ) q = _
    rw [hpacked,if_neg (not_not.mpr rfl)]
    refine run_bind_error ?_
    unfold HuffmanTable.decodeUnpacked
    rw [hfast]
    exact hdecode
  · exact ⟨_,run_bind_error (ensureBitsPadded_error (by decide) hr hf)⟩

theorem decodeFastDc_noCode (hbuilt : BuiltFrom raw .dc codes table)
    (hno : NoCode raw codes (u ++ List.replicate 16 1) 16) (hr : Reads r u) :
    ∃ e, table.decodeFastDc r = .error e := by
  by_cases hf : Fills fastBits r u
  · obtain ⟨q,hq,hfast,hpacked⟩ := noCode_ahead hbuilt hno hr hf
    obtain ⟨e,hdecode⟩ := decode_noCode hbuilt hno hq.reads
    refine ⟨e,(run_bind_ok hq.run).trans ?_⟩
    show (if table.packed (q.peekBits fastBits) ≠ 0 then _ else _ : Read ℤ) q = _
    rw [hpacked,if_neg (not_not.mpr rfl)]
    exact run_bind_error hdecode
  · exact ⟨_,run_bind_error (ensureBitsPadded_error (by decide) hr hf)⟩

/-- What a path does with a symbol that the packed entries leave open: `see` tells what its word
stands for. -/
structure Finishes (see : AcStep → AcStep) (finish : ℕ → Read ℕ) : Prop where
  zero : ∀ symbol, symbol % 16 = 0 → ∀ r, ∃ packed, finish symbol r = .ok (packed,r) ∧
    stepOf packed = if symbol/16 = 15 then .zrl else .eob
  value : ∀ symbol < 256, ∀ m u : List ℕ, m.length = symbol % 16 → 0 < m.length → ∀ r,
    Reads r (m ++ u) → ∃ packed r', finish symbol r = .ok (packed,r') ∧
      see (stepOf packed) = see (.value (symbol/16) (magnitudeOf m)) ∧ Reads r' u ∧ Kept r r'

theorem low_eq (symbol : ℕ) : symbol &&& 0xF = symbol % 16 :=
  Nat.and_two_pow_sub_one_eq_mod symbol 4

theorem high_eq (symbol : ℕ) : symbol >>> 4 = symbol/16 := Nat.shiftRight_eq_div_pow symbol 4

theorem packedEntry_ac (idx symbol len : ℕ) (hlen : len ≠ 0) (hsymbol : symbol < 256) :
    packedEntry .ac idx symbol len = if symbol % 16 = 0 then
        if symbol/16 = 0 then packAcEob len else if symbol/16 = 15 then packAcZrl len else 0
      else if fastBits < len+symbol % 16 then 0
      else packAcValue (len+symbol % 16) (symbol/16) (packedMagnitude idx len (symbol % 16)) := by
  have hhigh : symbol >>> 4 &&& 0xF = symbol/16 := by
    rw [low_eq,high_eq]
    omega
  unfold packedEntry
  rw [if_neg hlen]
  dsimp only
  rw [hhigh,low_eq]

/-- A symbol without a magnitude. -/
theorem fastAcWith_zero {see : AcStep → AcStep} {finish : ℕ → Read ℕ} (hfinish : Finishes see finish) (hbuilt : BuiltFrom raw .ac codes table) (h : CodeAt raw codes p symbol code len)
    (hsymbol : symbol < 256) (hzero : symbol % 16 = 0) (hr : Reads r (codeBits code len ++ u))
    (hf : Fills (lookahead len) r (codeBits code len ++ u)) :
    ∃ packed r', fastAcWith table finish r = .ok (packed,r') ∧
      stepOf packed = (if symbol/16 = 15 then .zrl else .eob) ∧ Reads r' u ∧ Kept r r' := by
  obtain ⟨hpos,hlen16⟩ := h.len_pos
  have hentry : ∀ idx, packedEntry .ac idx symbol len = if symbol/16 = 0 then packAcEob len
      else if symbol/16 = 15 then packAcZrl len else 0 := fun idx =>
    (packedEntry_ac idx symbol len (Nat.ne_of_gt hpos) hsymbol).trans (if_pos hzero)
  by_cases hpacked : len ≤ fastBits ∧ (symbol/16 = 0 ∨ symbol/16 = 15)
  · obtain ⟨hlen,hrun⟩ := hpacked
    have hlt : len < 16 := hlen.trans_lt (by decide)
    have hword : ∃ packed, (∀ idx, packedEntry .ac idx symbol len = packed) ∧
        stepOf packed = (if symbol/16 = 15 then .zrl else .eob) ∧ packed &&& 0xF = len ∧
          packed ≠ 0 := by
      rcases hrun with hrun | hrun
      · obtain ⟨hstep,hlow,hne⟩ := stepOf_packAcEob hlt
        refine ⟨_,fun idx => (hentry idx).trans (if_pos hrun),?_,hlow,hne⟩
        rw [hstep,if_neg (by omega)]
      · obtain ⟨hstep,hlow,hne⟩ := stepOf_packAcZrl hlt
        refine ⟨_,fun idx => (hentry idx).trans ((if_neg (by omega)).trans (if_pos hrun)),?_,hlow,
          hne⟩
        rw [hstep,if_pos hrun]
    obtain ⟨packed,hpacked,hstep,hlow,hne⟩ := hword
    have htable : ∀ idx, idx/2^(fastBits-(codeBits code len).length) = bitValue (codeBits code len) →
        table.packed idx = packed := fun idx hidx => by
      have hahead := (@packed_ahead raw .ac codes table p symbol code len [] hbuilt h nofun hlen idx (by
        rw [List.append_nil,List.length_nil,Nat.add_zero,← hidx,length_codeBits])).1
      rw [hahead,hpacked]
    obtain ⟨r',hrun,htook⟩ := @fastAcWith_packed table r (codeBits code len ++ u)
      (codeBits code len) finish packed (by rw [length_codeBits]; exact hlen) htable
      (by rw [length_codeBits]; exact ⟨hlow,hne⟩) hr (ahead_append _ u)
      (hf.mono (fastBits_le_lookahead len))
    exact ⟨packed,r',hrun,hstep,htook.left rfl,htook.kept⟩
  · have hopen : len ≤ fastBits → ∀ idx, packedEntry .ac idx symbol len = 0 := fun hlen idx => by
      rw [hentry idx,if_neg fun hrun => hpacked ⟨hlen,.inl hrun⟩,
        if_neg fun hrun => hpacked ⟨hlen,.inr hrun⟩]
    obtain ⟨q,hrun,htook⟩ := @fastAcWith_open raw codes table p symbol code len r
      (codeBits code len ++ u) finish hbuilt h hopen hr (ahead_append _ u) hf
    obtain ⟨packed,hok,hstep⟩ := hfinish.zero symbol hzero q
    exact ⟨packed,q,hrun.trans hok,hstep,htook.left (length_codeBits code len),htook.kept⟩

/-- A symbol with its magnitude. -/
theorem fastAcWith_value {see : AcStep → AcStep} {finish : ℕ → Read ℕ}
    (hfinish : Finishes see finish) (hbuilt : BuiltFrom raw .ac codes table)
    (h : CodeAt raw codes p symbol code len) (hsymbol : symbol < 256) {m : List ℕ}
    (hm : m.length = symbol % 16) (hpos : 0 < m.length)
    (hr : Reads r (codeBits code len ++ m ++ u))
    (hf : Fills (lookahead len) r (codeBits code len ++ m ++ u)) :
    ∃ packed r', fastAcWith table finish r = .ok (packed,r') ∧
      see (stepOf packed) = see (.value (symbol/16) (magnitudeOf m)) ∧ Reads r' u ∧ Kept r r' := by
  obtain ⟨hlenpos,hlen16⟩ := h.len_pos
  have hle : ∀ b ∈ m, b ≤ 1 := fun b hb =>
    hr.le_one b (List.mem_append_left _ (List.mem_append_right _ hb))
  have hentry : ∀ idx, packedEntry .ac idx symbol len =
      if fastBits < len+m.length then 0
      else packAcValue (len+m.length) (symbol/16) (packedMagnitude idx len m.length) :=
    fun idx => by
      rw [packedEntry_ac idx symbol len (Nat.ne_of_gt hlenpos) hsymbol,if_neg (by omega),hm]
  by_cases hfits : len+m.length ≤ fastBits
  · have hlength : (codeBits code len ++ m).length = len+m.length := by
      rw [List.length_append,length_codeBits]
    have hbounds := magnitudeOf_bounds hle (by omega)
    obtain ⟨hstep,hlow,hne⟩ := @stepOf_packAcValue (len+m.length) (symbol/16)
      (hfits.trans_lt (by decide)) (by omega) (magnitudeOf m) (by omega)
    have htable : ∀ idx, idx/2^(fastBits-(codeBits code len ++ m).length) =
        bitValue (codeBits code len ++ m) →
        table.packed idx = packAcValue (len+m.length) (symbol/16) (magnitudeOf m) :=
      fun idx hidx => by
        rw [hlength] at hidx
        obtain ⟨hahead,hmagnitude⟩ := packed_ahead hbuilt h hle hfits hidx
        rw [hahead,hentry,if_neg (Nat.not_lt.mpr hfits),hmagnitude]
    obtain ⟨r',hrun,htook⟩ := @fastAcWith_packed table r (codeBits code len ++ m ++ u)
      (codeBits code len ++ m) finish _ (by rw [hlength]; exact hfits) htable
      (by rw [hlength]; exact ⟨hlow,hne⟩) hr (ahead_append _ u)
      (hf.mono (fastBits_le_lookahead len))
    exact ⟨_,r',hrun,by rw [hstep],htook.left rfl,htook.kept⟩
  · have hopen : len ≤ fastBits → ∀ idx, packedEntry .ac idx symbol len = 0 := fun _ idx =>
      (hentry idx).trans (if_pos (Nat.lt_of_not_le hfits))
    rw [List.append_assoc] at hr hf
    obtain ⟨q,hrun,htook⟩ := @fastAcWith_open raw codes table p symbol code len r
      (codeBits code len ++ (m ++ u)) finish hbuilt h hopen hr (ahead_append _ _) hf
    obtain ⟨packed,r',hok,hsee,hr',hk⟩ := hfinish.value symbol hsymbol m u hm hpos q
      (htook.left (length_codeBits code len))
    exact ⟨packed,r',hrun.trans hok,hsee,hr',htook.kept.trans hk⟩

/-! ## The two AC paths -/

def finishDecode (symbol : ℕ) : Read ℕ :=
  let run := symbol >>> 4
  let ssss := symbol &&& 0xF
  if ssss = 0 then pure (if run = 15 then packAcZrl 0 else packAcEob 0)
  else do
    let value ← receiveExtend ssss
    pure (packAcValue 0 run value)

def finishSkip (symbol : ℕ) : Read ℕ :=
  let run := symbol >>> 4
  let ssss := symbol &&& 0xF
  if ssss = 0 then pure (if run = 15 then packAcZrl 0 else packAcEob 0)
  else do
    ensureBits ssss
    consumeBits ssss
    pure (packAcValue 0 run 0)

theorem decodeFastAc_eq (table : HuffmanTable) : table.decodeFastAc = fastAcWith table finishDecode :=
  rfl

theorem skipFastAc_eq (table : HuffmanTable) : table.skipFastAc = fastAcWith table finishSkip :=
  rfl

/-- What is left of a step when its magnitude is passed over. -/
def skipped : AcStep → AcStep
  | .value run _ => .value run 0
  | step => step

theorem stepOf_zero (run : ℕ) : stepOf (if run = 15 then packAcZrl 0 else packAcEob 0) =
    if run = 15 then .zrl else .eob := by
  split_ifs <;> rfl

theorem finishes_decode : Finishes id finishDecode where
  zero := fun symbol hzero r => by
    refine ⟨_,?_,stepOf_zero (symbol/16)⟩
    unfold finishDecode
    rw [low_eq,if_pos hzero,high_eq]
    rfl
  value := fun symbol hsymbol m u hm hpos r hr => by
    have hle : ∀ b ∈ m, b ≤ 1 := fun b hb => hr.le_one b (List.mem_append_left _ hb)
    have hbounds := magnitudeOf_bounds hle (by omega)
    obtain ⟨r',hreceive,hr',hk⟩ := receiveExtend_code hr (by omega)
    refine ⟨packAcValue 0 (symbol/16) (magnitudeOf m),r',?_,?_,hr',hk⟩
    · unfold finishDecode
      rw [low_eq,if_neg (by omega),high_eq,← hm]
      exact run_bind_ok hreceive
    · exact (stepOf_packAcValue (by decide) (by omega) (by omega)).1

theorem finishes_skip : Finishes skipped finishSkip where
  zero := fun symbol hzero r => by
    refine ⟨_,?_,stepOf_zero (symbol/16)⟩
    unfold finishSkip
    rw [low_eq,if_pos hzero,high_eq]
    rfl
  value := fun symbol hsymbol m u hm hpos r hr => by
    obtain ⟨q,hensure,hq,hkept,hbits⟩ := reads_ensureBits (by omega : m.length ≤ 57) hr (by simp)
    obtain ⟨hr',hk,-⟩ := reads_consumed hq hbits
    rw [List.drop_left] at hr'
    refine ⟨packAcValue 0 (symbol/16) 0,consumed m.length q,?_,?_,hr',hkept.trans hk⟩
    · unfold finishSkip
      rw [low_eq,if_neg (by omega),high_eq,← hm]
      exact run_bind_ok hensure
    · rw [(stepOf_packAcValue (by decide) (by omega) (by decide)).1]
      rfl

/-! ## Agreement -/

/-- A path yields what the procedure decodes and leaves the bits it leaves, and it fails where the
procedure finds no code. Nothing is asked where the real bits do not suffice. -/
def Follows {α β : Type} (observe : α → β) (path : Read α) (r : BitReader) :
    Except Failure (β × List ℕ) → Prop
  | .error .outOfBits => True
  | .error .noCode => ∃ e, path r = .error e
  | .ok (v,u) => ∃ a r', path r = .ok (a,r') ∧ observe a = v ∧ Reads r' u ∧ Kept r r'

/-- All paths of a table agree with the procedures on a reader with the real bits `u` ahead. -/
structure PathsAgree (raw : RawHuffmanTable) (role : HuffmanTableRole) (table : HuffmanTable)
    (r : BitReader) (u : List ℕ) : Prop where
  decode : Follows id table.decode r (decode raw (huffmanCodes raw) u)
  decodeFastDc : role = .dc →
    (∀ ssss rest, BitSerial.decode raw (huffmanCodes raw) u = .ok (ssss,rest) → ssss ≤ 15) →
    Follows id table.decodeFastDc r (difference raw (huffmanCodes raw) u)
  decodeFastAc : role = .ac →
    Follows stepOf table.decodeFastAc r (acStep raw (huffmanCodes raw) u)
  skipFastAc : role = .ac → Follows (skipped ∘ stepOf) table.skipFastAc r
    ((acStep raw (huffmanCodes raw) u).map (Prod.map skipped id))

/-- The reader can show the bits that are looked at for the next code. -/
def LooksAhead (raw : RawHuffmanTable) (r : BitReader) (u : List ℕ) : Prop :=
  ∀ symbol rest, decode raw (huffmanCodes raw) u = .ok (symbol,rest) →
    Fills (lookahead (u.length-rest.length)) r u

/-- An AC path that finishes the open symbols agrees. -/
theorem follows_fastAcWith {see : AcStep → AcStep} {finish : ℕ → Read ℕ}
    (hfinish : Finishes see finish) (hbuilt : BuiltFrom raw .ac codes table) (hr : Reads r u)
    (hlook : ∀ symbol rest, decode raw codes u = .ok (symbol,rest) →
      Fills (lookahead (u.length-rest.length)) r u) :
    Follows (see ∘ stepOf) (fastAcWith table finish) r
      ((acStep raw codes u).map (Prod.map see id)) := by
  rcases decode_cases hbuilt hr.le_one with ⟨symbol,rest,p,code,len,hdecode,hat,hu,hlen,hsymbol⟩ |
    ⟨hdecode,hu,hno⟩ | hdecode
  · have hf := hlook symbol rest hdecode
    rw [hlen] at hf
    unfold acStep
    rw [hdecode]
    show Follows _ _ r (Except.map _ (if symbol % 16 = 0 then
      .ok (if symbol/16 = 15 then .zrl else .eob,rest)
      else receive (symbol % 16) rest >>= fun p => .ok (.value (symbol/16) p.1,p.2) :
      Except Failure (AcStep × List ℕ)))
    by_cases hzero : symbol % 16 = 0
    · rw [if_pos hzero]
      obtain ⟨packed,r',hrun,hstep,hr',hk⟩ := fastAcWith_zero hfinish hbuilt hat hsymbol hzero
        (hu ▸ hr) (hu ▸ hf)
      refine ⟨packed,r',hrun,?_,hr',hk⟩
      show see (stepOf packed) = see _
      rw [hstep]
    · rw [if_neg hzero]
      unfold receive
      split_ifs with hsuffices
      · have hsplit : u = codeBits code len ++ rest.take (symbol % 16) ++ rest.drop (symbol % 16) := by
          rw [List.append_assoc,List.take_append_drop]
          exact hu
        have hlength : (rest.take (symbol % 16)).length = symbol % 16 := by
          rw [List.length_take,min_eq_left hsuffices]
        obtain ⟨packed,r',hrun,hsee,hr',hk⟩ := fastAcWith_value hfinish hbuilt hat hsymbol hlength
          (by omega) (hsplit ▸ hr) (hsplit ▸ hf)
        exact ⟨packed,r',hrun,hsee,hr',hk⟩
      · trivial
  · unfold acStep
    rw [hdecode]
    exact fastAcWith_noCode hbuilt (hno.append hu) hr
  · unfold acStep
    rw [hdecode]
    trivial

/-- The DC path agrees on the sizes up to 15. -/
theorem follows_decodeFastDc (hbuilt : BuiltFrom raw .dc codes table) (hr : Reads r u)
    (hsizes : ∀ ssss rest, decode raw codes u = .ok (ssss,rest) → ssss ≤ 15)
    (hlook : ∀ symbol rest, decode raw codes u = .ok (symbol,rest) →
      Fills (lookahead (u.length-rest.length)) r u) :
    Follows id table.decodeFastDc r (difference raw codes u) := by
  unfold difference
  rcases decode_cases hbuilt hr.le_one with ⟨ssss,rest,p,code,len,hdecode,hat,hu,hlen,-⟩ |
    ⟨hdecode,hu,hno⟩ | hdecode
  · have hf := hlook ssss rest hdecode
    have hsize := hsizes ssss rest hdecode
    rw [hlen] at hf
    rw [hdecode]
    show Follows _ _ r (receive ssss rest)
    unfold receive
    split_ifs with hsuffices
    · have hsplit : u = codeBits code len ++ rest.take ssss ++ rest.drop ssss := by
        rw [List.append_assoc,List.take_append_drop]
        exact hu
      have hlength : (rest.take ssss).length = ssss := by
        rw [List.length_take,min_eq_left hsuffices]
      obtain ⟨r',hrun,hr',hk⟩ := decodeFastDc_code hbuilt (hlength.symm ▸ hat)
        (hlength.symm ▸ hsize) (hsplit ▸ hr) (hsplit ▸ hf)
      exact ⟨_,r',hrun,rfl,hr',hk⟩
    · trivial
  · rw [hdecode]
    exact decodeFastDc_noCode hbuilt (hno.append hu) hr
  · rw [hdecode]
    trivial

/-- On every reader all paths agree with the procedures if and only if the bits that are looked at
for the next code can be shown. -/
theorem paths_agree_iff (haccepted : HuffmanTable.fromRaw raw role = .ok table)
    (hr : Reads r u) : PathsAgree raw role table r u ↔ LooksAhead raw r u := by
  have hbuilt := builtFrom_huffmanCodes haccepted
  constructor
  · intro hagree symbol rest hdecode
    rcases decode_cases hbuilt hr.le_one with ⟨symbol',rest',p,code,len,hdecode',hat,hu,hlen,-⟩ |
      ⟨hdecode',-⟩ | hdecode'
    · rw [hdecode'] at hdecode
      cases hdecode
      have hfollows := hagree.decode
      rw [hdecode'] at hfollows
      obtain ⟨a,r',hrun,-⟩ := hfollows
      by_contra hf
      rw [hlen,hu] at hf
      rw [decode_short hbuilt hat (hu ▸ hr) (ahead_append _ _) hf] at hrun
      cases hrun
    · rw [hdecode'] at hdecode
      cases hdecode
    · rw [hdecode'] at hdecode
      cases hdecode
  · intro hlook
    refine ⟨?_,?_,?_,?_⟩
    · rcases decode_cases hbuilt hr.le_one with ⟨symbol,rest,p,code,len,hdecode,hat,hu,hlen,-⟩ |
        ⟨hdecode,hu,hno⟩ | hdecode
      · have hf := hlook symbol rest hdecode
        rw [hlen] at hf
        obtain ⟨r',hrun,htook⟩ := decode_code hbuilt hat (hu ▸ hr) (ahead_append _ rest) (hu ▸ hf)
        rw [hdecode]
        exact ⟨symbol,r',hrun,rfl,htook.left (length_codeBits code len),htook.kept⟩
      · rw [hdecode]
        exact decode_noCode hbuilt (hno.append hu) hr
      · rw [hdecode]
        trivial
    · rintro rfl hsizes
      exact follows_decodeFastDc hbuilt hr hsizes hlook
    · rintro rfl
      have hfollows := follows_fastAcWith finishes_decode hbuilt hr hlook
      have hmap : (acStep raw (huffmanCodes raw) u).map (Prod.map id id) =
          acStep raw (huffmanCodes raw) u := by
        cases acStep raw (huffmanCodes raw) u <;> rfl
      rw [hmap] at hfollows
      rw [decodeFastAc_eq]
      exact hfollows
    · rintro rfl
      rw [skipFastAc_eq]
      exact follows_fastAcWith finishes_skip hbuilt hr hlook

/-- A reader of bytes below 256 starts with all their bits ahead. -/
theorem reads_new {bytes : List ℕ} (h : ∀ b ∈ (BitReader.new bytes).ahead, b < 256) :
    Reads (BitReader.new bytes) (bytesBits (BitReader.new bytes).ahead) :=
  ⟨[],⟨rfl,Nat.zero_le _,nofun,(Nat.zero_mul _).symm⟩,rfl,h,nofun⟩

theorem length_oneCode : [1,0,0,0,0,0,0,0,0,0,0,0,0,0,0,0].length = 16 := rfl

theorem values_oneCode : ∀ value ∈ [0], value < 256 := by decide

/-- One code, 0 for the symbol 0. -/
def oneCode : RawHuffmanTable where
  bits := [1,0,0,0,0,0,0,0,0,0,0,0,0,0,0,0]
  values := [0]
  bits_length := length_oneCode
  values_lt := values_oneCode

/-- The end of the image is ahead: the paths agree. -/
theorem paths_agree_before_marker : ∃ table, HuffmanTable.fromRaw oneCode .dc = .ok table ∧
    PathsAgree oneCode .dc table (BitReader.new [0,0xFF,0xD9]) (byteBits 0) := by
  obtain ⟨table,haccepted⟩ : ∃ table, HuffmanTable.fromRaw oneCode .dc = .ok table := ⟨_,rfl⟩
  have hreads : Reads (BitReader.new [0,0xFF,0xD9]) (byteBits 0) := reads_new (by decide)
  exact ⟨table,haccepted,(paths_agree_iff haccepted hreads).mpr fun _ _ _ => .inr (.inl rfl)⟩

/-- The byte is the last one, with no marker after it: its first bit is a code, and the lookup
asks for twelve. -/
theorem last_byte_refused : ∃ table, HuffmanTable.fromRaw oneCode .dc = .ok table ∧
    Reads (BitReader.new [0]) (byteBits 0) ∧
    decode oneCode (huffmanCodes oneCode) (byteBits 0) = .ok (0,[0,0,0,0,0,0,0]) ∧
    table.decode (BitReader.new [0]) = .error tableExhausted ∧
    ¬PathsAgree oneCode .dc table (BitReader.new [0]) (byteBits 0) := by
  obtain ⟨table,haccepted,hdecode,hrefused⟩ : ∃ table,
      HuffmanTable.fromRaw oneCode .dc = .ok table ∧
      decode oneCode (huffmanCodes oneCode) (byteBits 0) = .ok (0,[0,0,0,0,0,0,0]) ∧
      table.decode (BitReader.new [0]) = .error tableExhausted := ⟨_,rfl,rfl,rfl⟩
  refine ⟨table,haccepted,reads_new (by decide),hdecode,hrefused,fun hagree => ?_⟩
  have hfollows := hagree.decode
  rw [hdecode] at hfollows
  obtain ⟨a,r',hrun,-⟩ := hfollows
  rw [hrefused] at hrun
  cases hrun

end J2kNative.HuffmanPaths
