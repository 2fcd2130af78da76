import J2kNative.HuffmanDecoding

/-!
# Decoding bit by bit

The standard's procedures read a code one bit at a time and compare it with the
largest code of its length, then take the magnitude. What they decode is a code of
the table, and where they find none neither the lookup nor the comparisons of the
long codes do.
-/
namespace J2kNative.BitSerial

open BitReader

inductive Failure where
  | outOfBits
  | noCode
  deriving DecidableEq, Repr

/-! ## The standard's procedures -/

/-- The largest code of a length, -1 where there is none. -/
def maxCode (raw : RawHuffmanTable) (codes : List ℕ) (len : ℕ) : ℤ :=
  if lengthCount raw len = 0 then -1
  else (codes.getD (lengthStart raw len+lengthCount raw len-1) 0 : ℕ)

def minCode (raw : RawHuffmanTable) (codes : List ℕ) (len : ℕ) : ℕ :=
  codes.getD (lengthStart raw len) 0

def decodeFrom (raw : RawHuffmanTable) (codes : List ℕ) :
    (turns len code : ℕ) → List ℕ → Except Failure (ℕ × List ℕ)
  | 0,_,_,_ => .error .noCode
  | _+1,_,_,[] => .error .outOfBits
  | turns+1,len,code,b::u =>
    if ((2*code+b : ℕ) : ℤ) ≤ maxCode raw codes (len+1) then
      .ok (raw.values.getD (lengthStart raw (len+1)+(2*code+b-minCode raw codes (len+1))) 0,u)
    else decodeFrom raw codes turns (len+1) (2*code+b) u

/-- DECODE, with codes of at most 16 bits. -/
def decode (raw : RawHuffmanTable) (codes : List ℕ) (u : List ℕ) : Except Failure (ℕ × List ℕ) :=
  decodeFrom raw codes 16 0 0 u

/-- RECEIVE and EXTEND. -/
def receive (ssss : ℕ) (u : List ℕ) : Except Failure (ℤ × List ℕ) :=
  if ssss ≤ u.length then .ok (magnitudeOf (u.take ssss),u.drop ssss) else .error .outOfBits

/-- A DC difference. -/
def difference (raw : RawHuffmanTable) (codes : List ℕ) (u : List ℕ) :
    Except Failure (ℤ × List ℕ) := do
  let (ssss,u) ← decode raw codes u
  receive ssss u

/-- The codes of a table in the order of its symbols. -/
def huffmanCodes (raw : RawHuffmanTable) : List ℕ :=
  (assignCodes 0 ((codeSizes raw.bits).headD 0) (codeSizes raw.bits)).toOption.getD []

/-- What an AC symbol stands for, with its magnitude. -/
inductive AcStep where
  | eob
  | zrl
  | value (run : ℕ) (v : ℤ)
  deriving DecidableEq, Repr

/-- The next step over the AC coefficients. -/
def acStep (raw : RawHuffmanTable) (codes : List ℕ) (u : List ℕ) :
    Except Failure (AcStep × List ℕ) := do
  let (rs,u) ← decode raw codes u
  if rs % 16 = 0 then .ok (if rs/16 = 15 then .zrl else .eob,u)
  else do
    let (v,u) ← receive (rs % 16) u
    .ok (.value (rs/16) v,u)

variable {raw : RawHuffmanTable} {role : HuffmanTableRole} {codes : List ℕ} {table : HuffmanTable}
  {p symbol code len : ℕ} {u w : List ℕ}

/-! ## Codes and their prefixes -/

theorem builtFrom_huffmanCodes (h : HuffmanTable.fromRaw raw role = .ok table) :
    BuiltFrom raw role (huffmanCodes raw) table := by
  obtain ⟨codes,hbuilt⟩ := exists_builtFrom h
  have hcodes : huffmanCodes raw = codes := by
    rw [huffmanCodes,hbuilt.canonical.assigned]
    rfl
  exact hcodes.symm ▸ hbuilt

theorem bitValue_inj {w' : List ℕ} (hw : ∀ b ∈ w, b ≤ 1) (hw' : ∀ b ∈ w', b ≤ 1)
    (hlength : w.length = w'.length) (h : bitValue w = bitValue w') : w = w' := by
  induction w generalizing w' with
  | nil => exact (List.length_eq_zero_iff.mp hlength.symm).symm
  | cons b w ih =>
      cases w' with
      | nil => cases hlength
      | cons b' w' =>
          have hlength := Nat.succ_inj.mp hlength
          have hrest := fun c hc => hw c (List.mem_cons_of_mem _ hc)
          have hrest' := fun c hc => hw' c (List.mem_cons_of_mem _ hc)
          have hlt := bitValue_lt hrest
          have hlt' := bitValue_lt hrest'
          rw [bitValue,bitValue,← hlength] at h
          rw [← hlength] at hlt'
          have hdiv := congrArg (· / 2^w.length) h
          have hmod := congrArg (· % 2^w.length) h
          simp only [Nat.mul_comm _ (2^w.length),Nat.mul_add_div (Nat.two_pow_pos _),
            Nat.div_eq_of_lt hlt,Nat.div_eq_of_lt hlt',Nat.mul_add_mod,Nat.mod_eq_of_lt hlt,
            Nat.mod_eq_of_lt hlt',Nat.add_zero] at hdiv hmod
          rw [hdiv,ih hrest hrest' hlength hmod]

/-- Bits are the code of their value. -/
theorem codeBits_bitValue (h : ∀ b ∈ w, b ≤ 1) : codeBits (bitValue w) w.length = w := by
  apply bitValue_inj (fun b hb => codeBits_le hb) h (length_codeBits _ _)
  rw [bitValue_codeBits,Nat.mod_eq_of_lt (bitValue_lt h)]

theorem code_le_maxCode (hcanonical : CanonicalCodes raw codes)
    (h : CodeAt raw codes p symbol code len) : (code : ℤ) ≤ maxCode raw codes len := by
  obtain ⟨hpos,hlen⟩ := h.len_pos
  have hp := (size_at_iff hpos hlen).mp h.2.2
  have hlast := hcanonical.consecutive h
    (show p ≤ lengthStart raw len+lengthCount raw len-1 by omega) (by omega)
  rw [maxCode,if_neg (by omega),List.getD_eq_getElem?_getD,hlast,Option.getD_some]
  omega

/-- Where there is a length there is a code of the table. -/
theorem exists_codeAt_of_size (hcanonical : CanonicalCodes raw codes)
    (h : (codeSizes raw.bits)[p]? = some len) : ∃ symbol code, CodeAt raw codes p symbol code len := by
  obtain ⟨hlt,-⟩ := List.getElem?_eq_some_iff.mp h
  exact ⟨_,_,List.getElem?_eq_getElem (hcanonical.length_eq ▸ hlt),
    List.getElem?_eq_getElem (assignCodes_length hcanonical.assigned ▸ hlt),h⟩

/-- A code is the one before it and one, with zeros for the bits that it is longer. -/
theorem code_succ {symbol' code' len' : ℕ} (hcanonical : CanonicalCodes raw codes)
    (h : CodeAt raw codes p symbol code len) (h' : CodeAt raw codes (p+1) symbol' code' len') :
    code' = (code+1)*2^(len'-len) := by
  obtain ⟨dcode,si,hdrop⟩ := assignCodes_drop hcanonical.assigned p
  have hcons : ∀ {l : List ℕ} {a b : ℕ}, l[p]? = some a → l[p+1]? = some b →
      l.drop p = a::b::l.drop (p+2) := by
    intro l a b ha hb
    obtain ⟨hlt,ha⟩ := List.getElem?_eq_some_iff.mp ha
    obtain ⟨hlt',hb⟩ := List.getElem?_eq_some_iff.mp hb
    rw [List.drop_eq_getElem_cons hlt,List.drop_eq_getElem_cons hlt',ha,hb]
  rw [hcons h.2.2 h'.2.2,hcons h.2.1 h'.2.1] at hdrop
  obtain ⟨-,-,rest,hhead,hrest⟩ := assignCodes_cons hdrop
  obtain ⟨hcode,rfl⟩ := List.cons.inj hhead
  obtain ⟨-,-,rest',hhead',-⟩ := assignCodes_cons hrest
  obtain ⟨hcode',-⟩ := List.cons.inj hhead'
  rw [hcode',hcode]

/-- The bits of a code are not below the first code of their length when their prefixes are
above the largest codes of theirs. -/
theorem first_le (hcanonical : CanonicalCodes raw codes)
    (h : CodeAt raw codes (lengthStart raw len) symbol code len) (hw : ∀ b ∈ w, b ≤ 1)
    (hlength : w.length = len)
    (hshort : ∀ l < len, 0 < l → maxCode raw codes l < bitValue (w.take l)) :
    code ≤ bitValue w := by
  obtain ⟨hpos,hlen⟩ := h.len_pos
  cases hstart : lengthStart raw len with
  | zero =>
      have hassigned := hcanonical.assigned
      rw [hstart] at h
      cases hsizes : codeSizes raw.bits with
      | nil =>
          have hsize := h.2.2
          rw [hsizes] at hsize
          exact nomatch hsize
      | cons size sizes =>
          rw [hsizes] at hassigned
          obtain ⟨-,-,rest,rfl,-⟩ := assignCodes_cons hassigned
          obtain rfl := Option.some.inj h.2.1
          rw [Nat.zero_mul]
          exact Nat.zero_le _
  | succ q =>
      rw [hstart] at h
      obtain ⟨hlt,-⟩ := List.getElem?_eq_some_iff.mp h.2.2
      obtain ⟨symbol',code',hbefore⟩ := exists_codeAt_of_size hcanonical
        (List.getElem?_eq_getElem (Nat.lt_of_succ_lt hlt))
      generalize (codeSizes raw.bits)[q] = len' at hbefore
      obtain ⟨hpos',hlen'⟩ := hbefore.len_pos
      have hle := (hcanonical.ordered hbefore h (Nat.lt_succ_self q)).1
      have hne : len' ≠ len := by
        rintro rfl
        have := (size_at_iff hpos hlen).mp hbefore.2.2
        omega
      have hplace := (size_at_iff hpos' hlen').mp hbefore.2.2
      have hmax : maxCode raw codes len' < bitValue (w.take len') :=
        hshort len' (by omega) hpos'
      have hcode' := code_le_maxCode hcanonical hbefore
      have hprefix : code'+1 ≤ bitValue (w.take len') := by omega
      rw [code_succ hcanonical hbefore h]
      have hsplit := (bitValue_split hw (n := len')).1
      rw [hlength] at hsplit
      rw [← hsplit] at hprefix
      exact (Nat.mul_le_mul_right _ hprefix).trans (Nat.div_mul_le_self _ _)

/-- What is not above the largest code of its length, with all its prefixes above theirs, is a
code of the table. -/
theorem exists_codeAt (hcanonical : CanonicalCodes raw codes) (hpos : 0 < len) (hlen : len ≤ 16)
    (hw : ∀ b ∈ w, b ≤ 1) (hlength : w.length = len)
    (hshort : ∀ l < len, 0 < l → maxCode raw codes l < bitValue (w.take l))
    (hle : (bitValue w : ℤ) ≤ maxCode raw codes len) :
    ∃ p, CodeAt raw codes p
      (raw.values.getD (lengthStart raw len+(bitValue w-minCode raw codes len)) 0) (bitValue w)
      len := by
  have hcount : lengthCount raw len ≠ 0 := fun hzero => by
    rw [maxCode,if_pos hzero] at hle
    omega
  obtain ⟨symbol,first,hfirst⟩ := exists_codeAt_of_size hcanonical
    ((size_at_iff hpos hlen).mpr (by omega) : (codeSizes raw.bits)[lengthStart raw len]? = some len)
  have hmin : minCode raw codes len = first := by
    rw [minCode,List.getD_eq_getElem?_getD,hfirst.2.1,Option.getD_some]
  have hge := first_le hcanonical hfirst hw hlength hshort
  have hlast := hcanonical.consecutive hfirst
    (show lengthStart raw len ≤ lengthStart raw len+lengthCount raw len-1 by omega) (by omega)
  rw [maxCode,if_neg hcount,List.getD_eq_getElem?_getD,hlast,Option.getD_some] at hle
  rw [hmin]
  refine ⟨lengthStart raw len+(bitValue w-first),?_,?_,(size_at_iff hpos hlen).mpr (by omega)⟩
  · have hsize : (codeSizes raw.bits)[lengthStart raw len+(bitValue w-first)]? = some len :=
      (size_at_iff hpos hlen).mpr (by omega)
    obtain ⟨value,_,hat⟩ := exists_codeAt_of_size hcanonical hsize
    rw [List.getD_eq_getElem?_getD,hat.1,Option.getD_some]
  · rw [hcanonical.consecutive hfirst (Nat.le_add_right _ _) (by omega)]
    congr 1
    omega

/-! ## What the procedure decodes -/

/-- No prefix of the bits is a code. -/
def NoCode (raw : RawHuffmanTable) (codes : List ℕ) (w : List ℕ) (n : ℕ) : Prop :=
  ∀ l ≤ n, 0 < l → maxCode raw codes l < bitValue (w.take l)

theorem NoCode.append {w' : List ℕ} (h : NoCode raw codes w len) (hw : len ≤ w.length) :
    NoCode raw codes (w ++ w') len := fun l hl hpos => by
  rw [List.take_append_of_le_length (hl.trans hw)]
  exact h l hl hpos

theorem decodeFrom_spec (hcanonical : CanonicalCodes raw codes) {turns : ℕ} {read : List ℕ}
    (hturns : read.length+turns = 16) (hbits : ∀ b ∈ read ++ u, b ≤ 1)
    (hno : NoCode raw codes read read.length) :
    match decodeFrom raw codes turns read.length (bitValue read) u with
    | .ok (symbol,rest) => ∃ p code len, CodeAt raw codes p symbol code len ∧
        read ++ u = codeBits code len ++ rest
    | .error .noCode => 16 ≤ (read ++ u).length ∧ NoCode raw codes (read ++ u) 16
    | .error .outOfBits => True := by
  induction turns generalizing read u with
  | zero =>
      rw [decodeFrom]
      refine ⟨by rw [List.length_append]; omega,fun l hl hpos => ?_⟩
      rw [List.take_append_of_le_length (by omega)]
      exact hno l (by omega) hpos
  | succ turns ih =>
      cases u with
      | nil => exact trivial
      | cons b u =>
          have hvalue : 2*bitValue read+b = bitValue (read ++ [b]) := by
            rw [bitValue_append,Nat.mul_comm]
            simp [bitValue]
          have hlength : (read ++ [b]).length = read.length+1 := List.length_append
          have happend : read ++ b::u = (read ++ [b]) ++ u := by simp
          have hshort : ∀ l < read.length+1, 0 < l →
              maxCode raw codes l < bitValue ((read ++ [b]).take l) := fun l hl hpos => by
            rw [List.take_append_of_le_length (by omega)]
            exact hno l (by omega) hpos
          rw [happend] at hbits ⊢
          rw [decodeFrom,hvalue]
          by_cases hle : ((bitValue (read ++ [b]) : ℕ) : ℤ) ≤ maxCode raw codes (read.length+1)
          · rw [if_pos hle]
            have hb : ∀ c ∈ read ++ [b], c ≤ 1 := fun c hc => hbits c (List.mem_append_left _ hc)
            obtain ⟨p,hp⟩ := exists_codeAt hcanonical (Nat.succ_pos _) (by omega) hb hlength hshort
              hle
            refine ⟨p,_,_,hp,?_⟩
            rw [Nat.succ_eq_add_one,← hlength,codeBits_bitValue hb]
          · rw [if_neg hle,← hlength]
            refine ih (by rw [hlength]; omega) hbits fun l hl hpos => ?_
            rcases Nat.lt_or_eq_of_le hl with hlt | rfl
            · exact hshort l (hlength ▸ hlt) hpos
            · rw [List.take_length,hlength]
              exact Int.lt_of_not_ge hle

/-- A decoded symbol is the one of a code ahead, and where there is none all sixteen bits were
read. -/
theorem decode_spec (hcanonical : CanonicalCodes raw codes) (hbits : ∀ b ∈ u, b ≤ 1) :
    match decode raw codes u with
    | .ok (symbol,rest) => ∃ p code len, CodeAt raw codes p symbol code len ∧
        u = codeBits code len ++ rest
    | .error .noCode => 16 ≤ u.length ∧ NoCode raw codes u 16
    | .error .outOfBits => True :=
  decodeFrom_spec hcanonical (show ([] : List ℕ).length+16 = 16 from rfl) hbits
    fun _ hl hpos => absurd hl (Nat.not_le.mpr hpos)

/-- The outcomes of a decoding bit by bit. -/
theorem decode_cases (hbuilt : BuiltFrom raw role codes table) (hbits : ∀ b ∈ u, b ≤ 1) :
    (∃ symbol rest p code len, decode raw codes u = .ok (symbol,rest) ∧
      CodeAt raw codes p symbol code len ∧ u = codeBits code len ++ rest ∧
      u.length-rest.length = len ∧ symbol < 256) ∨
    (decode raw codes u = .error .noCode ∧ 16 ≤ u.length ∧ NoCode raw codes u 16) ∨
    decode raw codes u = .error .outOfBits := by
  have hspec := decode_spec hbuilt.canonical hbits
  rcases hdecode : decode raw codes u with (_ | _) | ⟨symbol,rest⟩
  · exact .inr (.inr rfl)
  · rw [hdecode] at hspec
    exact .inr (.inl ⟨rfl,hspec⟩)
  · rw [hdecode] at hspec
    obtain ⟨p,code,len,hat,hu⟩ := hspec
    refine .inl ⟨symbol,rest,p,code,len,rfl,hat,hu,?_,raw.values_lt _ (List.mem_of_getElem? hat.1)⟩
    rw [hu,List.length_append,length_codeBits,Nat.add_sub_cancel]

/-! ## Bits with ones after them -/

theorem decodeFrom_rest {turns len code : ℕ} {x rest : List ℕ} {symbol : ℕ}
    (h : decodeFrom raw codes turns len code x = .ok (symbol,rest)) : rest.length < x.length := by
  induction turns generalizing len code x with
  | zero => cases h
  | succ turns ih =>
      cases x with
      | nil => cases h
      | cons b x =>
          rw [decodeFrom] at h
          split_ifs at h with hle
          · obtain ⟨-,rfl⟩ := Prod.mk.inj (Except.ok.inj h)
            exact Nat.lt_succ_self _
          · exact (ih h).trans (Nat.lt_succ_self _)

/-- More bits change nothing for a code that is there, and a code that is not ends in them. -/
theorem decodeFrom_append {turns len code : ℕ} {x : List ℕ} :
    match decodeFrom raw codes turns len code u with
    | .ok (symbol,rest) => decodeFrom raw codes turns len code (u ++ x) = .ok (symbol,rest ++ x)
    | .error .noCode => decodeFrom raw codes turns len code (u ++ x) = .error .noCode
    | .error .outOfBits => ∀ symbol rest,
        decodeFrom raw codes turns len code (u ++ x) = .ok (symbol,rest) →
          rest.length < x.length := by
  induction turns generalizing len code u with
  | zero => rfl
  | succ turns ih =>
      cases u with
      | nil => exact fun symbol rest h => decodeFrom_rest h
      | cons b u =>
          rw [List.cons_append,decodeFrom,decodeFrom]
          by_cases hle : ((2*code+b : ℕ) : ℤ) ≤ maxCode raw codes (len+1)
          · rw [if_pos hle,if_pos hle]
          · rw [if_neg hle,if_neg hle]
            exact ih

/-- With a bit for each turn there is an outcome. -/
theorem decodeFrom_enough {turns len code : ℕ} (h : turns ≤ u.length) :
    decodeFrom raw codes turns len code u ≠ .error .outOfBits := by
  induction turns generalizing len code u with
  | zero => nofun
  | succ turns ih =>
      cases u with
      | nil => exact absurd h (Nat.not_succ_le_zero _)
      | cons b u =>
          rw [decodeFrom]
          split_ifs
          · nofun
          · exact ih (Nat.le_of_succ_le_succ h)

/-- The code in the real bits and the ones after them. -/
structure Next (raw : RawHuffmanTable) (codes : List ℕ) (u : List ℕ) (p symbol code len : ℕ) :
    Prop where
  codeAt : CodeAt raw codes p symbol code len
  ahead : Ahead u (codeBits code len)
  symbol_lt : symbol < 256

/-- How the decoding of the real bits and that with ones after them go together. -/
theorem view_cases (hbuilt : BuiltFrom raw role codes table) (hbits : ∀ b ∈ u, b ≤ 1) :
    (∃ p symbol code len, Next raw codes u p symbol code len ∧
      (∃ rest, decode raw codes (u ++ List.replicate 16 1) = .ok (symbol,rest) ∧
        (u ++ List.replicate 16 1).length-rest.length = len) ∧
      if len ≤ u.length then decode raw codes u = .ok (symbol,u.drop len)
      else decode raw codes u = .error .outOfBits) ∨
    (NoCode raw codes (u ++ List.replicate 16 1) 16 ∧
      ∀ symbol rest, decode raw codes (u ++ List.replicate 16 1) ≠ .ok (symbol,rest)) := by
  have hview : ∀ b ∈ u ++ List.replicate 16 1, b ≤ 1 := fun b hb => by
    rcases List.mem_append.mp hb with hb | hb
    · exact hbits b hb
    · exact (List.eq_of_mem_replicate hb).le
  rcases decode_cases hbuilt hview with ⟨symbol,rest,p,code,len,hdecode,hat,hu,hlen,hsymbol⟩ |
    ⟨hdecode,-,hno⟩ | hdecode
  · have hahead : Ahead u (codeBits code len) := by
      rw [Ahead,hu,List.take_left]
    refine .inl ⟨p,symbol,code,len,⟨hat,hahead,hsymbol⟩,⟨rest,hdecode,hlen⟩,?_⟩
    have happend := @decodeFrom_append raw codes u 16 0 0 (List.replicate 16 1)
    have hrest := congrArg List.length hu
    rw [List.length_append,List.length_append,List.length_replicate,length_codeBits] at hrest
    rcases hreal : decode raw codes u with (_ | _) | ⟨symbol',rest'⟩
    · unfold decode at hreal hdecode
      rw [hreal] at happend
      have hlt := happend symbol rest hdecode
      rw [List.length_replicate] at hlt
      rw [if_neg (by omega)]
    · unfold decode at hreal hdecode
      rw [hreal] at happend
      rw [show decodeFrom raw codes 16 0 0 (u ++ List.replicate 16 1) = _ from happend] at hdecode
      cases hdecode
    · unfold decode at hreal hdecode
      rw [hreal] at happend
      rw [show decodeFrom raw codes 16 0 0 (u ++ List.replicate 16 1) = _ from happend] at hdecode
      obtain ⟨rfl,rfl⟩ := Prod.mk.inj (Except.ok.inj hdecode)
      rw [List.length_append,List.length_replicate] at hrest
      rw [if_pos (by omega)]
      rw [← List.append_assoc] at hu
      have hreal' := List.append_cancel_right hu
      rw [hreal',List.drop_left' (length_codeBits code len)]
  · refine .inr ⟨hno,fun symbol rest h => ?_⟩
    rw [hdecode] at h
    cases h
  · exact absurd hdecode (decodeFrom_enough (view_length u))

end J2kNative.BitSerial
