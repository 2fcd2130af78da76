import J2kNative.Fallible
import J2kNative.HuffmanReading

/-!
# Canonical codes

The codes of a table that the decoder accepts fill disjoint ranges in order, so that
every lookup of the decoder finds the code that is ahead.
-/
namespace J2kNative

/-! ## The codes of the decoder -/

/-- The code lengths from `i+1` on. -/
def sizesFrom (i : ℕ) (bits : List ℕ) : List ℕ :=
  (bits.zipIdx i).flatMap fun c => List.replicate c.1 (c.2+1)

theorem sizesFrom_cons (i count : ℕ) (bits : List ℕ) :
    sizesFrom i (count::bits) = List.replicate count (i+1) ++ sizesFrom (i+1) bits := by
  rw [sizesFrom,List.zipIdx_cons,List.flatMap_cons]
  rfl

theorem mem_sizesFrom {i size : ℕ} {bits : List ℕ} (h : size ∈ sizesFrom i bits) :
    i < size ∧ size ≤ i+bits.length := by
  obtain ⟨c,hc,hsize⟩ := List.mem_flatMap.mp h
  obtain ⟨hle,hlt,-⟩ := List.mem_zipIdx hc
  rw [(List.mem_replicate.mp hsize).2]
  omega

theorem length_sizesFrom (i : ℕ) (bits : List ℕ) : (sizesFrom i bits).length = bits.sum := by
  induction bits generalizing i with
  | nil => rfl
  | cons count bits ih =>
      rw [sizesFrom_cons,List.length_append,List.length_replicate,ih,List.sum_cons]

theorem sizesFrom_append (i : ℕ) (bits bits' : List ℕ) :
    sizesFrom i (bits ++ bits') = sizesFrom i bits ++ sizesFrom (i+bits.length) bits' := by
  rw [sizesFrom,List.zipIdx_append,List.flatMap_append]
  rfl

theorem sorted_sizesFrom (i : ℕ) (bits : List ℕ) : (sizesFrom i bits).Pairwise (· ≤ ·) := by
  induction bits generalizing i with
  | nil => exact .nil
  | cons count bits ih =>
      rw [sizesFrom_cons,List.pairwise_append]
      refine ⟨List.pairwise_replicate.mpr (.inr (Nat.le_refl _)),ih (i+1),fun a ha b hb => ?_⟩
      rw [(List.mem_replicate.mp ha).2]
      exact Nat.le_of_lt (mem_sizesFrom hb).1

/-- The codes of one length lie together. -/
theorem codeSizes_split {bits : List ℕ} {len : ℕ} (hpos : 0 < len) (hlen : len ≤ bits.length) :
    ∃ before after, codeSizes bits = before ++ List.replicate (bits.getD (len-1) 0) len ++ after ∧
      before.length = (bits.take (len-1)).sum ∧ (∀ size ∈ before, size < len) ∧
      ∀ size ∈ after, len < size := by
  have hsplit : bits = bits.take (len-1) ++ bits.getD (len-1) 0::bits.drop len := by
    have hlt : len-1 < bits.length := by omega
    conv_lhs => rw [← List.take_append_drop (len-1) bits,List.drop_eq_getElem_cons hlt]
    rw [List.getD_eq_getElem _ _ hlt,Nat.sub_add_cancel hpos]
  have hbefore : (bits.take (len-1)).length = len-1 := by
    rw [List.length_take]
    omega
  refine ⟨sizesFrom 0 (bits.take (len-1)),sizesFrom len (bits.drop len),?_,
    length_sizesFrom _ _,fun size hsize => ?_,fun size hsize => (mem_sizesFrom hsize).1⟩
  · show sizesFrom 0 bits = _
    conv_lhs => rw [hsplit]
    rw [sizesFrom_append,sizesFrom_cons,hbefore,Nat.zero_add,Nat.sub_add_cancel hpos,
      List.append_assoc]
  · have := (mem_sizesFrom hsize).2
    omega

section
variable {code si : ℕ} {sizes codes : List ℕ}

theorem assignCodes_cons {size : ℕ} (h : assignCodes code si (size::sizes) = .ok codes) :
    size ≤ 16 ∧ code*2^(size-si) < 2^size ∧ ∃ rest, codes = code*2^(size-si)::rest ∧
      assignCodes (code*2^(size-si)+1) size sizes = .ok rest := by
  rw [assignCodes] at h
  split_ifs at h with hlimit
  obtain ⟨rest,hrest,h⟩ := Fallible.bind_eq_ok.mp h
  cases h
  push Not at hlimit
  exact ⟨hlimit.1,hlimit.2,rest,rfl,hrest⟩

theorem assignCodes_length (h : assignCodes code si sizes = .ok codes) :
    codes.length = sizes.length := by
  induction sizes generalizing code si codes with
  | nil => cases h; rfl
  | cons size sizes ih =>
      obtain ⟨-,-,rest,rfl,hrest⟩ := assignCodes_cons h
      rw [List.length_cons,List.length_cons,ih hrest]

/-- The codes from any place on. -/
theorem assignCodes_drop (h : assignCodes code si sizes = .ok codes) (n : ℕ) :
    ∃ code si, assignCodes code si (sizes.drop n) = .ok (codes.drop n) := by
  induction n generalizing code si sizes codes with
  | zero => exact ⟨code,si,h⟩
  | succ n ih =>
      cases sizes with
      | nil => cases h; exact ⟨0,0,rfl⟩
      | cons size sizes =>
          obtain ⟨-,-,rest,rfl,hrest⟩ := assignCodes_cons h
          exact ih hrest

/-- A code fits its length and is not below the codes before it. -/
theorem assignCodes_bound (h : assignCodes code si sizes = .ok codes)
    (hsorted : (si::sizes).Pairwise (· ≤ ·)) {i c size : ℕ} (hc : codes[i]? = some c)
    (hsize : sizes[i]? = some size) :
    size ≤ 16 ∧ c < 2^size ∧ code*2^(16-si) ≤ c*2^(16-size) := by
  induction sizes generalizing code si codes i with
  | nil => cases hsize
  | cons head sizes ih =>
      obtain ⟨hle,hlt,rest,rfl,hrest⟩ := assignCodes_cons h
      obtain ⟨hfirst,htail⟩ := List.pairwise_cons.mp hsorted
      have hsi := hfirst head (by simp)
      have hscale : code*2^(head-si)*2^(16-head) = code*2^(16-si) := by
        rw [Nat.mul_assoc,← pow_add]
        congr 2
        omega
      cases i with
      | zero =>
          cases hc
          cases hsize
          exact ⟨hle,hlt,hscale.ge⟩
      | succ i =>
          obtain ⟨h16,hfit,hge⟩ := ih hrest htail hc hsize
          refine ⟨h16,hfit,Nat.le_trans ?_ hge⟩
          rw [← hscale]
          exact Nat.mul_le_mul_right _ (Nat.le_succ _)

/-- Codes of one length are consecutive. -/
theorem assignCodes_run (h : assignCodes code si sizes = .ok codes) {size n : ℕ}
    (hrun : ∀ i ≤ n, sizes[i]? = some size) : codes[n]? = some (code*2^(size-si)+n) := by
  induction n generalizing code si sizes codes with
  | zero =>
      cases sizes with
      | nil => exact nomatch hrun 0 (Nat.le_refl 0)
      | cons head sizes =>
          obtain rfl : head = size := Option.some.inj (hrun 0 (Nat.le_refl 0))
          obtain ⟨-,-,rest,rfl,-⟩ := assignCodes_cons h
          rfl
  | succ n ih =>
      cases sizes with
      | nil => exact nomatch hrun 0 (Nat.zero_le _)
      | cons head sizes =>
          obtain rfl : head = size := Option.some.inj (hrun 0 (Nat.zero_le _))
          obtain ⟨-,-,rest,rfl,hrest⟩ := assignCodes_cons h
          have hnext := ih hrest fun i hi => hrun (i+1) (by omega)
          rw [Nat.sub_self,pow_zero,Nat.mul_one] at hnext
          rw [List.getElem?_cons_succ,hnext]
          congr 1
          omega

end

/-- The codes of a table: `sizes` from the counts, `codes` as assigned to them. -/
structure CanonicalCodes (raw : RawHuffmanTable) (codes : List ℕ) : Prop where
  assigned : assignCodes 0 ((codeSizes raw.bits).headD 0) (codeSizes raw.bits) = .ok codes
  length_eq : (codeSizes raw.bits).length = raw.values.length

/-- Symbol, code and length at one place of the table. -/
def CodeAt (raw : RawHuffmanTable) (codes : List ℕ) (p symbol code len : ℕ) : Prop :=
  raw.values[p]? = some symbol ∧ codes[p]? = some code ∧ (codeSizes raw.bits)[p]? = some len

variable {raw : RawHuffmanTable} {codes : List ℕ} {p q symbol symbol' code code' len len' : ℕ}

theorem CodeAt.len_pos (h : CodeAt raw codes p symbol code len) : 0 < len ∧ len ≤ 16 := by
  have hmem := List.mem_of_getElem? h.2.2
  have := mem_sizesFrom (show len ∈ sizesFrom 0 raw.bits from hmem)
  rw [raw.bits_length] at this
  omega

theorem sorted_headD {l : List ℕ} (h : l.Pairwise (· ≤ ·)) : (l.headD 0::l).Pairwise (· ≤ ·) := by
  cases l with
  | nil => exact List.pairwise_singleton _ _
  | cons a l =>
      refine List.pairwise_cons.mpr ⟨fun b hb => ?_,h⟩
      rcases List.mem_cons.mp hb with rfl | hb
      · exact Nat.le_refl _
      · exact (List.pairwise_cons.mp h).1 b hb

theorem CanonicalCodes.lt (hcanonical : CanonicalCodes raw codes)
    (h : CodeAt raw codes p symbol code len) : code < 2^len :=
  (assignCodes_bound hcanonical.assigned (sorted_headD (sorted_sizesFrom 0 raw.bits)) h.2.1
    h.2.2).2.1

/-- The codes in order: the ranges of 16 bits that start with them are disjoint. -/
theorem CanonicalCodes.ordered (hcanonical : CanonicalCodes raw codes)
    (h : CodeAt raw codes p symbol code len) (h' : CodeAt raw codes q symbol' code' len')
    (hpq : p < q) : len ≤ len' ∧ (code+1)*2^(16-len) ≤ code'*2^(16-len') := by
  obtain ⟨dcode,si,hdrop⟩ := assignCodes_drop hcanonical.assigned p
  have hsizes : (codeSizes raw.bits).drop p = len::(codeSizes raw.bits).drop (p+1) := by
    obtain ⟨hlt,hget⟩ := List.getElem?_eq_some_iff.mp h.2.2
    rw [List.drop_eq_getElem_cons hlt,hget]
  have hcodes : codes.drop p = code::codes.drop (p+1) := by
    obtain ⟨hlt,hget⟩ := List.getElem?_eq_some_iff.mp h.2.1
    rw [List.drop_eq_getElem_cons hlt,hget]
  rw [hsizes,hcodes] at hdrop
  obtain ⟨-,-,rest,hcons,hrest⟩ := assignCodes_cons hdrop
  rw [List.cons.injEq] at hcons
  rw [← hcons.1,← hcons.2] at hrest
  have hsorted : (len::(codeSizes raw.bits).drop (p+1)).Pairwise (· ≤ ·) := by
    rw [← hsizes]
    exact (sorted_sizesFrom 0 raw.bits).sublist (List.drop_sublist _ _)
  have hget : ∀ l : List ℕ, (l.drop (p+1))[q-(p+1)]? = l[q]? := fun l => by
    rw [List.getElem?_drop]
    congr 1
    omega
  refine ⟨?_,(assignCodes_bound hrest hsorted ((hget codes).trans h'.2.1)
    ((hget _).trans h'.2.2)).2.2⟩
  exact (List.pairwise_cons.mp hsorted).1 _ (List.mem_of_getElem? ((hget _).trans h'.2.2))

/-! ## The lookups of the decoder -/

/-- The range of entries that start with a code of at most twelve bits. -/
theorem mem_range_iff (idx code len : ℕ) :
    code <<< (fastBits-len) ≤ idx ∧ idx < code <<< (fastBits-len)+1 <<< (fastBits-len) ↔
      idx/2^(fastBits-len) = code := by
  have hpos := Nat.two_pow_pos (fastBits-len)
  rw [Nat.shiftLeft_eq,Nat.shiftLeft_eq,Nat.one_mul,Nat.div_eq_iff hpos]
  omega

theorem foldl_fill_of_not (idx : ℕ) (l : List (ℕ × ℕ × ℕ)) (fast : ℕ → ℕ × ℕ)
    (h : ∀ e ∈ l, idx/2^(fastBits-e.2.1) ≠ e.1) :
    (l.foldl (fun fast c => fillEntries (c.1 <<< (fastBits-c.2.1)) (1 <<< (fastBits-c.2.1))
      (c.2.2,c.2.1) fast) fast) idx = fast idx := by
  induction l generalizing fast with
  | nil => rfl
  | cons e l ih =>
      have hne := h e (by simp)
      rw [List.foldl_cons,ih _ fun e he => h e (List.mem_cons_of_mem _ he),fillEntries,
        if_neg fun hmem => hne ((mem_range_iff _ _ _).mp hmem)]

/-- An entry that one code claims and no later one. -/
theorem foldl_fill_of_split {idx : ℕ} {l l' : List (ℕ × ℕ × ℕ)} {e : ℕ × ℕ × ℕ}
    (he : idx/2^(fastBits-e.2.1) = e.1) (h : ∀ e ∈ l', idx/2^(fastBits-e.2.1) ≠ e.1) (fast : ℕ → ℕ × ℕ) :
    ((l ++ e::l').foldl (fun fast c => fillEntries (c.1 <<< (fastBits-c.2.1))
      (1 <<< (fastBits-c.2.1)) (c.2.2,c.2.1) fast) fast) idx = (e.2.2,e.2.1) := by
  rw [List.foldl_append,List.foldl_cons,foldl_fill_of_not idx l' _ h,fillEntries,
    if_pos ((mem_range_iff _ _ _).mpr he)]

/-- The entries of a table: code, length and symbol. -/
def tableEntries (raw : RawHuffmanTable) (codes : List ℕ) : List (ℕ × ℕ × ℕ) :=
  codes.zip ((codeSizes raw.bits).zip raw.values)

theorem tableEntries_get : (tableEntries raw codes)[p]? = some (code,len,symbol) ↔
    CodeAt raw codes p symbol code len := by
  rw [tableEntries,List.getElem?_zip_eq_some,List.getElem?_zip_eq_some]
  exact ⟨fun h => ⟨h.2.2,h.1,h.2.1⟩,fun h => ⟨h.2.1,h.2.2,h.1⟩⟩

theorem mem_tableEntries {e : ℕ × ℕ × ℕ} (h : e ∈ tableEntries raw codes) :
    ∃ q, CodeAt raw codes q e.2.2 e.1 e.2.1 := by
  obtain ⟨q,hq⟩ := List.mem_iff_getElem?.mp h
  exact ⟨q,tableEntries_get.mp hq⟩

/-- The ranges of twelve bits are in the order of those of sixteen. -/
theorem range_mono (hlen : len ≤ fastBits) (hlen' : len' ≤ fastBits)
    (h : (code+1)*2^(16-len) ≤ code'*2^(16-len')) :
    (code+1)*2^(fastBits-len) ≤ code'*2^(fastBits-len') := by
  have hsplit : ∀ l ≤ fastBits, 2^(16-l) = 2^(fastBits-l)*2^4 := by
    intro l hl
    rw [← pow_add]
    congr 1
    unfold fastBits at hl ⊢
    omega
  rw [hsplit len hlen,hsplit len' hlen',← Nat.mul_assoc,← Nat.mul_assoc] at h
  exact Nat.le_of_mul_le_mul_right h (Nat.two_pow_pos 4)

/-- A code of at most twelve bits fills the entries that start with it. -/
theorem fast_of_codeAt (hcanonical : CanonicalCodes raw codes)
    (h : CodeAt raw codes p symbol code len) (hlen : len ≤ fastBits) {idx : ℕ}
    (hidx : idx/2^(fastBits-len) = code) :
    fastEntries (tableEntries raw codes) idx = (symbol,len) := by
  have hsplit : tableEntries raw codes =
      (tableEntries raw codes).take p ++ (code,len,symbol)::(tableEntries raw codes).drop (p+1) := by
    obtain ⟨hlt,hget⟩ := List.getElem?_eq_some_iff.mp (tableEntries_get.mpr h)
    conv_lhs => rw [← List.take_append_drop p (tableEntries raw codes),
      List.drop_eq_getElem_cons hlt,hget]
  rw [fastEntries,hsplit,List.filter_append,List.filter_cons_of_pos (by simpa using hlen)]
  refine foldl_fill_of_split (e := (code,len,symbol)) hidx ?_ _
  rintro ⟨code',len',symbol'⟩ he hclaim
  obtain ⟨he,hlen'⟩ := List.mem_filter.mp he
  simp only [decide_eq_true_eq] at hlen'
  obtain ⟨i,hi⟩ := List.mem_iff_getElem?.mp he
  rw [List.getElem?_drop] at hi
  obtain ⟨-,hordered⟩ := hcanonical.ordered h (tableEntries_get.mp hi) (by omega)
  have hmono := range_mono hlen hlen' hordered
  have hlt := Nat.lt_mul_of_div_lt (show idx/2^(fastBits-len) < code+1 by omega)
    (Nat.two_pow_pos _)
  have hge := Nat.div_mul_le_self idx (2^(fastBits-len'))
  simp only at hclaim
  rw [hclaim] at hge
  omega

/-- A longer code leaves the entry of its first twelve bits open. -/
theorem fast_of_long (hcanonical : CanonicalCodes raw codes)
    (h : CodeAt raw codes p symbol code len) (hlen : fastBits < len) :
    fastEntries (tableEntries raw codes) (code/2^(len-fastBits)) = (0,0) := by
  refine foldl_fill_of_not _ _ _ ?_
  rintro ⟨code',len',symbol'⟩ he hclaim
  obtain ⟨he,hlen'⟩ := List.mem_filter.mp he
  simp only [decide_eq_true_eq] at hlen' hclaim
  obtain ⟨q,hq⟩ := mem_tableEntries he
  have hlen16 := h.len_pos.2
  have hqp : q < p := by
    rcases Nat.lt_trichotomy q p with hlt | heq | hgt
    · exact hlt
    · subst heq
      have := Option.some.inj (hq.2.2.symm.trans h.2.2)
      simp only at this
      omega
    · have := (hcanonical.ordered h hq hgt).1
      simp only at this
      omega
  obtain ⟨-,hordered⟩ := hcanonical.ordered hq h hqp
  simp only at hordered
  have hlong : code < (code/2^(len-fastBits)+1)*2^(len-fastBits) :=
    Nat.lt_mul_of_div_lt (Nat.lt_succ_self _) (Nat.two_pow_pos _)
  have hsplit : 2^(len-fastBits)*2^(16-len) = 2^4 := by
    rw [← pow_add]
    congr 1
    unfold fastBits at hlen ⊢
    omega
  have hsplit' : 2^(16-len') = 2^(fastBits-len')*2^4 := by
    rw [← pow_add]
    congr 1
    unfold fastBits at hlen' ⊢
    omega
  have hbelow := Nat.mul_lt_mul_of_pos_right hlong (Nat.two_pow_pos (16-len))
  rw [Nat.mul_assoc,hsplit] at hbelow
  rw [hsplit',← Nat.mul_assoc] at hordered
  have hle := Nat.lt_of_mul_lt_mul_right (Nat.lt_of_le_of_lt hordered hbelow)
  have hlt := Nat.lt_mul_of_div_lt (show code/2^(len-fastBits)/2^(fastBits-len') < code'+1 by omega)
    (Nat.two_pow_pos _)
  omega

/-- How many codes there are of a length, and how many of smaller ones. -/
def lengthCount (raw : RawHuffmanTable) (len : ℕ) : ℕ :=
  if len = 0 then 0 else raw.bits.getD (len-1) 0
def lengthStart (raw : RawHuffmanTable) (len : ℕ) : ℕ := (raw.bits.take (len-1)).sum

/-- The table is made of canonical codes. -/
structure BuiltFrom (raw : RawHuffmanTable) (role : HuffmanTableRole) (codes : List ℕ)
    (table : HuffmanTable) : Prop where
  canonical : CanonicalCodes raw codes
  fast_eq : table.fast = fastEntries (tableEntries raw codes)
  packed_eq : ∀ idx, table.packed idx = packedEntry role idx (table.fast idx).1 (table.fast idx).2
  maxCode_eq : ∀ len, table.maxCode len = if lengthCount raw len = 0 then (-1 : ℤ)
    else ((codes.getD (lengthStart raw len+lengthCount raw len-1) 0 : ℕ) : ℤ)
  valOffset_eq : ∀ len, lengthCount raw len ≠ 0 → table.valOffset len =
    (lengthStart raw len : ℤ)-((codes.getD (lengthStart raw len) 0 : ℕ) : ℤ)
  values_eq : table.values = raw.values

theorem exists_builtFrom {role : HuffmanTableRole} {table : HuffmanTable}
    (h : HuffmanTable.fromRaw raw role = .ok table) : ∃ codes, BuiltFrom raw role codes table := by
  unfold HuffmanTable.fromRaw at h
  cases hderive : deriveCanonicalHuffman raw.bits raw.values.length with
  | error error =>
      rw [hderive] at h
      cases h
  | ok canonical =>
      rw [hderive] at h
      cases h
      unfold deriveCanonicalHuffman at hderive
      dsimp only at hderive
      split_ifs at hderive with h1 h2 h3
      obtain ⟨codes,hcodes,hderive⟩ := Fallible.bind_eq_ok.mp hderive
      cases hderive
      refine ⟨codes,⟨hcodes,?_⟩,rfl,fun _ => rfl,fun _ => rfl,fun len hlen => ?_,rfl⟩
      · exact not_not.mp h3
      · show (if lengthCount raw len = 0 then (0 : ℤ) else _) = _
        rw [if_neg hlen]
        rfl

/-- The places of the codes of one length. -/
theorem size_at_iff (hpos : 0 < len) (hlen : len ≤ 16) :
    (codeSizes raw.bits)[p]? = some len ↔
      lengthStart raw len ≤ p ∧ p < lengthStart raw len+lengthCount raw len := by
  obtain ⟨before,after,hsplit,hlength,hbefore,hafter⟩ :=
    codeSizes_split hpos (raw.bits_length.symm ▸ hlen)
  have hcount : lengthCount raw len = raw.bits.getD (len-1) 0 := if_neg (by omega)
  rw [hsplit,List.append_assoc,lengthStart,← hlength,hcount]
  by_cases h1 : p < before.length
  · rw [List.getElem?_append_left h1]
    refine ⟨fun h => ?_,fun h => by omega⟩
    have := hbefore len (List.mem_of_getElem? h)
    omega
  · rw [List.getElem?_append_right (by omega)]
    by_cases h2 : p-before.length < raw.bits.getD (len-1) 0
    · rw [List.getElem?_append_left (by rwa [List.length_replicate]),List.getElem?_replicate,
        if_pos h2]
      exact ⟨fun _ => by omega,fun _ => rfl⟩
    · rw [List.getElem?_append_right (by rw [List.length_replicate]; omega)]
      refine ⟨fun h => ?_,fun h => by omega⟩
      have := hafter len (List.mem_of_getElem? h)
      omega

/-- Codes of one length count up with their places. -/
theorem CanonicalCodes.consecutive (hcanonical : CanonicalCodes raw codes)
    (h : CodeAt raw codes p symbol code len) (hpq : p ≤ q)
    (hq : q < lengthStart raw len+lengthCount raw len) : codes[q]? = some (code+(q-p)) := by
  obtain ⟨hpos,hlen⟩ := h.len_pos
  have hp := (size_at_iff hpos hlen).mp h.2.2
  obtain ⟨dcode,si,hdrop⟩ := assignCodes_drop hcanonical.assigned p
  have hrun : ∀ n, p+n ≤ q → codes[p+n]? = some (dcode*2^(len-si)+n) := by
    intro n hn
    have hsizes : ∀ i ≤ n, (List.drop p (codeSizes raw.bits))[i]? = some len := by
      intro i hi
      rw [List.getElem?_drop]
      exact (size_at_iff hpos hlen).mpr (by omega)
    have := assignCodes_run hdrop hsizes
    rwa [List.getElem?_drop] at this
  have hfirst := hrun 0 (by omega)
  rw [Nat.add_zero,h.2.1,Nat.add_zero] at hfirst
  have hlast := hrun (q-p) (by omega)
  rw [← Option.some.inj hfirst,show p+(q-p) = q by omega] at hlast
  exact hlast

variable {role : HuffmanTableRole} {table : HuffmanTable}

/-- The comparison of a length below that of the code fails, that of its own length holds. -/
theorem slow_compare (hbuilt : BuiltFrom raw role codes table)
    (h : CodeAt raw codes p symbol code len) {code16 : ℕ} (hcode : code16/2^(16-len) = code)
    {l : ℕ} (hl : l ≤ len) (hpos : 0 < l) :
    ((code16 >>> (16-l) : ℕ) : ℤ) ≤ table.maxCode l ↔ l = len := by
  have hlen := h.len_pos
  rw [hbuilt.maxCode_eq,Nat.shiftRight_eq_div_pow]
  by_cases heq : l = len
  · subst heq
    have hp := (size_at_iff hpos hlen.2).mp h.2.2
    have hlast := hbuilt.canonical.consecutive h
      (show p ≤ lengthStart raw l+lengthCount raw l-1 by omega) (by omega)
    rw [if_neg (by omega),hcode,List.getD_eq_getElem?_getD,hlast,Option.getD_some]
    simp
  · have hlt : l < len := by omega
    refine ⟨fun hle => absurd hle (Int.not_le.mpr ?_),fun h => absurd h heq⟩
    split_ifs with hcount
    · exact Int.lt_of_lt_of_le (by decide) (Int.natCast_nonneg _)
    · have hq : (codeSizes raw.bits)[lengthStart raw l+lengthCount raw l-1]? = some l :=
        (size_at_iff hpos (by omega)).mpr (by omega)
      obtain ⟨hqlt,-⟩ := List.getElem?_eq_some_iff.mp hq
      have hvalue : ∃ symbol', raw.values[lengthStart raw l+lengthCount raw l-1]? = some symbol' :=
        ⟨_,List.getElem?_eq_getElem (hbuilt.canonical.length_eq ▸ hqlt)⟩
      have hcode' : ∃ code', codes[lengthStart raw l+lengthCount raw l-1]? = some code' :=
        ⟨_,List.getElem?_eq_getElem (assignCodes_length hbuilt.canonical.assigned ▸ hqlt)⟩
      obtain ⟨symbol',hvalue⟩ := hvalue
      obtain ⟨code',hcode'⟩ := hcode'
      have hat : CodeAt raw codes _ symbol' code' l := ⟨hvalue,hcode',hq⟩
      have hqp : lengthStart raw l+lengthCount raw l-1 < p := by
        rcases Nat.lt_trichotomy (lengthStart raw l+lengthCount raw l-1) p with hlt | heq' | hgt
        · exact hlt
        · rw [heq',h.2.2] at hq
          exact absurd (Option.some.inj hq).symm heq
        · have := (hbuilt.canonical.ordered h hat hgt).1
          omega
      obtain ⟨-,hordered⟩ := hbuilt.canonical.ordered hat h hqp
      have hge := Nat.div_mul_le_self code16 (2^(16-len))
      rw [hcode] at hge
      have hnext : code'+1 ≤ code16/2^(16-l) :=
        (Nat.le_div_iff_mul_le (Nat.two_pow_pos _)).mpr (hordered.trans hge)
      rw [List.getD_eq_getElem?_getD,hcode',Option.getD_some]
      omega

/-- A long code is found by the comparisons, and its symbol by its distance from the first code
of its length. -/
theorem slow_of_codeAt (hbuilt : BuiltFrom raw role codes table)
    (h : CodeAt raw codes p symbol code len) (hlen : fastBits < len) {code16 : ℕ}
    (hcode : code16/2^(16-len) = code) :
    table.slowLen code16 = some len ∧
      table.values[(((code16 >>> (16-len) : ℕ) : ℤ)+table.valOffset len).toNat]? = some symbol := by
  have hlen16 := h.len_pos.2
  have hcompare := fun l hl hpos => @slow_compare raw codes p symbol code len role table hbuilt h
    code16 hcode l hl hpos
  unfold fastBits at hlen
  refine ⟨?_,?_⟩
  · unfold HuffmanTable.slowLen
    have hlens : len = 13 ∨ len = 14 ∨ len = 15 ∨ len = 16 := by omega
    generalize htest : (fun l => decide (((code16 >>> (16-l) : ℕ) : ℤ) ≤ table.maxCode l)) = test
    have hyes : test len = true := by
      rw [← htest]
      exact decide_eq_true ((hcompare len (Nat.le_refl _) (by omega)).mpr rfl)
    have hno : ∀ l < len, 0 < l → ¬test l = true := by
      intro l hl hpos hle
      rw [← htest] at hle
      have := (hcompare l (Nat.le_of_lt hl) hpos).mp (of_decide_eq_true hle)
      omega
    rcases hlens with rfl | rfl | rfl | rfl
    · exact List.find?_cons_of_pos hyes
    · rw [List.find?_cons_of_neg (hno 13 (by omega) (by omega))]
      exact List.find?_cons_of_pos hyes
    · rw [List.find?_cons_of_neg (hno 13 (by omega) (by omega)),
        List.find?_cons_of_neg (hno 14 (by omega) (by omega))]
      exact List.find?_cons_of_pos hyes
    · rw [List.find?_cons_of_neg (hno 13 (by omega) (by omega)),
        List.find?_cons_of_neg (hno 14 (by omega) (by omega)),
        List.find?_cons_of_neg (hno 15 (by omega) (by omega))]
      exact List.find?_cons_of_pos hyes
  · have hp := (size_at_iff h.len_pos.1 hlen16).mp h.2.2
    have hfirstSize : (codeSizes raw.bits)[lengthStart raw len]? = some len :=
      (size_at_iff h.len_pos.1 hlen16).mpr (by omega)
    obtain ⟨hlt,-⟩ := List.getElem?_eq_some_iff.mp hfirstSize
    have hfirst : CodeAt raw codes (lengthStart raw len) _ _ len :=
      ⟨List.getElem?_eq_getElem (hbuilt.canonical.length_eq ▸ hlt),
        List.getElem?_eq_getElem (assignCodes_length hbuilt.canonical.assigned ▸ hlt),hfirstSize⟩
    have hself := hbuilt.canonical.consecutive hfirst hp.1 hp.2
    rw [h.2.1] at hself
    have hcode' := Option.some.inj hself
    rw [hbuilt.values_eq,hbuilt.valOffset_eq len (by omega),Nat.shiftRight_eq_div_pow,hcode,
      List.getD_eq_getElem?_getD,hfirst.2.1,Option.getD_some]
    rw [show (((code : ℕ) : ℤ)+((lengthStart raw len : ℤ)-_)).toNat = p by
      rw [hcode']
      omega]
    exact h.1

end J2kNative
