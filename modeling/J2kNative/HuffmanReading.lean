import J2kNative.JpegHuffman
import J2kNative.Lockstep
import J2kNative.ReaderPadding

/-!
# Reading Huffman codes

What the decoding steps yield at a reader that has a code ahead.
-/
namespace J2kNative

open BitReader

/-! ## The packed entries -/

theorem fromU16_toU16 {d : ℤ} (h : -2^15 ≤ d ∧ d < 2^15) : fromU16 (toU16 d) = d := by
  unfold fromU16 toU16
  have hmod : 0 ≤ d % 2^16 := Int.emod_nonneg d (by decide)
  have hcast : (((d % 2^16).toNat : ℕ) : ℤ) = d % 2^16 := Int.toNat_of_nonneg hmod
  split_ifs with hlt
  · rw [hcast]
    omega
  · rw [hcast]
    omega

theorem toU16_lt (d : ℤ) : toU16 d < 2^16 := by
  have := Int.emod_lt_of_pos d (show (0 : ℤ) < 2^16 by decide)
  have := Int.emod_nonneg d (show (2^16 : ℤ) ≠ 0 by decide)
  unfold toU16
  omega

/-- The parts of a packed entry. -/
theorem packDcValue_parts {len : ℕ} (hlen : len < 16) (d : ℤ) :
    (packDcValue len d) &&& 0xF = len ∧ ((packDcValue len d) >>> 8) &&& 0xFFFF = toU16 d := by
  have hlt : len < 2^8 := by omega
  have hpack : packDcValue len d = toU16 d*2^8+len := by
    rw [packDcValue,← Nat.shiftLeft_add_eq_or_of_lt hlt,Nat.shiftLeft_eq]
  have := toU16_lt d
  rw [hpack,show (0xF : ℕ) = 2^4-1 by norm_num,show (0xFFFF : ℕ) = 2^16-1 by norm_num,
    Nat.and_two_pow_sub_one_eq_mod,Nat.and_two_pow_sub_one_eq_mod,Nat.shiftRight_eq_div_pow]
  omega

/-! ## The bits ahead and the ones after them -/

/-- The bits `w` come next, in the real bits `u` or in the ones after them. -/
def Ahead (u w : List ℕ) : Prop := (u ++ List.replicate 16 1).take w.length = w

variable {r : BitReader} {u w : List ℕ} {n : ℕ}

theorem ahead_append (w u : List ℕ) : Ahead (w ++ u) w := by
  rw [Ahead,List.append_assoc,List.take_left]

theorem view_le (h : Reads r u) : ∀ b ∈ u ++ List.replicate 16 1, b ≤ 1 := by
  intro b hb
  rcases List.mem_append.mp hb with hb | hb
  · exact h.le_one b hb
  · exact (List.eq_of_mem_replicate hb).le

theorem view_length (u : List ℕ) : 16 ≤ (u ++ List.replicate 16 1).length := by
  rw [List.length_append,List.length_replicate]
  exact Nat.le_add_left _ _

theorem peek_view (h : Reads r u) (hn : n ≤ r.bits) (h16 : n ≤ 16) :
    r.peekBits n = bitValue ((u ++ List.replicate 16 1).take n) := by
  rw [peekBits_eq h hn,List.take_append,List.take_append,List.take_replicate,List.take_replicate,
    min_eq_left (Nat.sub_le _ _),min_eq_left (by omega)]

/-- The bits of a prefix. -/
theorem take_value (hbits : ∀ b ∈ u, b ≤ 1) (hu : n ≤ u.length) {l : ℕ} (hl : l ≤ n) :
    bitValue (u.take n)/2^(n-l) = bitValue (u.take l) := by
  have hsplit := (bitValue_split (fun b hb => hbits b (List.mem_of_mem_take hb) :
    ∀ b ∈ u.take n, b ≤ 1) (n := l)).1
  rw [List.length_take,min_eq_left hu,List.take_take,min_eq_left hl] at hsplit
  exact hsplit

theorem peek_starts (h : Reads r u) (hahead : Ahead u w) (hw : w.length ≤ n) (h16 : n ≤ 16)
    (hn : n ≤ r.bits) : r.peekBits n/2^(n-w.length) = bitValue w := by
  rw [peek_view h hn h16,take_value (view_le h) (by simp; omega) hw,hahead]

/-- A packed entry for bits that come next. -/
theorem decodeFastDc_packed {table : HuffmanTable} {d : ℤ} (hpos : 0 < w.length) (hlen : w.length ≤ fastBits)
    (hpacked : ∀ idx, idx/2^(fastBits-w.length) = bitValue w →
      table.packed idx = packDcValue w.length d)
    (hd : -2^15 ≤ d ∧ d < 2^15) (h : Reads r u) (hahead : Ahead u w) (hf : Fills fastBits r u) :
    ∃ r', table.decodeFastDc r = .ok (d,r') ∧ Took w.length fastBits r u r' := by
  obtain ⟨q,hq⟩ := exists_looked (by decide : fastBits ≤ 57) h hf
  have hentry := hpacked _ (peek_starts hq.reads hahead hlen (by decide) hq.bits)
  obtain ⟨hparts,hvalue⟩ := packDcValue_parts (show w.length < 16 by unfold fastBits at hlen; omega) d
  have hne : packDcValue w.length d ≠ 0 := by
    intro hzero
    rw [hzero] at hparts
    simp at hparts
    omega
  refine ⟨consumed w.length q,(run_bind_ok hq.run).trans ?_,hq.take hlen⟩
  show (if table.packed (q.peekBits fastBits) ≠ 0 then _ else _ : Read ℤ) q = _
  rw [if_pos (hentry ▸ hne),hentry,hparts,hvalue,fromU16_toU16 hd]
  rfl

end J2kNative
