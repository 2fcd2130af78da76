import J2kNative.JpegBitWriter
import J2kNative.ReaderLocality

/-!
# What the bit reader makes of the bytes of the bit writer

The bytes that the writer emits for a string of bits hold no marker, and read back
they are the string with the ones of the last byte.
-/
namespace J2kNative

/-- The bytes hold the data `data`, whatever follows them. -/
structure Carries (bytes data : List ℕ) : Prop where
  split : ∀ rest, splitAhead false (bytes ++ rest) =
    (data ++ (splitAhead false rest).1,(splitAhead false rest).2)
  coded : ∀ rest, entropyCoded false (bytes ++ rest) = entropyCoded false rest
  lt : ∀ b ∈ data, b < 256

theorem Carries.nil : Carries [] [] := ⟨fun _ => rfl,fun _ => rfl,nofun⟩

theorem Carries.append {bytes data bytes' data' : List ℕ} (h : Carries bytes data)
    (h' : Carries bytes' data') : Carries (bytes ++ bytes') (data ++ data') := by
  refine ⟨fun rest => ?_,fun rest => ?_,fun b hb => ?_⟩
  · rw [List.append_assoc,h.split,h'.split,List.append_assoc]
  · rw [List.append_assoc,h.coded,h'.coded]
  · rcases List.mem_append.mp hb with hb | hb
    · exact h.lt b hb
    · exact h'.lt b hb

theorem carries_stuffed {b : ℕ} (hb : b < 256) : Carries (Emission.stuffed b) [b] := by
  refine ⟨fun rest => ?_,fun rest => ?_,fun c hc => ?_⟩
  · unfold Emission.stuffed
    split_ifs with h
    · simp [splitAhead,h]
    · simp [splitAhead,h]
  · unfold Emission.stuffed
    split_ifs with h
    · simp [entropyCoded]
    · simp [entropyCoded,h]
  · rw [List.mem_singleton.mp hc]
    exact hb

theorem codeBits_append_bit (current used : ℕ) {bit : ℕ} (hbit : bit ≤ 1) :
    codeBits (current*2+bit) (used+1) = codeBits current used ++ [bit] := by
  have hlast : (current*2+bit) % 2 = bit := by omega
  simp only [codeBits,List.range_succ_eq_map,List.reverse_cons,List.map_append,List.map_cons,
    List.map_nil,pow_zero,Nat.div_one,hlast]
  rw [← List.map_reverse,List.map_map]
  refine congrArg (· ++ [bit]) (List.map_congr_left fun i _ => ?_)
  simp only [Function.comp,Nat.succ_eq_add_one,pow_succ']
  rw [← Nat.div_div_eq_div_mul,show (current*2+bit)/2 = current by omega]

/-- Ones after a code. -/
theorem codeBits_ones (current used n : ℕ) :
    codeBits (current*2^n+2^n-1) (used+n) = codeBits current used ++ List.replicate n 1 := by
  induction n with
  | zero => simp
  | succ n ih =>
      have hpos := Nat.two_pow_pos n
      rw [List.replicate_succ',← List.append_assoc,← ih,← codeBits_append_bit _ _ (Nat.le_refl 1)]
      refine congrArg (fun c => codeBits c (used+n+1)) ?_
      rw [pow_succ,← Nat.mul_assoc]
      omega

/-- The pending bits. -/
def Pending (current used : ℕ) : Prop := used < 8 ∧ current < 2^used

/-- Bits through the writer: whole bytes, and the pending bits after them. -/
theorem emission_bits {l : List ℕ} (hl : ∀ b ∈ l, b ≤ 1) {current used : ℕ}
    (hp : Pending current used) :
    ∃ data, Carries (Emission.bits l current used).1 data ∧
      Pending (Emission.bits l current used).2.1 (Emission.bits l current used).2.2 ∧
      codeBits current used ++ l = bytesBits data ++
        codeBits (Emission.bits l current used).2.1 (Emission.bits l current used).2.2 := by
  induction l generalizing current used with
  | nil => exact ⟨[],.nil,hp,by simp [Emission.bits,Emission.nothing,bytesBits]⟩
  | cons b l ih =>
      obtain ⟨hused,hcurrent⟩ := hp
      have hb := hl b (by simp)
      have hl' : ∀ b ∈ l, b ≤ 1 := fun b hb => hl b (List.mem_cons_of_mem _ hb)
      have hlt : current*2+b < 2^(used+1) := by
        rw [pow_succ]
        omega
      have hmod : current*2 % 256 = current*2 := by
        refine Nat.mod_eq_of_lt ?_
        have : 2^(used+1) ≤ 2^8 := Nat.pow_le_pow_right (by decide) (by omega)
        omega
      have happend := codeBits_append_bit current used hb
      change ∃ data, Carries ((Emission.bit b).andThen (Emission.bits l) current used).1 data ∧
        Pending ((Emission.bit b).andThen (Emission.bits l) current used).2.1
          ((Emission.bit b).andThen (Emission.bits l) current used).2.2 ∧ _ = _ ++ codeBits
            ((Emission.bit b).andThen (Emission.bits l) current used).2.1
            ((Emission.bit b).andThen (Emission.bits l) current used).2.2
      unfold Emission.andThen Emission.bit
      by_cases hfull : used+1 = 8
      · obtain ⟨data,hdata,hpending,hbits⟩ := ih hl'
          (show Pending 0 0 from ⟨by decide,by decide⟩)
        simp only [if_pos hfull,hmod]
        refine ⟨(current*2+b)::data,?_,hpending,?_⟩
        · rw [hfull] at hlt
          exact (carries_stuffed hlt).append hdata
        · rw [show codeBits current used ++ b::l = codeBits (current*2+b) (used+1) ++ l by
            rw [happend,List.append_assoc]
            rfl,hfull]
          change codeBits _ 8 ++ l = codeBits _ 8 ++ bytesBits data ++ _
          rw [List.append_assoc,← hbits]
          rfl
      · obtain ⟨data,hdata,hpending,hbits⟩ := ih hl'
          (show Pending (current*2+b) (used+1) from ⟨by omega,hlt⟩)
        simp only [if_neg hfull,hmod,List.nil_append]
        refine ⟨data,hdata,hpending,?_⟩
        rw [← hbits,happend,List.append_assoc]
        rfl

/-- The bytes of the writer, filled up with ones: the bits read back, with the ones after them. -/
theorem carries_bits {l : List ℕ} (hl : ∀ b ∈ l, b ≤ 1) :
    ∃ data padding, Carries (((Emission.bits l).andThen Emission.align) 0 0).1 data ∧
      padding < 8 ∧ bytesBits data = l ++ List.replicate padding 1 := by
  obtain ⟨data,hdata,⟨hused,hcurrent⟩,hbits⟩ := emission_bits hl
    (show Pending 0 0 from ⟨by decide,by decide⟩)
  change ∃ data padding, Carries ((Emission.bits l 0 0).1 ++
    (Emission.align (Emission.bits l 0 0).2.1 (Emission.bits l 0 0).2.2).1) data ∧ _
  generalize (Emission.bits l 0 0).2.1 = current at hcurrent hbits
  generalize (Emission.bits l 0 0).2.2 = used at hused hcurrent hbits
  change l = _ at hbits
  unfold Emission.align
  by_cases hempty : used = 0
  · rw [if_pos hempty]
    subst hempty
    refine ⟨data,0,?_,by decide,?_⟩
    · rw [List.append_nil]
      exact hdata
    · rw [hbits]
      simp [codeBits]
  · rw [if_neg hempty]
    have hsplit : 2^used*2^(8-used) = 256 := by
      rw [← pow_add,show used+(8-used) = 8 by omega]
      rfl
    have hle : (current+1)*2^(8-used) ≤ 256 := hsplit ▸ Nat.mul_le_mul_right _ hcurrent
    have hpos := Nat.two_pow_pos (8-used)
    rw [Nat.succ_mul] at hle
    rw [Nat.mod_eq_of_lt (by omega)]
    refine ⟨data ++ [_],8-used,hdata.append (carries_stuffed (by omega)),by omega,?_⟩
    have hones := codeBits_ones current used (8-used)
    rw [show used+(8-used) = 8 by omega] at hones
    rw [bytesBits,List.flatMap_append,← bytesBits,hbits,List.append_assoc,← hones,
      Nat.add_sub_assoc hpos]
    simp [byteBits]

end J2kNative
