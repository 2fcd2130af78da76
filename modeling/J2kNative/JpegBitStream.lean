import J2kNative.JpegBitReader
import J2kNative.JpegBitWriter
import Mathlib.Data.List.GetD
import Mathlib.Tactic.Ring

/-!
# What the bit reader of the JPEG decoder reads

The bytes ahead of the reader end at the next marker, or at the end of the input;
`Reads` says which bits the reader still has to yield, those in the reservoir and
those of the bytes ahead. Every step of the reader is described by them.
-/
namespace J2kNative

/-! ## Bit strings -/

/-- The number that a string of bits spells, the highest bit first. -/
def bitValue : List ℕ → ℕ
  | [] => 0
  | b::l => b*2^l.length+bitValue l

theorem bitValue_append (l l' : List ℕ) :
    bitValue (l ++ l') = bitValue l*2^l'.length+bitValue l' := by
  induction l with
  | nil => simp [bitValue]
  | cons b l ih =>
      rw [List.cons_append,bitValue,bitValue,ih,List.length_append,pow_add]
      ring

theorem bitValue_lt {l : List ℕ} (h : ∀ b ∈ l, b ≤ 1) : bitValue l < 2^l.length := by
  induction l with
  | nil => simp [bitValue]
  | cons b l ih =>
      have hl := ih fun b hb => h b (List.mem_cons_of_mem _ hb)
      have hb := Nat.mul_le_mul_right (2^l.length) (h b (by simp))
      rw [bitValue,List.length_cons,pow_succ]
      omega

/-- The bits after the first ones, and the value of the first ones. -/
theorem bitValue_split {l : List ℕ} (h : ∀ b ∈ l, b ≤ 1) {n : ℕ} :
    bitValue l/2^(l.length-n) = bitValue (l.take n) ∧
      bitValue l % 2^(l.length-n) = bitValue (l.drop n) := by
  have hlt := @bitValue_lt (l.drop n) fun b hb => h b (List.mem_of_mem_drop hb)
  have hsplit := bitValue_append (l.take n) (l.drop n)
  rw [List.take_append_drop,List.length_drop,Nat.mul_comm] at hsplit
  rw [List.length_drop] at hlt
  rw [hsplit]
  refine ⟨?_,?_⟩
  · rw [Nat.mul_add_div (Nat.two_pow_pos _),Nat.div_eq_of_lt hlt,Nat.add_zero]
  · rw [Nat.mul_add_mod,Nat.mod_eq_of_lt hlt]

theorem codeBits_le {code len b : ℕ} (hb : b ∈ codeBits code len) : b ≤ 1 := by
  simp only [codeBits,List.mem_map] at hb
  obtain ⟨i,-,rfl⟩ := hb
  omega

theorem codeBits_succ (code len : ℕ) :
    codeBits code (len+1) = code/2^len % 2::codeBits code len := by
  simp [codeBits,List.range_succ]

/-- A code is the number its bits spell. -/
theorem bitValue_codeBits (code len : ℕ) : bitValue (codeBits code len) = code % 2^len := by
  induction len with
  | zero => simp [codeBits,bitValue,Nat.mod_one]
  | succ len ih =>
      rw [codeBits_succ,bitValue,ih,length_codeBits,Nat.pow_succ,Nat.mod_mul]
      ring

/-- The bits of a byte. -/
def byteBits (b : ℕ) : List ℕ := codeBits b 8

def bytesBits (l : List ℕ) : List ℕ := l.flatMap byteBits

theorem bytesBits_le {l : List ℕ} {b : ℕ} (hb : b ∈ bytesBits l) : b ≤ 1 := by
  obtain ⟨c,-,hb⟩ := List.mem_flatMap.mp hb
  exact codeBits_le hb

/-! ## The bytes up to the next marker -/

/-- The data bytes up to the next marker, its code and what follows it; `fill` tells whether
a byte `0xFF` came before. -/
def splitAhead : Bool → List ℕ → List ℕ × Option (ℕ × List ℕ)
  | _,[] => ([],none)
  | true,b::l =>
    if b = 0xFF then splitAhead true l
    else if b = 0 then (0xFF::(splitAhead false l).1,(splitAhead false l).2)
    else ([],some (b,l))
  | false,b::l =>
    if b = 0xFF then splitAhead true l
    else (b::(splitAhead false l).1,(splitAhead false l).2)

/-- After bytes `0xFF` comes the stuffed zero of the last one or the code of a marker. -/
theorem splitAhead_fill (l : List ℕ) :
    splitAhead true l = match l.drop (BitReader.fillLength l) with
      | [] => ([],none)
      | b::rest =>
        if b = 0 then (0xFF::(splitAhead false rest).1,(splitAhead false rest).2)
        else ([],some (b,rest)) := by
  induction l with
  | nil => rfl
  | cons b l ih =>
      rw [splitAhead,BitReader.fillLength]
      by_cases h : b = 0xFF
      · rw [if_pos h,if_pos h,List.drop_succ_cons]
        exact ih
      · rw [if_neg h,if_neg h,List.drop_zero]

namespace BitReader

/-- The data bytes that the reader has not fetched yet. -/
def ahead (r : BitReader) : List ℕ :=
  if r.marker.isSome then [] else (splitAhead false (r.bytes.drop r.pos)).1

/-- The code of the next marker and what follows it. -/
def next (r : BitReader) : Option (ℕ × List ℕ) :=
  match r.marker with
  | some m => some (m,r.bytes.drop r.markerEnd)
  | none => (splitAhead false (r.bytes.drop r.pos)).2

/-- Nothing is left to fetch before the next marker, and the marker is seen. -/
def Drained (r : BitReader) : Prop := r.ahead = [] ∧ (r.next.isSome → r.marker.isSome)

/-- The bytes ahead where the first is `0xFF`. -/
theorem splitAhead_ff {bytes : List ℕ} {pos : ℕ} (hlt : pos < bytes.length)
    (hb : byteAt bytes pos = 0xFF) :
    splitAhead false (bytes.drop pos) =
      if bytes.length ≤ afterFill bytes (pos+1) then ([],none)
      else if byteAt bytes (afterFill bytes (pos+1)) = 0 then
        (0xFF::(splitAhead false (bytes.drop (afterFill bytes (pos+1)+1))).1,
          (splitAhead false (bytes.drop (afterFill bytes (pos+1)+1))).2)
      else ([],some (byteAt bytes (afterFill bytes (pos+1)),
        bytes.drop (afterFill bytes (pos+1)+1))) := by
  rw [drop_cons hlt,splitAhead,if_pos hb,splitAhead_fill,List.drop_drop]
  change (match bytes.drop (afterFill bytes (pos+1)) with
    | [] => ([],none)
    | b::rest =>
      if b = 0 then (0xFF::(splitAhead false rest).1,(splitAhead false rest).2)
      else ([],some (b,rest))) = _
  split_ifs with hend hzero
  · rw [List.drop_eq_nil_of_le hend]
  · rw [drop_cons (Nat.lt_of_not_le hend)]
    exact if_pos hzero
  · rw [drop_cons (Nat.lt_of_not_le hend)]
    exact if_neg hzero

/-- What one attempt to refill does: it stops and has seen the marker, if there is one, or it
fetches the next data byte. -/
theorem refillOneByte_spec (r : BitReader) :
    (r.ahead = [] ∧ ∃ pos marker markerEnd, r.refillOneByte =
        (false,{ r with pos := pos, marker := marker, markerEnd := markerEnd }) ∧
        r.refillOneByte.2.next = r.next ∧ Drained r.refillOneByte.2) ∨
      ∃ b ds pos, r.ahead = b::ds ∧ r.refillOneByte = (true,{ r.pushByte b with pos := pos }) ∧
        r.refillOneByte.2.ahead = ds ∧ r.refillOneByte.2.next = r.next ∧ r.marker = none := by
  unfold refillOneByte
  dsimp only
  by_cases hstop : r.marker.isSome ∨ r.bytes.length ≤ r.pos
  · rw [if_pos hstop]
    cases hmarker : r.marker with
    | some m =>
        refine .inl ⟨by simp [ahead,hmarker],r.pos,r.marker,r.markerEnd,rfl,rfl,?_⟩
        exact ⟨by simp [ahead,hmarker],by simp [hmarker]⟩
    | none =>
        have hdrop : r.bytes.drop r.pos = [] :=
          List.drop_eq_nil_of_le (by simpa [hmarker] using hstop)
        have hahead : r.ahead = [] := by simp [ahead,hdrop,splitAhead]
        have hnext : r.next = none := by simp [next,hmarker,hdrop,splitAhead]
        refine .inl ⟨hahead,r.pos,r.marker,r.markerEnd,rfl,rfl,hahead,?_⟩
        simp [hnext]
  · rw [if_neg hstop]
    obtain ⟨hmarker,hlt⟩ := not_or.mp hstop
    have hnone : r.marker = none := by simpa using hmarker
    have hahead : r.ahead = (splitAhead false (r.bytes.drop r.pos)).1 := by
      rw [ahead,if_neg hmarker]
    have hnext : r.next = (splitAhead false (r.bytes.drop r.pos)).2 := by rw [next,hnone]
    by_cases hb : byteAt r.bytes r.pos = 0xFF
    · rw [splitAhead_ff (Nat.lt_of_not_le hlt) hb] at hahead hnext
      rw [if_pos hb]
      by_cases hcode : r.bytes.length ≤ afterFill r.bytes (r.pos+1)
      · rw [if_pos hcode] at hahead hnext ⊢
        refine .inl ⟨hahead,r.pos,r.marker,r.markerEnd,rfl,rfl,hahead,?_⟩
        simp [hnext]
      · rw [if_neg hcode] at hahead hnext ⊢
        by_cases hzero : byteAt r.bytes (afterFill r.bytes (r.pos+1)) = 0
        · rw [if_pos hzero] at hahead hnext ⊢
          refine .inr ⟨0xFF,_,afterFill r.bytes (r.pos+1)+1,hahead,rfl,?_,?_,hnone⟩
          · simp [ahead,pushByte,hnone]
          · rw [hnext]
            simp [next,pushByte,hnone]
        · rw [if_neg hzero] at hahead hnext ⊢
          refine .inl ⟨hahead,_,_,_,rfl,?_,?_,?_⟩
          · exact hnext.symm
          · simp [ahead]
          · simp
    · rw [drop_cons (Nat.lt_of_not_le hlt),splitAhead,if_neg hb] at hahead hnext
      rw [if_neg hb]
      refine .inr ⟨byteAt r.bytes r.pos,_,r.pos+1,hahead,rfl,?_,?_,hnone⟩
      · simp [ahead,pushByte,hnone]
      · rw [hnext]
        simp [next,pushByte,hnone]

/-! ## The bits ahead -/

/-- The reservoir holds the real bits `l`, then the synthetic ones. -/
structure Loaded (r : BitReader) (l : List ℕ) : Prop where
  length_eq : l.length+r.syntheticBits = r.bits
  room : r.bits ≤ 64
  le_one : ∀ b ∈ l, b ≤ 1
  acc_eq : r.acc = bitValue (l ++ List.replicate r.syntheticBits 1)*2^(64-r.bits)

/-- The real bits still to come before the next marker. -/
def Reads (r : BitReader) (u : List ℕ) : Prop :=
  ∃ l, Loaded r l ∧ u = l ++ bytesBits r.ahead ∧ (∀ b ∈ r.ahead, b < 256) ∧
    (0 < r.syntheticBits → r.ahead = [])

theorem Reads.le_one {r : BitReader} {u : List ℕ} (h : Reads r u) : ∀ b ∈ u, b ≤ 1 := by
  obtain ⟨l,hl,rfl,-,-⟩ := h
  intro b hb
  rcases List.mem_append.mp hb with hb | hb
  · exact hl.le_one b hb
  · exact bytesBits_le hb

theorem Loaded.pushByte {r : BitReader} {l : List ℕ} (h : Loaded r l) (hs : r.syntheticBits = 0)
    (hbits : r.bits ≤ 56) {b : ℕ} (hb : b < 256) : Loaded (r.pushByte b) (l ++ byteBits b) := by
  have hlen : (byteBits b).length = 8 := length_codeBits b 8
  have hroom := h.room
  refine ⟨?_,?_,?_,?_⟩
  · have := h.length_eq
    simp only [BitReader.pushByte,List.length_append,hlen]
    omega
  · simp only [BitReader.pushByte]
    omega
  · intro c hc
    rcases List.mem_append.mp hc with hc | hc
    · exact h.le_one c hc
    · exact codeBits_le hc
  · have hacc := h.acc_eq
    have hsplit : 64-r.bits = 8+(64-8-r.bits) := by omega
    have hlt : b <<< (64-8-r.bits) < 2^(64-r.bits) := by
      rw [Nat.shiftLeft_eq,hsplit,pow_add]
      exact Nat.mul_lt_mul_of_pos_right hb (Nat.two_pow_pos _)
    simp only [BitReader.pushByte,hs,List.replicate_zero,List.append_nil,accBits] at hacc ⊢
    rw [hacc,← Nat.shiftLeft_eq,← Nat.shiftLeft_add_eq_or_of_lt hlt,bitValue_append,hlen,
      byteBits,bitValue_codeBits,Nat.mod_eq_of_lt (show b < 2^8 from hb),Nat.shiftLeft_eq,Nat.shiftLeft_eq,hsplit,pow_add,
      show 64-(r.bits+8) = 64-8-r.bits by omega]
    ring

/-- Nothing that a step leaves alone changed. -/
structure Kept (r r' : BitReader) : Prop where
  next : r'.next = r.next
  allowEofPadding : r'.allowEofPadding = r.allowEofPadding

theorem Kept.trans {r s t : BitReader} (h : Kept r s) (h' : Kept s t) : Kept r t :=
  ⟨h'.next.trans h.next,h'.allowEofPadding.trans h.allowEofPadding⟩

/-- An attempt to refill keeps the bits ahead. -/
theorem reads_refillOneByte {r : BitReader} {u : List ℕ} (h : Reads r u) (hbits : r.bits ≤ 56) :
    Reads r.refillOneByte.2 u ∧ Kept r r.refillOneByte.2 ∧
      (r.refillOneByte.1 = true → r.refillOneByte.2.bits = r.bits+8) ∧
      (r.refillOneByte.1 = false → r.refillOneByte.2.bits = r.bits ∧
        Drained r.refillOneByte.2) := by
  obtain ⟨l,hl,rfl,hbytes,hsynthetic⟩ := h
  rcases r.refillOneByte_spec with ⟨hnil,pos,marker,markerEnd,heq,hnext,hdrained⟩ |
    ⟨b,ds,pos,hcons,heq,hahead,hnext,-⟩
  · refine ⟨⟨l,?_,?_,?_,fun _ => hdrained.1⟩,⟨hnext,by rw [heq]⟩,?_,fun _ => ⟨by rw [heq],hdrained⟩⟩
    · rw [heq]
      exact ⟨hl.length_eq,hl.room,hl.le_one,hl.acc_eq⟩
    · rw [hdrained.1,hnil]
    · rw [hdrained.1]
      exact nofun
    · rw [heq]
      exact nofun
  · have hs : r.syntheticBits = 0 := by
      by_contra hs
      rw [hsynthetic (Nat.pos_of_ne_zero hs)] at hcons
      cases hcons
    have hload := hl.pushByte hs hbits (hbytes b (by rw [hcons]; simp))
    refine ⟨⟨l ++ byteBits b,?_,?_,?_,?_⟩,⟨hnext,by rw [heq]; rfl⟩,fun _ => by rw [heq]; rfl,?_⟩
    · rw [heq]
      exact ⟨hload.length_eq,hload.room,hload.le_one,hload.acc_eq⟩
    · rw [hahead,hcons,bytesBits,List.flatMap_cons,List.append_assoc]
      rfl
    · rw [hahead]
      exact fun c hc => hbytes c (by rw [hcons]; exact List.mem_cons_of_mem _ hc)
    · intro hpos
      rw [heq] at hpos
      simp only [BitReader.pushByte,hs] at hpos
      exact absurd hpos (Nat.lt_irrefl 0)
    · rw [heq]
      exact nofun

/-- Refilling stops with enough bits, or with nothing left to fetch. -/
theorem reads_refillLoop {limit : ℕ} (hlimit : limit ≤ 57) (turns : ℕ) {r : BitReader} {u : List ℕ}
    (h : Reads r u) (hturns : limit ≤ r.bits+8*turns) :
    Reads (refillLoop limit turns r) u ∧ Kept r (refillLoop limit turns r) ∧
      r.bits ≤ (refillLoop limit turns r).bits ∧
      (limit ≤ (refillLoop limit turns r).bits ∨ Drained (refillLoop limit turns r)) := by
  induction turns generalizing r with
  | zero => exact ⟨h,⟨rfl,rfl⟩,Nat.le_refl _,.inl hturns⟩
  | succ turns ih =>
      rw [BitReader.refillLoop]
      by_cases hbits : r.bits < limit
      · rw [if_pos hbits]
        obtain ⟨hreads,hkept,hfull,hstop⟩ := reads_refillOneByte h (by omega)
        cases hb : r.refillOneByte.1 with
        | true =>
            have hmore := hfull hb
            obtain ⟨hr,hk,hle,hend⟩ := ih hreads (by omega)
            rw [if_pos rfl]
            exact ⟨hr,hkept.trans hk,by omega,hend⟩
        | false =>
            obtain ⟨hsame,hdrained⟩ := hstop hb
            rw [if_neg Bool.false_ne_true]
            exact ⟨hreads,hkept,by omega,.inr hdrained⟩
      · rw [if_neg hbits]
        exact ⟨h,⟨rfl,rfl⟩,Nat.le_refl _,.inl (by omega)⟩

theorem reads_refillTo {limit : ℕ} (hlimit : limit ≤ 57) {r : BitReader} {u : List ℕ}
    (h : Reads r u) :
    Reads (refillTo limit r) u ∧ Kept r (refillTo limit r) ∧ r.bits ≤ (refillTo limit r).bits ∧
      (limit ≤ (refillTo limit r).bits ∨ Drained (refillTo limit r)) :=
  reads_refillLoop hlimit limit h (by omega)

/-- All real bits are in the reservoir of a drained reader. -/
theorem Reads.length_le {r : BitReader} {u : List ℕ} (h : Reads r u) (hd : r.ahead = []) :
    u.length+r.syntheticBits = r.bits := by
  obtain ⟨l,hl,rfl,-,-⟩ := h
  rw [hd]
  simpa [bytesBits] using hl.length_eq

theorem reads_ensureBits {n : ℕ} (hn : n ≤ 57) {r : BitReader} {u : List ℕ} (h : Reads r u)
    (hu : n ≤ u.length) :
    ∃ r', ensureBits n r = .ok ((),r') ∧ Reads r' u ∧ Kept r r' ∧ n ≤ r'.bits := by
  obtain ⟨hr,hk,-,hend⟩ := reads_refillTo hn h
  have hle : n ≤ (refillTo n r).bits := by
    rcases hend with hend | hd
    · exact hend
    · have := hr.length_le hd.1
      omega
  refine ⟨refillTo n r,?_,hr,hk,hle⟩
  simp only [BitReader.ensureBits]
  rw [if_neg (by omega)]

theorem reads_pad {r : BitReader} {u : List ℕ} (h : Reads r u) (hd : r.ahead = []) {count : ℕ}
    (hcount : r.bits+count ≤ 64) :
    Reads (pad count r) u ∧ Kept r (pad count r) ∧ (pad count r).bits = r.bits+count ∧
      (pad count r).marker = r.marker := by
  induction count generalizing r with
  | zero => exact ⟨h,⟨rfl,rfl⟩,rfl,rfl⟩
  | succ count ih =>
      rw [BitReader.pad]
      obtain ⟨l,hl,rfl,hbytes,-⟩ := h
      have hlen := hl.length_eq
      have hpadded : Reads { r with
          acc := r.acc ||| 1 <<< (accBits-1-r.bits)
          bits := r.bits+1
          syntheticBits := r.syntheticBits+1 } (l ++ bytesBits r.ahead) := by
        refine ⟨l,⟨?_,?_,hl.le_one,?_⟩,rfl,hbytes,fun _ => hd⟩
        · dsimp only
          omega
        · dsimp only
          omega
        · have hlt : 1 <<< (64-1-r.bits) < 2^(64-r.bits) := by
            rw [Nat.shiftLeft_eq,Nat.one_mul]
            exact Nat.pow_lt_pow_right (by omega) (by omega)
          dsimp only [accBits]
          rw [hl.acc_eq,← Nat.shiftLeft_eq,← Nat.shiftLeft_add_eq_or_of_lt hlt,
            List.replicate_succ',← List.append_assoc,
            bitValue_append (l ++ List.replicate r.syntheticBits 1) [1],
            Nat.shiftLeft_eq,Nat.shiftLeft_eq,show 64-r.bits = 1+(64-1-r.bits) by omega,pow_add,
            show 64-(r.bits+1) = 64-1-r.bits by omega]
          simp only [bitValue,List.length_singleton,List.length_nil]
          ring
      obtain ⟨hr,hk,hbits,hmarker⟩ := ih hpadded hd (by dsimp only; omega)
      refine ⟨hr,⟨hk.next.trans rfl,hk.allowEofPadding.trans rfl⟩,?_,hmarker⟩
      rw [hbits]
      dsimp only
      omega

/-- The bits a peek shows: the real ones, then ones. -/
theorem peekBits_eq {n : ℕ} {r : BitReader} {u : List ℕ} (h : Reads r u) (hn : n ≤ r.bits) :
    r.peekBits n = bitValue ((u ++ List.replicate n 1).take n) := by
  obtain ⟨l,hl,rfl,-,hsynthetic⟩ := h
  have hlen := hl.length_eq
  have hroom := hl.room
  unfold peekBits
  by_cases hzero : n = 0
  · simp [hzero,bitValue]
  rw [if_neg hzero]
  have hle : ∀ b ∈ l ++ List.replicate r.syntheticBits 1, b ≤ 1 := by
    intro b hb
    rcases List.mem_append.mp hb with hb | hb
    · exact hl.le_one b hb
    · exact (List.eq_of_mem_replicate hb).le
  have hlength : (l ++ List.replicate r.syntheticBits 1).length = r.bits := by simp [hlen]
  have hfirst := (bitValue_split hle (n := n)).1
  rw [hlength] at hfirst
  have htake : (l ++ List.replicate r.syntheticBits 1).take n =
      ((l ++ bytesBits r.ahead) ++ List.replicate n 1).take n := by
    by_cases hs : r.syntheticBits = 0
    · rw [hs,List.replicate_zero,List.append_nil,List.append_assoc,
        List.take_append_of_le_length (by omega)]
    · rw [hsynthetic (Nat.pos_of_ne_zero hs)]
      simp only [bytesBits,List.flatMap_nil,List.append_nil,List.take_append,List.take_replicate]
      congr 2
      omega
  rw [← htake,← hfirst,hl.acc_eq,Nat.shiftRight_eq_div_pow,accBits,
    show 64-n = r.bits-n+(64-r.bits) by omega,pow_add]
  exact Nat.mul_div_mul_right _ _ (Nat.two_pow_pos _)

/-- Consumed bits leave the bits after them. -/
theorem reads_consumed {n : ℕ} {r : BitReader} {u : List ℕ} (h : Reads r u) (hn : n ≤ r.bits) :
    Reads (consumed n r) (u.drop n) ∧ Kept r (consumed n r) ∧
      (consumed n r).ahead = r.ahead := by
  obtain ⟨l,hl,rfl,hbytes,hsynthetic⟩ := h
  have hlen := hl.length_eq
  have hroom := hl.room
  have hsynth : (consumed n r).syntheticBits = r.syntheticBits-(n-l.length) := by
    dsimp only [consumed]
    split_ifs with h
    · omega
    · omega
  have hdrop : (l ++ List.replicate r.syntheticBits 1).drop n =
      l.drop n ++ List.replicate (consumed n r).syntheticBits 1 := by
    rw [List.drop_append,List.drop_replicate,hsynth]
  refine ⟨⟨l.drop n,⟨?_,?_,?_,?_⟩,?_,hbytes,?_⟩,⟨rfl,rfl⟩,rfl⟩
  · rw [hsynth,List.length_drop]
    dsimp only [consumed]
    omega
  · dsimp only [consumed]
    omega
  · exact fun b hb => hl.le_one b (List.mem_of_mem_drop hb)
  · have hle : ∀ b ∈ l ++ List.replicate r.syntheticBits 1, b ≤ 1 := by
      intro b hb
      rcases List.mem_append.mp hb with hb | hb
      · exact hl.le_one b hb
      · exact (List.eq_of_mem_replicate hb).le
    have hlength : (l ++ List.replicate r.syntheticBits 1).length = r.bits := by simp [hlen]
    have hlast := (bitValue_split hle (n := n)).2
    rw [hlength] at hlast
    rw [← hdrop,← hlast]
    dsimp only [consumed,accBits]
    rw [hl.acc_eq,Nat.shiftLeft_eq,Nat.mul_assoc,← pow_add,
      show 64-(r.bits-n) = 64-r.bits+n by omega,← Nat.mul_mod_mul_right,← pow_add,
      show r.bits-n+(64-r.bits+n) = 64 by omega]
  · show (l ++ bytesBits r.ahead).drop n = l.drop n ++ bytesBits r.ahead
    rw [List.drop_append]
    by_cases hs : 0 < r.syntheticBits
    · rw [hsynthetic hs]
      simp [bytesBits]
    · rw [show n-l.length = 0 by omega,List.drop_zero]
  · intro hpos
    exact hsynthetic (by omega)

end BitReader

end J2kNative
