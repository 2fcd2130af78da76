import J2kNative.PacketMarkerSpecs
import Mathlib.Data.Nat.Bitwise
import Mathlib.Algebra.Order.BigOperators.Group.List

/-!
# Packet lengths through PLT and PLM

A packet length is a run of base-128 digits, all but the last with the
continuation bit. The writers cut the digits at the size limit of a segment, the
parser reads each segment on its own: the lengths come back exactly when no cut
falls inside a length.
-/
namespace J2kNative.PacketLengthRoundTrip
open Fallible StreamCuts PacketMarkers MarkerSegments PacketMarkerSpecs

/-! ## Base 128 -/

/-- Number of a digit string, on top of what precedes it. -/
def ofDigits (value : ℕ) (ds : List ℕ) : ℕ := ds.foldl (fun value d => value * 128 + d) value

theorem le_ofDigits (value : ℕ) (ds : List ℕ) : value ≤ ofDigits value ds := by
  induction ds generalizing value with
  | nil => exact le_rfl
  | cons d ds ih => exact le_trans (by omega) (ih (value * 128 + d))

theorem ofDigits_append (value : ℕ) (ds : List ℕ) (d : ℕ) :
    ofDigits value (ds ++ [d]) = ofDigits value ds * 128 + d := by
  rw [ofDigits,List.foldl_append]
  rfl

theorem encodedPacketLengthLen_small {value : ℕ} (h : value < 128) :
    encodedPacketLengthLen value = 1 := by
  have hle : value.size ≤ 7 := Nat.size_le.mpr h
  unfold encodedPacketLengthLen
  dsimp only
  split_ifs with h0
  · rfl
  · omega

theorem encodedPacketLengthLen_step {value : ℕ} (h : 128 ≤ value) :
    encodedPacketLengthLen value = encodedPacketLengthLen (value / 128) + 1 := by
  have hsize : value.size = (value / 128).size + 7 := by
    refine le_antisymm (Nat.size_le.mpr ?_) ?_
    · have := Nat.lt_size_self (value / 128)
      rw [pow_add]
      omega
    · have hpos : 0 < (value / 128).size := Nat.size_pos.mpr (by omega)
      have hle : 2 ^ ((value / 128).size - 1) ≤ value / 128 := Nat.lt_size.mp (by omega)
      have hlt : (value / 128).size - 1 + 7 < value.size := by
        rw [Nat.lt_size,pow_add]
        omega
      omega
  have hpos : 0 < (value / 128).size := Nat.size_pos.mpr (by omega)
  unfold encodedPacketLengthLen
  dsimp only
  rw [hsize,if_neg (by omega),if_neg (by omega)]
  omega

/-- The digits that the writer fills its slots with. -/
theorem packetLengthDigits_spec (slots value : ℕ) (acc : List ℕ) (h : value < 128 ^ (slots + 1)) :
    ∃ ds d, packetLengthDigits (slots + 1) value acc = ds ++ d :: acc ∧
      (∀ x ∈ ds ++ [d], x < 128) ∧ ofDigits 0 (ds ++ [d]) = value ∧
      ds.length + 1 = encodedPacketLengthLen value := by
  have hand (v : ℕ) : v &&& 0x7f = v % 128 := Nat.and_two_pow_sub_one_eq_mod v 7
  have hshift (v : ℕ) : v >>> 7 = v / 128 := Nat.shiftRight_eq_div_pow v 7
  induction slots generalizing value acc with
  | zero =>
      have hlt : value < 128 := h
      refine ⟨[],value,?_,by simpa using hlt,by simp [ofDigits],
        (encodedPacketLengthLen_small hlt).symm⟩
      simp only [packetLengthDigits,hand,Nat.mod_eq_of_lt hlt,ite_self]
      rfl
  | succ slots ih =>
      unfold packetLengthDigits
      dsimp only
      rw [hand,hshift]
      by_cases hlt : value < 128
      · rw [if_pos (Nat.div_eq_of_lt hlt),Nat.mod_eq_of_lt hlt]
        exact ⟨[],value,rfl,by simpa using hlt,by simp [ofDigits],
          (encodedPacketLengthLen_small hlt).symm⟩
      · rw [if_neg (by omega)]
        have hdiv : value / 128 < 128 ^ (slots + 1) :=
          Nat.div_lt_of_lt_mul (by rwa [pow_succ,mul_comm] at h)
        obtain ⟨ds,d,hrun,hds,hvalue,hlen⟩ := ih (value / 128) (value % 128 :: acc) hdiv
        refine ⟨ds ++ [d],value % 128,?_,?_,?_,?_⟩
        · rw [hrun,List.append_assoc]
          rfl
        · intro x hx
          rcases List.mem_append.mp hx with hx | hx
          · exact hds x hx
          · rw [List.mem_singleton.mp hx]
            exact Nat.mod_lt _ (by decide)
        · rw [ofDigits_append,hvalue,Nat.div_add_mod']
        · rw [encodedPacketLengthLen_step (by omega),← hlen,List.length_append]
          rfl

/-- A packet length as digits that continue and a last one. -/
theorem encodePacketLength_spec {value : ℕ} (h : value < 2 ^ 32) : ∃ ds d,
    encodePacketLength value = ds.map (· ||| 0x80) ++ [d] ∧ (∀ x ∈ ds ++ [d], x < 128) ∧
      ofDigits 0 (ds ++ [d]) = value ∧ ds.length + 1 = encodedPacketLengthLen value := by
  obtain ⟨ds,d,hrun,hds,hvalue,hlen⟩ :=
    packetLengthDigits_spec 4 value [] (h.trans_le (by decide))
  refine ⟨ds,d,?_,hds,hvalue,hlen⟩
  unfold encodePacketLength
  dsimp only
  rw [hrun,List.dropLast_concat]
  simp

theorem encodePacketLength_length {value : ℕ} (h : value < 2 ^ 32) :
    (encodePacketLength value).length = encodedPacketLengthLen value := by
  obtain ⟨ds,d,hrun,-,-,hlen⟩ := encodePacketLength_spec h
  rw [hrun,← hlen]
  simp

theorem encodePacketLength_ne_nil {value : ℕ} (h : value < 2 ^ 32) :
    encodePacketLength value ≠ [] := by
  obtain ⟨ds,d,hrun,-⟩ := encodePacketLength_spec h
  simp [hrun]

/-! ## Parsing digits -/

theorem or_continuation {d : ℕ} (h : d < 128) : d ||| 0x80 = 128 + d := by
  rw [Nat.or_comm]
  exact (Nat.two_pow_add_eq_or_of_lt (i := 7) h 1).symm

theorem and_continuation {b : ℕ} (h : b < 256) : b &&& 0x80 = 0 ↔ b < 128 := by
  have hand : b &&& 0x80 = (b.testBit 7).toNat * 2 ^ 7 := Nat.and_two_pow b 7
  rw [hand,Nat.testBit_eq_decide_div_mod_eq]
  by_cases hb : b < 128
  · simp [Nat.div_eq_of_lt hb,hb]
  · have hdiv : b / 2 ^ 7 % 2 = 1 := by omega
    rw [hdiv]
    simp [hb]

/-- One digit that continues. -/
theorem visitPacketLengths_digit (marker : String) {value d : ℕ} (b : Bool) (rest : List ℕ)
    (hd : d < 128) : visitPacketLengths marker value b ((d ||| 0x80) :: rest) =
      if value * 128 % 2 ^ 32 + d ≥ 2 ^ 32 then .error (.parseFailure marker)
      else visitPacketLengths marker (value * 128 % 2 ^ 32 + d) true rest := by
  have hcont := or_continuation hd
  have hlow : (d ||| 0x80) &&& 0x7F = d := by
    rw [hcont]
    refine (Nat.and_two_pow_sub_one_eq_mod (128 + d) 7).trans ?_
    omega
  have hhigh : ¬ (d ||| 0x80) &&& 0x80 = 0 := by
    rw [and_continuation (by omega)]
    omega
  rw [visitPacketLengths,hlow,Nat.shiftLeft_eq,if_neg hhigh]

/-- The last digit of a length. -/
theorem visitPacketLengths_last (marker : String) {value d : ℕ} (b : Bool) (rest : List ℕ)
    (hd : d < 128) (hlt : value * 128 + d < 2 ^ 32) :
    visitPacketLengths marker value b (d :: rest) =
      visitPacketLengths marker 0 false rest >>= fun lengths => .ok ((value * 128 + d) :: lengths) := by
  have hlow : d &&& 0x7F = d :=
    (Nat.and_two_pow_sub_one_eq_mod d 7).trans (Nat.mod_eq_of_lt hd)
  rw [visitPacketLengths,hlow,Nat.shiftLeft_eq,Nat.mod_eq_of_lt (by omega),if_neg (by omega),if_pos ((and_continuation (by omega)).mpr hd)]

/-- The digits of a whole length yield it and leave the parser between lengths. -/
theorem visitPacketLengths_digits (marker : String) (ds : List ℕ) {value d : ℕ} (b : Bool)
    (rest : List ℕ) (hds : ∀ x ∈ ds ++ [d], x < 128) (hlt : ofDigits value (ds ++ [d]) < 2 ^ 32) :
    visitPacketLengths marker value b (ds.map (· ||| 0x80) ++ d :: rest) =
      visitPacketLengths marker 0 false rest >>= fun lengths =>
        .ok (ofDigits value (ds ++ [d]) :: lengths) := by
  induction ds generalizing value b with
  | nil => exact visitPacketLengths_last marker b rest (hds d (by simp)) hlt
  | cons x ds ih =>
      have hx : x < 128 := hds x (by simp)
      have hstep : value * 128 + x < 2 ^ 32 := (le_ofDigits _ _).trans_lt hlt
      rw [List.map_cons,List.cons_append,visitPacketLengths_digit marker b _ hx,
        Nat.mod_eq_of_lt (by omega),if_neg (by omega)]
      exact ih true (fun y hy => hds y (List.mem_cons_of_mem _ hy)) hlt

theorem visitPacketLengths_encode (marker : String) {value : ℕ} (b : Bool) (rest : List ℕ)
    (h : value < 2 ^ 32) :
    visitPacketLengths marker 0 b (encodePacketLength value ++ rest) =
      visitPacketLengths marker 0 false rest >>= fun lengths => .ok (value :: lengths) := by
  obtain ⟨ds,d,hrun,hds,hvalue,-⟩ := encodePacketLength_spec h
  rw [hrun,List.append_assoc,List.singleton_append,
    visitPacketLengths_digits marker ds b rest hds (hvalue ▸ h),hvalue]

/-- Digits that all continue end inside a length. -/
theorem visitPacketLengths_inside (marker : String) {ds : List ℕ} (value : ℕ) {b : Bool}
    (hds : ∀ x ∈ ds, x < 128) (hb : ds ≠ [] ∨ b = true) :
    visitPacketLengths marker value b (ds.map (· ||| 0x80)) = .error (.parseFailure marker) := by
  induction ds generalizing value b with
  | nil =>
      rw [hb.resolve_left (fun h => h rfl)]
      rfl
  | cons x ds ih =>
      rw [List.map_cons,visitPacketLengths_digit marker b _ (hds x (by simp))]
      split_ifs
      · rfl
      · exact ih _ (fun y hy => hds y (List.mem_cons_of_mem _ hy)) (.inr rfl)

/-! ## Parsing piece by piece -/

/-- The lengths of the pieces together. -/
def visitPieces (marker : String) (pieces : List (List ℕ)) : Except DecodeError (List ℕ) := do
  let lengths ← pieces.mapM (visitPacketLengths marker 0 false)
  .ok lengths.flatten

theorem visitPieces_nil_cons (marker : String) (pieces : List (List ℕ)) :
    visitPieces marker ([] :: pieces) = visitPieces marker pieces := by
  unfold visitPieces
  rw [List.mapM_cons]
  cases pieces.mapM (visitPacketLengths marker 0 false) <;> rfl

theorem visitPieces_encode (marker : String) {value : ℕ} (h : value < 2 ^ 32) (c : List ℕ)
    (pieces : List (List ℕ)) : visitPieces marker ((encodePacketLength value ++ c) :: pieces) =
      visitPieces marker (c :: pieces) >>= fun lengths => .ok (value :: lengths) := by
  unfold visitPieces
  rw [List.mapM_cons,List.mapM_cons,visitPacketLengths_encode marker false c h]
  cases visitPacketLengths marker 0 false c with
  | error e => rfl
  | ok lengths => cases pieces.mapM (visitPacketLengths marker 0 false) <;> rfl

/-- The pieces of a stream of lengths parse to these exactly when they are cut between
lengths. -/
theorem visitPieces_iff (marker : String) {lengths : List ℕ} (hlengths : ∀ v ∈ lengths, v < 2 ^ 32)
    {pieces : List (List ℕ)} (hpieces : (lengths.map encodePacketLength).flatten = pieces.flatten) :
    visitPieces marker pieces = .ok lengths ↔ Aligned (lengths.map encodePacketLength) pieces := by
  induction lengths generalizing pieces with
  | nil =>
      have hnil : ∀ piece ∈ pieces, piece = [] := List.flatten_eq_nil_iff.mp hpieces.symm
      have hrun : visitPieces marker pieces = .ok [] := by
        clear hpieces
        induction pieces with
        | nil => rfl
        | cons c pieces ih =>
            rw [hnil c (by simp),visitPieces_nil_cons]
            exact ih fun piece h => hnil piece (List.mem_cons_of_mem _ h)
      refine iff_of_true hrun fun p hp => ?_
      have hle := hp.le
      rw [← hpieces] at hle
      rw [Nat.le_zero.mp hle]
      exact isCut_zero _
  | cons v lengths ih =>
      have hv : v < 2 ^ 32 := hlengths v (by simp)
      have hrest : ∀ v ∈ lengths, v < 2 ^ 32 := fun w hw => hlengths w (List.mem_cons_of_mem _ hw)
      rw [List.map_cons] at hpieces ⊢
      induction pieces with
      | nil =>
          have := encodePacketLength_ne_nil hv
          simp_all
      | cons c pieces ihp =>
          by_cases hc : c = []
          · rw [hc,visitPieces_nil_cons,aligned_nil_piece]
            exact ihp (by rw [hpieces,hc,List.flatten_cons,List.nil_append])
          rw [List.flatten_cons,List.flatten_cons] at hpieces
          rcases Nat.lt_or_ge c.length (encodePacketLength v).length with hlt | hle
          · -- the piece ends inside the length
            refine iff_of_false (fun hok => ?_) (not_aligned_of_length_lt hc hlt)
            obtain ⟨ds,d,hrun,hds,-,-⟩ := encodePacketLength_spec hv
            obtain ⟨e,he⟩ := split_of_length_le hpieces.symm hlt.le
            have hcds : c = (ds.take c.length).map (· ||| 0x80) := by
              rw [hrun,List.length_append,List.length_map] at hlt
              have htake := congrArg (List.take c.length) (he.symm.trans hrun)
              rw [List.take_left,List.take_append_of_le_length
                (by rw [List.length_map]; exact Nat.le_of_lt_succ hlt),← List.map_take] at htake
              exact htake
            have herr := @visitPacketLengths_inside marker (ds.take c.length) 0 false
              (fun x hx => hds x (List.mem_append_left _ (List.mem_of_mem_take hx)))
              (.inl fun hnil => hc (by rw [hcds,hnil]; rfl))
            rw [← hcds] at herr
            unfold visitPieces at hok
            rw [List.mapM_cons,herr] at hok
            cases hok
          · obtain ⟨d,rfl⟩ := split_of_length_le hpieces hle
            rw [visitPieces_encode marker hv,aligned_shift]
            rw [List.append_assoc] at hpieces
            rw [← @ih hrest (d :: pieces) (List.append_cancel_left hpieces)]
            cases visitPieces marker (d :: pieces) with
            | error e => simp [bind,Except.bind]
            | ok ls => simp [bind,Except.bind]

/-- The bound on a segment's lengths does not bind. -/
theorem decodePieces_iff (marker : String) {maxOwnedBytes : ℕ} {lengths : List ℕ}
    (hmem : lengths.length * 4 ≤ maxOwnedBytes) (pieces : List (List ℕ)) :
    (∃ ls, pieces.mapM (fun piece => decodePacketLengths piece maxOwnedBytes marker) = .ok ls ∧
      ls.flatten = lengths) ↔ visitPieces marker pieces = .ok lengths := by
  have hdecode (piece ls : List ℕ) (h : ls.length * 4 ≤ maxOwnedBytes) :
      decodePacketLengths piece maxOwnedBytes marker = .ok ls ↔
        visitPacketLengths marker 0 false piece = .ok ls := by
    unfold decodePacketLengths
    cases visitPacketLengths marker 0 false piece with
    | error e => exact ⟨fun h => h,fun h => h⟩
    | ok ls' =>
        rw [ok_bind,bind_eq_ok]
        unfold validateOutputBytes
        constructor
        · rintro ⟨u,-,h⟩
          exact h
        · intro heq
          cases heq
          exact ⟨(),if_neg (by omega),rfl⟩
  unfold visitPieces
  rw [bind_eq_ok]
  induction pieces generalizing lengths with
  | nil => simp [pure,Except.pure]
  | cons piece pieces ih =>
      simp only [List.mapM_cons,bind_eq_ok,pure,Except.pure,Except.ok.injEq]
      constructor
      · rintro ⟨ls,⟨l,hl,lss,hlss,rfl⟩,rfl⟩
        rw [List.flatten_cons,List.length_append] at hmem
        obtain ⟨lss',hlss',heq⟩ := (@ih lss.flatten (by omega)).mp ⟨lss,hlss,rfl⟩
        rw [hdecode piece l (by omega)] at hl
        exact ⟨_,⟨l,hl,lss',hlss',rfl⟩,by
          rw [List.flatten_cons,List.flatten_cons,Except.ok.inj heq]⟩
      · rintro ⟨ls,⟨l,hl,lss,hlss,rfl⟩,rfl⟩
        rw [List.flatten_cons,List.length_append] at hmem
        obtain ⟨lss',hlss',heq⟩ := (@ih lss.flatten (by omega)).mpr ⟨lss,hlss,rfl⟩
        exact ⟨_,⟨l,(hdecode piece l (by omega)).mpr hl,lss',hlss',rfl⟩,by
          rw [List.flatten_cons,List.flatten_cons,heq]⟩

/-! ## PLT and PLM -/

theorem packetLengthPayloadLen_eq (lengths : List ℕ) :
    packetLengthPayloadLen lengths = (lengths.map encodedPacketLengthLen).sum := by
  unfold packetLengthPayloadLen
  rw [← List.foldl_map (g := fun a b => a + b),List.sum_eq_foldl]

/-- Sizes of the packet lengths in the stream. -/
theorem encodePacketLength_sizes {lengths : List ℕ} (h : ∀ v ∈ lengths, v < 2 ^ 32) :
    (lengths.map encodePacketLength).map List.length = lengths.map encodedPacketLengthLen := by
  rw [List.map_map]
  exact List.map_congr_left fun v hv => encodePacketLength_length (h v hv)

/-- A stream of packet lengths. -/
def lengthStream (lengths : List ℕ) : List ℕ := (lengths.map encodePacketLength).flatten

theorem lengthStream_length {lengths : List ℕ} (h : ∀ v ∈ lengths, v < 2 ^ 32) :
    (lengthStream lengths).length = (lengths.map encodedPacketLengthLen).sum := by
  rw [lengthStream,List.length_flatten,encodePacketLength_sizes h]

theorem chunkedMarkerBytes_ok {payload chunkSize overhead : ℕ} {countError : String} {n : ℕ}
    (hsize : 0 < chunkSize)
    (h : chunkedMarkerBytes payload chunkSize overhead countError = .ok n) :
    (payload + chunkSize - 1) / chunkSize ≤ 256 := by
  unfold chunkedMarkerBytes at h
  dsimp only at h
  split_ifs at h with h0 h1
  · rw [h0,Nat.div_eq_of_lt (by omega)]
    exact Nat.zero_le _
  · exact Nat.not_lt.mp h1

theorem chunkedMarkerBytes_total {n m k : ℕ} {e : String} (h : (n + m - 1) / m ≤ 256) :
    ∃ total, chunkedMarkerBytes n m k e = .ok total := by
  unfold chunkedMarkerBytes
  dsimp only
  split_ifs with h0 h1
  · exact ⟨0,rfl⟩
  · exact absurd h (Nat.not_le.mpr h1)
  · exact ⟨_,rfl⟩

/-- The segments of a list of packet lengths. -/
theorem writePacketLengthChunks_eq {m : PacketLengthMarker} {opening : ℕ → ℕ → List ℕ}
    (hn : 0 < m.chunkSize) (hstart : ∀ sequence < 256, ∀ len ≤ m.chunkSize,
      beginPacketLengthMarker m sequence len = .ok (opening sequence len))
    (out : List ℕ) {l : List (List ℕ)} (hlengths : ∀ v ∈ l.flatten, v < 2 ^ 32)
    (hcount : ((l.flatten.map encodedPacketLengthLen).sum + m.chunkSize - 1) /
      m.chunkSize ≤ 256) :
    writePacketLengthChunks out l (l.flatten.map encodedPacketLengthLen).sum m =
      .ok (out ++ segmentsOf opening 0 (chunks m.chunkSize (lengthStream l.flatten))) := by
  rw [← lengthStream_length hlengths,← chunks_length hn] at hcount
  obtain ⟨t,hrun,hout⟩ := pushBytes_eq hn hstart
    (s := ⟨out,(lengthStream l.flatten).length,0,0⟩) rfl rfl (by simpa using hcount)
  have hsets := foldlM_flatMap (f := ChunkWriter.pushByte (beginPacketLengthMarker m)
    m.chunkSize) encodePacketLength
  have hstream : l.flatMap (List.flatMap encodePacketLength) = lengthStream l.flatten := by
    rw [lengthStream,← List.flatMap_def,← List.flatMap_id,List.flatMap_assoc]
    rfl
  unfold writePacketLengthChunks
  simp only [hsets,foldlM_flatMap]
  rw [hstream,← lengthStream_length hlengths,hrun,ok_bind,hout]

/-- The pieces of a stream of lengths, parsed one by one. -/
theorem decodeChunks_iff (marker : String) {maxOwnedBytes n : ℕ} (hn : 0 < n) {lengths : List ℕ}
    (hlengths : ∀ v ∈ lengths, v < 2 ^ 32) (hmem : lengths.length * 4 ≤ maxOwnedBytes) :
    (∃ ls, (chunks n (lengthStream lengths)).mapM
        (fun piece => decodePacketLengths piece maxOwnedBytes marker) = .ok ls ∧
      ls.flatten = lengths) ↔ CutsBetween n (lengths.map encodedPacketLengthLen) := by
  rw [decodePieces_iff marker hmem,lengthStream,
    visitPieces_iff marker hlengths (chunks_flatten hn _).symm,aligned_chunks_iff_cutsBetween hn,encodePacketLength_sizes hlengths]

theorem packetLengthsOf_sequenced (sequence : ℕ) (ls : List (List ℕ)) :
    packetLengthsOf ([] ++ sequenced sequence ls) = ls.flatten := by
  rw [List.nil_append,packetLengthsOf,sortSegments_sequenced,List.flatMap_def,sequenced_payload]

def pltSegments (lengths : List ℕ) : List ℕ :=
  segmentsOf (segmentOpening markers.PLT) 0 (chunks pltChunkSize (lengthStream lengths))

theorem writePltMarkers_eq (out : List ℕ) {lengths written : List ℕ}
    (hlengths : ∀ v ∈ lengths, v < 2 ^ 32) (h : writePltMarkers out lengths = .ok written) :
    written = out ++ pltSegments lengths := by
  unfold writePltMarkers at h
  obtain ⟨n,hcount,h⟩ := bind_eq_ok.mp h
  have hlist : [lengths].flatten = lengths := by simp
  have hrun := writePacketLengthChunks_eq (m := .plt) (by decide)
    (fun _ hs _ hn => beginPacketLengthMarker_plt hs hn) out (l := [lengths])
    (by rwa [hlist]) (by
      rw [hlist,← packetLengthPayloadLen_eq]
      exact chunkedMarkerBytes_ok (by decide) hcount)
  rw [hlist] at hrun
  rw [packetLengthPayloadLen_eq,hrun] at h
  cases h
  rfl

theorem writePltMarkers_ok (out : List ℕ) {lengths : List ℕ} (hlengths : ∀ v ∈ lengths, v < 2 ^ 32)
    (hcount : ((lengths.map encodedPacketLengthLen).sum + pltChunkSize - 1) / pltChunkSize ≤ 256) :
    writePltMarkers out lengths = .ok (out ++ pltSegments lengths) := by
  have hlist : [lengths].flatten = lengths := by simp
  have hrun := writePacketLengthChunks_eq (m := .plt) (by decide)
    (fun _ hs _ hn => beginPacketLengthMarker_plt hs hn) out (l := [lengths])
    (by rwa [hlist]) (by rwa [hlist])
  rw [hlist] at hrun
  obtain ⟨n,hn⟩ := chunkedMarkerBytes_total (k := 5)
    (e := "PLT packet lengths require more than 256 marker segments") hcount
  unfold writePltMarkers
  rw [packetLengthPayloadLen_eq]
  dsimp only
  rw [hn,ok_bind,hrun]
  rfl

/-- Pieces that are put together once all are parsed. -/
theorem bind_flatten_iff {x : Except DecodeError (List (List ℕ))} {lengths : List ℕ}
    {f : List (List ℕ) → Except DecodeError (List ℕ)} (hf : ∀ ls, f ls = .ok ls.flatten) :
    x >>= f = .ok lengths ↔ ∃ ls, x = .ok ls ∧ ls.flatten = lengths := by
  rw [bind_eq_ok]
  simp only [hf,Except.ok.injEq]

theorem fuel_split {n k : ℕ} (h : n ≤ k) : ∃ fuel, k + 1 = n + (fuel + 1) :=
  ⟨k - n,by omega⟩

theorem tilePartPacketLengths_iff {maxOwnedBytes : ℕ} {lengths : List ℕ}
    (hlengths : ∀ v ∈ lengths, v < 2 ^ 32) (hmem : lengths.length * 4 ≤ maxOwnedBytes)
    (rest : List ℕ) :
    tilePartPacketLengths maxOwnedBytes (pltSegments lengths ++ [0xFF,markers.SOD] ++ rest) =
      .ok lengths ↔ CutsBetween pltChunkSize (lengths.map encodedPacketLengthLen) := by
  have hfits : Fits (chunks pltChunkSize (lengthStream lengths)) :=
    fits_chunks (by decide) (by decide) _
  have hlen := segmentsOf_length markers.PLT 0 (chunks pltChunkSize (lengthStream lengths))
  obtain ⟨fuel,hfuel⟩ := fuel_split (n := (chunks pltChunkSize (lengthStream lengths)).length)
    (k := (pltSegments lengths ++ [0xFF,markers.SOD] ++ rest).length) (by
      rw [List.length_append,List.length_append]
      exact hlen.trans (by rw [pltSegments]; omega))
  rw [← decodeChunks_iff "PLT" (by decide) hlengths hmem,tilePartPacketLengths,hfuel,
    List.append_assoc,pltSegments,tilePartMarkers_plt hfits,bind_assoc]
  refine bind_flatten_iff fun ls => ?_
  have hend : tilePartMarkers maxOwnedBytes false (fuel + 1) ([0xFF,markers.SOD] ++ rest)
      ⟨[] ++ sequenced 0 ls,[]⟩ = .ok (⟨[] ++ sequenced 0 ls,[]⟩,rest) := rfl
  rw [hend,ok_bind]
  exact congrArg _ (packetLengthsOf_sequenced 0 ls)

/-- The payload of a PLM segment: its length, then the lengths of the packets. -/
def plmPayload (piece : List ℕ) : List ℕ := beBytes32 piece.length ++ piece

theorem plmPayload_length (piece : List ℕ) : (plmPayload piece).length = piece.length + 4 := by
  rw [plmPayload,List.length_append,Nat.add_comm]
  rfl

def plmSegments (lengths : List ℕ) : List ℕ :=
  segmentsOf (segmentOpening markers.PLM) 0
    ((chunks plmChunkSize (lengthStream lengths)).map plmPayload)

theorem segmentsOf_plm (sequence : ℕ) (pieces : List (List ℕ)) :
    segmentsOf (fun sequence len => segmentOpening markers.PLM sequence (len + 4) ++ beBytes32 len)
      sequence pieces = segmentsOf (segmentOpening markers.PLM) sequence (pieces.map plmPayload) := by
  induction pieces generalizing sequence with
  | nil => rfl
  | cons piece pieces ih =>
      rw [List.map_cons,segmentsOf,segmentsOf,ih,plmPayload_length,plmPayload,List.append_assoc,List.append_assoc,
        List.append_assoc,List.append_assoc]

theorem decodePlm_payload {maxOwnedBytes : ℕ} {piece : List ℕ} (h : piece.length < 2 ^ 32) :
    decodePlm maxOwnedBytes (plmPayload piece) = decodePacketLengths piece maxOwnedBytes "PLM" := by
  have hlen : (plmPayload piece).length = piece.length + 3 + 1 := plmPayload_length piece
  have hread := readBytes_append piece []
  rw [List.append_nil] at hread
  have hne : (plmPayload piece).isEmpty = false := by
    simp [plmPayload,beBytes32]
  unfold decodePlm decodePacketLengths
  rw [hlen,visitPlmChunks,hne,plmPayload,readU32_beBytes h]
  simp only [hread]
  cases visitPacketLengths "PLM" 0 false piece with
  | error e => rfl
  | ok ls =>
      have hnil : visitPlmChunks (piece.length + 3) [] = .ok [] := by
        rw [visitPlmChunks]
        rfl
      rw [if_neg (by decide),ok_bind,hnil,ok_bind,ok_bind,ok_bind,List.append_nil]

theorem tiles_payload (tiles : List (List ℕ)) :
    tiles.foldl (fun bytes tile => bytes + packetLengthPayloadLen tile) 0 =
      (tiles.flatten.map encodedPacketLengthLen).sum := by
  rw [← List.foldl_map (g := fun a b => a + b),← List.sum_eq_foldl]
  induction tiles with
  | nil => rfl
  | cons tile tiles ih =>
      rw [List.map_cons,List.sum_cons,ih,packetLengthPayloadLen_eq,List.flatten_cons,
        List.map_append,List.sum_append]

theorem writePlmMarkers_eq (out : List ℕ) {tiles : List (List ℕ)} {written : List ℕ}
    (hlengths : ∀ v ∈ tiles.flatten, v < 2 ^ 32) (h : writePlmMarkers out tiles = .ok written) :
    written = out ++ plmSegments tiles.flatten := by
  unfold writePlmMarkers at h
  rw [tiles_payload] at h
  obtain ⟨n,hcount,h⟩ := bind_eq_ok.mp h
  have hrun := writePacketLengthChunks_eq (m := .plm) (by decide)
    (fun _ hs _ hn => beginPacketLengthMarker_plm hs hn) out hlengths
    (chunkedMarkerBytes_ok (by decide) hcount)
  rw [segmentsOf_plm] at hrun
  rw [hrun] at h
  cases h
  rfl

theorem mainPacketLengths_iff {maxOwnedBytes : ℕ} {lengths : List ℕ}
    (hlengths : ∀ v ∈ lengths, v < 2 ^ 32) (hmem : lengths.length * 4 ≤ maxOwnedBytes)
    (rest : List ℕ) :
    mainPacketLengths maxOwnedBytes (plmSegments lengths ++ [0xFF,markers.SOT] ++ rest) =
      .ok lengths ↔ CutsBetween plmChunkSize (lengths.map encodedPacketLengthLen) := by
  have hchunk : ∀ piece ∈ chunks plmChunkSize (lengthStream lengths), piece.length ≤ plmChunkSize :=
    fun piece h => (length_of_mem_chunks (by decide) h).2
  have hmax : plmChunkSize = 65528 := rfl
  have hfits : Fits ((chunks plmChunkSize (lengthStream lengths)).map plmPayload) := by
    intro payload hpayload
    obtain ⟨piece,hpiece,rfl⟩ := List.mem_map.mp hpayload
    have := hchunk piece hpiece
    rw [plmPayload_length]
    omega
  have hlen := segmentsOf_length markers.PLM 0
    ((chunks plmChunkSize (lengthStream lengths)).map plmPayload)
  obtain ⟨fuel,hfuel⟩ := fuel_split
    (n := ((chunks plmChunkSize (lengthStream lengths)).map plmPayload).length)
    (k := (plmSegments lengths ++ [0xFF,markers.SOT] ++ rest).length) (by
      rw [List.length_append,List.length_append]
      exact hlen.trans (by rw [plmSegments]; omega))
  have hdecode : ((chunks plmChunkSize (lengthStream lengths)).map plmPayload).mapM
      (decodePlm maxOwnedBytes) = (chunks plmChunkSize (lengthStream lengths)).mapM
        fun piece => decodePacketLengths piece maxOwnedBytes "PLM" := by
    rw [List.mapM_map]
    refine mapM_congr fun piece hpiece => ?_
    rw [Function.comp_apply]
    exact decodePlm_payload ((hchunk piece hpiece).trans_lt (by rw [hmax]; decide))
  rw [← decodeChunks_iff "PLM" (by decide) hlengths hmem,mainPacketLengths,hfuel,
    List.append_assoc,plmSegments,mainMarkers_plm hfits,hdecode,bind_assoc]
  refine bind_flatten_iff fun ls => ?_
  have hend : mainMarkers maxOwnedBytes (fuel + 1) ([0xFF,markers.SOT] ++ rest)
      ⟨[] ++ sequenced 0 ls,[]⟩ = .ok (⟨[] ++ sequenced 0 ls,[]⟩,[0xFF,markers.SOT] ++ rest) := rfl
  rw [hend,ok_bind]
  exact congrArg _ (packetLengthsOf_sequenced 0 ls)

/-- The lengths that PLT or PLM segments were written from are read back from them exactly
when no segment ends inside a length. -/
theorem packet_length_markers_round_trip_iff (out rest : List ℕ) {tiles : List (List ℕ)}
    {maxOwnedBytes : ℕ} (hlengths : ∀ v ∈ tiles.flatten, v < 2 ^ 32)
    (hmem : tiles.flatten.length * 4 ≤ maxOwnedBytes) :
    (∀ tile ∈ tiles, ∀ written, writePltMarkers out tile = .ok written →
      ∃ segments, written = out ++ segments ∧
        (tilePartPacketLengths maxOwnedBytes (segments ++ [0xFF,markers.SOD] ++ rest) = .ok tile ↔
          CutsBetween pltChunkSize (tile.map encodedPacketLengthLen))) ∧
    (∀ written, writePlmMarkers out tiles = .ok written →
      ∃ segments, written = out ++ segments ∧
        (mainPacketLengths maxOwnedBytes (segments ++ [0xFF,markers.SOT] ++ rest) =
            .ok tiles.flatten ↔
          CutsBetween plmChunkSize (tiles.flatten.map encodedPacketLengthLen))) := by
  constructor
  · intro tile htile written hwritten
    have htile' : ∀ v ∈ tile, v < 2 ^ 32 := fun v hv =>
      hlengths v (List.mem_flatten.mpr ⟨tile,htile,hv⟩)
    have hlen : tile.length ≤ tiles.flatten.length := by
      rw [List.length_flatten]
      exact List.le_sum_of_mem (List.mem_map.mpr ⟨tile,htile,rfl⟩)
    exact ⟨_,writePltMarkers_eq out htile' hwritten,
      tilePartPacketLengths_iff htile' (by omega) rest⟩
  · intro written hwritten
    exact ⟨_,writePlmMarkers_eq out hlengths hwritten,mainPacketLengths_iff hlengths hmem rest⟩

theorem packet_length_markers_round_trip_two_tiles : ∃ written,
    writePlmMarkers [] [[0,300],[7]] = .ok written ∧
      mainPacketLengths 12 (written ++ [0xFF,markers.SOT] ++ []) = .ok [0,300,7] := by
  obtain ⟨-,hplm⟩ := @packet_length_markers_round_trip_iff [] [] [[0,300],[7]] 12
    (by decide) (by decide)
  obtain ⟨segments,hwritten,hiff⟩ :=
    hplm [0xFF,0x57,0,11,0,0,0,0,4,0x00,0x82,0x2C,0x07] (by decide)
  refine ⟨segments,?_,hiff.mpr fun k hk => ?_⟩
  · rw [List.nil_append] at hwritten
    rw [← hwritten]
    decide
  · have hzero : k = 0 := by
      have hsum : ([0,300,7].map encodedPacketLengthLen).sum = 4 := by decide
      change k * plmChunkSize < ([0,300,7].map encodedPacketLengthLen).sum at hk
      rw [hsum,show plmChunkSize = 65528 from rfl] at hk
      omega
    exact ⟨0,by rw [hzero]; rfl⟩

/-- One-byte lengths up to the last byte of a segment, then a length of two bytes. -/
def splitLengths : List ℕ := List.replicate 65531 0 ++ [128]

theorem splitLengths_sizes :
    splitLengths.map encodedPacketLengthLen = List.replicate 65531 1 ++ [2] := by
  rw [splitLengths,List.map_append,List.map_replicate,List.map_singleton,
    show encodedPacketLengthLen 0 = 1 from rfl,show encodedPacketLengthLen 128 = 2 from rfl]

theorem sum_replicate_one (n : ℕ) : (List.replicate n 1).sum = n := by
  simp

theorem splitLengths_total : (splitLengths.map encodedPacketLengthLen).sum = 65533 := by
  rw [splitLengths_sizes,List.sum_append,sum_replicate_one,List.sum_singleton]

theorem splitLengths_lt : ∀ v ∈ splitLengths, v < 2 ^ 32 := by
  intro v hv
  rcases List.mem_append.mp hv with hv | hv
  · rw [List.eq_of_mem_replicate hv]
    decide
  · rw [List.mem_singleton.mp hv]
    decide

/-- The first segment ends inside the last length. -/
theorem splitLengths_not_cutsBetween :
    ¬ CutsBetween pltChunkSize (splitLengths.map encodedPacketLengthLen) := by
  intro h
  obtain ⟨i,hi⟩ := h 1 (by rw [splitLengths_total]; decide)
  rw [splitLengths_sizes] at hi
  rw [show 1 * pltChunkSize = 65532 from rfl,List.take_append,List.sum_append,List.take_replicate,
    sum_replicate_one,List.length_replicate] at hi
  rcases Nat.lt_or_ge 65531 i with hlt | hle
  · rw [List.take_of_length_le (by rw [List.length_singleton]; omega),List.sum_singleton] at hi
    omega
  · rw [Nat.sub_eq_zero_of_le hle,List.take_zero,List.sum_nil] at hi
    omega

/-- The parser refuses the segments that the writer makes of these lengths. -/
theorem packet_length_split : ∃ written, writePltMarkers [] splitLengths = .ok written ∧
    ∀ maxOwnedBytes ≥ 262128, ∀ rest,
      tilePartPacketLengths maxOwnedBytes (written ++ [0xFF,markers.SOD] ++ rest) ≠
        .ok splitLengths := by
  have hlen : splitLengths.length = 65532 := by
    rw [splitLengths,List.length_append,List.length_replicate]
    rfl
  have hwritten := writePltMarkers_ok [] splitLengths_lt (by rw [splitLengths_total]; decide)
  refine ⟨_,hwritten,fun maxOwnedBytes hmem rest hread => ?_⟩
  rw [List.nil_append,tilePartPacketLengths_iff splitLengths_lt (by omega)] at hread
  exact splitLengths_not_cutsBetween hread

end J2kNative.PacketLengthRoundTrip
