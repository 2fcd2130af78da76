import J2kNative.PacketLengthRoundTrip

/-!
# Values of packet lengths

Seven bits of a packet length come with every byte, and a byte string may hold integers of
any size. The parser checks the amount of its shift and not the bits that the shift drops, so
it returns every integer modulo `2^32`.
-/
namespace J2kNative.PacketLengthValues
open Fallible PacketMarkers MarkerSegments PacketLengthRoundTrip

/-! ## Integers in a byte string -/

/-- The integers of a byte string. All bytes of one but the last carry the continuation bit. -/
inductive Holds : List ℕ → List ℕ → Prop
  | nil : Holds [] []
  | integer {ds rest vs : List ℕ} {d : ℕ} : (∀ b ∈ ds, 128 ≤ b) → d < 128 → Holds rest vs →
      Holds (ds ++ d :: rest) (ofDigits 0 (ds.map (· - 128) ++ [d]) :: vs)

/-- The integers of a PLM payload, a sequence of byte strings with their lengths in front. -/
inductive PlmHolds : List ℕ → List ℕ → Prop
  | nil : PlmHolds [] []
  | chunk {payload lengthData rest vs more : List ℕ} :
      readU32 payload = some (lengthData.length,lengthData ++ rest) → Holds lengthData vs →
      PlmHolds rest more → PlmHolds payload (vs ++ more)

/-- The integers of a byte string behind the value of an integer under way. -/
def lengthsFrom : ℕ → Bool → List ℕ → Option (List ℕ)
  | _, inProgress, [] => if inProgress then none else some []
  | value, _, byte :: data =>
      if byte < 128 then (lengthsFrom 0 false data).map ((value * 128 + byte) :: ·)
      else lengthsFrom (value * 128 + (byte - 128)) true data

theorem ofDigits_cons (value d : ℕ) (ds : List ℕ) :
    ofDigits value (d :: ds) = ofDigits (value * 128 + d) ds := rfl

theorem lengthsFrom_integer {ds rest : List ℕ} {d : ℕ} (value : ℕ) (b : Bool)
    (hds : ∀ b ∈ ds, 128 ≤ b) (hd : d < 128) :
    lengthsFrom value b (ds ++ d :: rest) =
      (lengthsFrom 0 false rest).map (ofDigits value (ds.map (· - 128) ++ [d]) :: ·) := by
  induction ds generalizing value b with
  | nil =>
      rw [List.nil_append,lengthsFrom,if_pos hd]
      rfl
  | cons x ds ih =>
      have hx : ¬x < 128 := not_lt.mpr (hds x List.mem_cons_self)
      rw [List.cons_append,lengthsFrom,if_neg hx,List.map_cons,List.cons_append,ofDigits_cons]
      exact ih _ true fun y hy => hds y (List.mem_cons_of_mem x hy)

theorem Holds.lengths {data vs : List ℕ} (h : Holds data vs) :
    lengthsFrom 0 false data = some vs := by
  induction h with
  | nil => rfl
  | integer hds hd _ ih => rw [lengthsFrom_integer 0 false hds hd,ih,Option.map_some]

/-- Either nothing is left, or an integer is completed and the rest holds integers. -/
theorem lengthsFrom_cases {data vs : List ℕ} {value : ℕ} {b : Bool}
    (h : lengthsFrom value b data = some vs) :
    data = [] ∧ b = false ∧ vs = [] ∨ ∃ ds d rest more, data = ds ++ d :: rest ∧
      (∀ b ∈ ds, 128 ≤ b) ∧ d < 128 ∧ Holds rest more ∧
      vs = ofDigits value (ds.map (· - 128) ++ [d]) :: more := by
  induction data generalizing value b vs with
  | nil =>
      cases b with
      | false => exact .inl ⟨rfl,rfl,(Option.some.inj h).symm⟩
      | true =>
          rw [lengthsFrom,if_pos rfl] at h
          cases h
  | cons byte data ih =>
      right
      unfold lengthsFrom at h
      split_ifs at h with hlast
      · obtain ⟨more,hmore,rfl⟩ := Option.map_eq_some_iff.mp h
        refine ⟨[],byte,data,more,rfl,fun b hb => absurd hb List.not_mem_nil,hlast,?_,rfl⟩
        rcases ih hmore with ⟨rfl,-,rfl⟩ | ⟨ds,d,rest,more',rfl,hds,hd,hrest,rfl⟩
        · exact .nil
        · exact .integer hds hd hrest
      · rcases ih h with ⟨-,hb,-⟩ | ⟨ds,d,rest,more,rfl,hds,hd,hrest,rfl⟩
        · exact absurd hb (by decide)
        · refine ⟨byte :: ds,d,rest,more,rfl,?_,hd,hrest,?_⟩
          · rintro x (_ | ⟨_,hx⟩)
            · exact not_lt.mp hlast
            · exact hds x hx
          · rw [List.map_cons,List.cons_append,ofDigits_cons]

theorem holds_iff {data vs : List ℕ} : Holds data vs ↔ lengthsFrom 0 false data = some vs := by
  refine ⟨Holds.lengths,fun h => ?_⟩
  rcases lengthsFrom_cases h with ⟨rfl,-,rfl⟩ | ⟨ds,d,rest,more,rfl,hds,hd,hrest,rfl⟩
  · exact .nil
  · exact .integer hds hd hrest

/-! ## What the parser returns -/

/-- What a 32-bit accumulator keeps of the integers. -/
def reduced (vs : List ℕ) : List ℕ := vs.map (· % 2 ^ 32)

theorem reduced_eq_self {vs : List ℕ} : reduced vs = vs ↔ ∀ v ∈ vs, v < 2 ^ 32 := by
  unfold reduced
  constructor
  · intro h v hv
    rw [← h] at hv
    obtain ⟨w,-,rfl⟩ := List.mem_map.mp hv
    exact Nat.mod_lt w (Nat.two_pow_pos 32)
  · intro h
    rw [List.map_congr_left fun v hv => Nat.mod_eq_of_lt (h v hv),List.map_id']

theorem and_low {b : ℕ} : b &&& 0x7F = b % 128 := Nat.and_two_pow_sub_one_eq_mod b 7

/-- A step of the accumulator forgets a multiple of `2^32`. -/
theorem accumulate_mod (value d : ℕ) (hd : d < 128) :
    value % 2 ^ 32 * 128 % 2 ^ 32 + d = (value * 128 + d) % 2 ^ 32 := by
  omega

theorem visitPacketLengths_eq (marker : String) {data : List ℕ} (hdata : ∀ b ∈ data, b < 256)
    (value : ℕ) (b : Bool) : visitPacketLengths marker (value % 2 ^ 32) b data =
      match lengthsFrom value b data with
      | some vs => .ok (reduced vs)
      | none => .error (.parseFailure marker) := by
  induction data generalizing value b with
  | nil => cases b <;> rfl
  | cons byte data ih =>
      have hbyte : byte < 256 := hdata byte List.mem_cons_self
      have hrest : ∀ b ∈ data, b < 256 := fun b hb => hdata b (List.mem_cons_of_mem byte hb)
      have hlow : byte % 128 < 128 := Nat.mod_lt byte (by decide)
      have hfits : ¬(value * 128 + byte % 128) % 2 ^ 32 ≥ 2 ^ 32 :=
        not_le.mpr (Nat.mod_lt _ (Nat.two_pow_pos 32))
      rw [visitPacketLengths,Nat.shiftLeft_eq,and_low,accumulate_mod value _ hlow,if_neg hfits,
        lengthsFrom]
      simp only [and_continuation hbyte]
      split_ifs with hlast
      · have hzero := ih hrest 0 false
        rw [Nat.zero_mod] at hzero
        rw [hzero,Nat.mod_eq_of_lt hlast]
        cases lengthsFrom 0 false data <;> rfl
      · rw [show byte % 128 = byte - 128 by omega]
        exact ih hrest _ true

theorem visitPacketLengths_ok {marker : String} {data lengths : List ℕ}
    (hdata : ∀ b ∈ data, b < 256) : visitPacketLengths marker 0 false data = .ok lengths ↔
      ∃ vs, Holds data vs ∧ lengths = reduced vs := by
  have h := visitPacketLengths_eq marker hdata 0 false
  rw [Nat.zero_mod] at h
  simp only [h,holds_iff]
  cases lengthsFrom 0 false data with
  | none => simp
  | some vs => simp [eq_comm]

theorem readU32_some {payload rest : List ℕ} {n : ℕ} (h : readU32 payload = some (n,rest)) :
    payload.isEmpty = false ∧ payload.length = rest.length + 4 ∧ ∀ b ∈ rest, b ∈ payload := by
  match payload with
  | [] | [_] | [_,_] | [_,_,_] => cases h
  | b₀ :: b₁ :: b₂ :: b₃ :: data =>
      rw [readU32] at h
      obtain ⟨-,rfl⟩ := Prod.mk.inj (Option.some.inj h)
      exact ⟨rfl,rfl,fun b hb => by simp [hb]⟩

/-- A chunk that is read is its length and the bytes of that number. -/
theorem readBytes_some {n : ℕ} {data lengthData rest : List ℕ}
    (h : readBytes n data = some (lengthData,rest)) :
    lengthData.length = n ∧ data = lengthData ++ rest := by
  unfold readBytes at h
  split_ifs at h with hlen
  obtain ⟨rfl,rfl⟩ := Prod.mk.inj (Option.some.inj h)
  exact ⟨by rw [List.length_take,min_eq_left hlen],(List.take_append_drop n data).symm⟩

/-- What a turn over the chunks reads: a length, the bytes of that number and the chunks behind. -/
theorem visitPlmChunks_succ {fuel : ℕ} {payload lengths : List ℕ} (hne : payload ≠ []) :
    visitPlmChunks (fuel + 1) payload = .ok lengths ↔
      ∃ lengthData rest first more, readU32 payload = some (lengthData.length,lengthData ++ rest) ∧
        visitPacketLengths "PLM" 0 false lengthData = .ok first ∧
        visitPlmChunks fuel rest = .ok more ∧ lengths = first ++ more := by
  have hempty : ¬payload.isEmpty := by rwa [List.isEmpty_iff]
  conv_lhs => unfold visitPlmChunks
  rw [if_neg hempty]
  constructor
  · intro h
    cases hread : readU32 payload with
    | none =>
        rw [hread] at h
        cases h
    | some r =>
        obtain ⟨lengthDataLen,data⟩ := r
        rw [hread] at h
        dsimp only at h
        cases hchunk : readBytes lengthDataLen data with
        | none =>
            rw [hchunk] at h
            cases h
        | some r =>
            obtain ⟨lengthData,rest⟩ := r
            rw [hchunk] at h
            dsimp only at h
            obtain ⟨rfl,rfl⟩ := readBytes_some hchunk
            obtain ⟨first,hfirst,h⟩ := bind_eq_ok.mp h
            obtain ⟨more,hmore,h⟩ := bind_eq_ok.mp h
            exact ⟨lengthData,rest,first,more,rfl,hfirst,hmore,(Except.ok.inj h).symm⟩
  · rintro ⟨lengthData,rest,first,more,hread,hfirst,hmore,rfl⟩
    rw [hread]
    dsimp only
    rw [PacketMarkerSpecs.readBytes_append]
    dsimp only
    rw [hfirst,ok_bind,hmore,ok_bind]

theorem visitPlmChunks_ok {fuel : ℕ} {payload lengths : List ℕ} (hfuel : payload.length ≤ fuel)
    (hdata : ∀ b ∈ payload, b < 256) : visitPlmChunks fuel payload = .ok lengths ↔
      ∃ vs, PlmHolds payload vs ∧ lengths = reduced vs := by
  induction fuel generalizing payload lengths with
  | zero =>
      obtain rfl := List.length_eq_zero_iff.mp (Nat.le_zero.mp hfuel)
      constructor
      · intro h
        exact ⟨[],.nil,(Except.ok.inj h).symm⟩
      · rintro ⟨_,hvs,rfl⟩
        cases hvs with
        | nil => rfl
        | chunk hread _ _ => cases hread
  | succ fuel ih =>
      constructor
      · intro h
        by_cases hempty : payload = []
        · subst hempty
          exact ⟨[],.nil,(Except.ok.inj h).symm⟩
        · obtain ⟨lengthData,rest,first,more,hread,hfirst,hmore,rfl⟩ :=
            (visitPlmChunks_succ hempty).mp h
          obtain ⟨-,hlength,hmem⟩ := readU32_some hread
          rw [List.length_append] at hlength
          obtain ⟨vs,hvs,rfl⟩ := (visitPacketLengths_ok fun b hb =>
            hdata b (hmem b (List.mem_append_left rest hb))).mp hfirst
          obtain ⟨ws,hws,rfl⟩ := (ih (by omega) fun b hb =>
            hdata b (hmem b (List.mem_append_right lengthData hb))).mp hmore
          exact ⟨vs ++ ws,.chunk hread hvs hws,by
            rw [reduced,reduced,reduced,List.map_append]⟩
      · rintro ⟨_,hvs,rfl⟩
        cases hvs with
        | nil => rfl
        | @chunk _ lengthData rest vs more hread hheld hmore =>
            obtain ⟨hempty,hlength,hmem⟩ := readU32_some hread
            rw [List.length_append] at hlength
            have hne : payload ≠ [] := fun h => by
              rw [h] at hempty
              cases hempty
            have hfirst : visitPacketLengths "PLM" 0 false lengthData = .ok (reduced vs) :=
              (visitPacketLengths_ok fun b hb => hdata b (hmem b (List.mem_append_left rest hb))).mpr
                ⟨vs,hheld,rfl⟩
            have hnext : visitPlmChunks fuel rest = .ok (reduced more) :=
              (ih (by omega) fun b hb => hdata b (hmem b (List.mem_append_right lengthData hb))).mpr
                ⟨more,hmore,rfl⟩
            refine (visitPlmChunks_succ hne).mpr ⟨lengthData,rest,_,_,hread,hfirst,hnext,?_⟩
            rw [reduced,reduced,reduced,List.map_append]

/-! ## Markers -/

/-- A marker yields the integers that its payload holds, if it yields anything. -/
def Exact (name : String) (Held : List ℕ → List ℕ → Prop)
    (marker : List ℕ → Except DecodeError (Sequenced (List ℕ) × List ℕ)) (data : List ℕ) : Prop :=
  ∀ segment rest, marker data = .ok (segment,rest) →
    ∃ payload, sequencedSegment name data = .ok (⟨segment.sequenceIdx,payload⟩,rest) ∧
      Held payload segment.payload

/-- Every integer fits 32 bits, in a marker whose payload holds integers, of which there are
no more than the output may take. -/
def Representable (name : String) (Held : List ℕ → List ℕ → Prop) (maxOwnedBytes : ℕ)
    (data : List ℕ) : Prop :=
  ∀ segment rest vs, sequencedSegment name data = .ok (segment,rest) → Held segment.payload vs →
    vs.length * 4 ≤ maxOwnedBytes → ∀ v ∈ vs, v < 2 ^ 32

theorem sequencedSegment_mem {name : String} {data rest : List ℕ} {segment : Sequenced (List ℕ)}
    (h : sequencedSegment name data = .ok (segment,rest)) : ∀ b ∈ segment.payload, b ∈ data := by
  unfold sequencedSegment at h
  split at h
  · rename_i sequenceIdx payload rest' hpayload
    obtain ⟨rfl,rfl⟩ := Prod.mk.inj (Except.ok.inj h)
    unfold markerSegmentPayload at hpayload
    obtain ⟨⟨length,data'⟩,hlength,hpayload⟩ := Option.bind_eq_some_iff.mp hpayload
    dsimp only at hpayload
    split_ifs at hpayload
    obtain ⟨-,rfl⟩ := readBytes_some hpayload
    intro b hb
    match data with
    | [] | [_] => cases hlength
    | b₀ :: b₁ :: data =>
        rw [readU16] at hlength
        obtain ⟨-,rfl⟩ := Prod.mk.inj (Option.some.inj hlength)
        simp [hb]
  · cases h

/-- Exact markers are those with integers of 32 bits, where the integers come back reduced. -/
theorem exact_iff {name : String} {Held : List ℕ → List ℕ → Prop}
    {marker : List ℕ → Except DecodeError (Sequenced (List ℕ) × List ℕ)} {maxOwnedBytes : ℕ}
    {data : List ℕ} (hunique : ∀ payload vs ws, Held payload vs → Held payload ws → vs = ws)
    (hmarker : ∀ segment rest, marker data = .ok (segment,rest) ↔
      ∃ payload vs, sequencedSegment name data = .ok (⟨segment.sequenceIdx,payload⟩,rest) ∧
        Held payload vs ∧ vs.length * 4 ≤ maxOwnedBytes ∧ segment.payload = reduced vs) :
    Exact name Held marker data ↔ Representable name Held maxOwnedBytes data := by
  constructor
  · intro h segment rest vs hsegment hvs hlimit
    obtain ⟨payload,hpayload,hheld⟩ := h ⟨segment.sequenceIdx,reduced vs⟩ rest
      ((hmarker _ rest).mpr ⟨segment.payload,vs,hsegment,hvs,hlimit,rfl⟩)
    obtain rfl : segment.payload = payload :=
      congrArg (fun s => s.1.payload) (Except.ok.inj (hsegment.symm.trans hpayload))
    exact reduced_eq_self.mp (hunique _ _ _ hheld hvs)
  · intro h segment rest hok
    obtain ⟨payload,vs,hsegment,hvs,hlimit,hreduced⟩ := (hmarker segment rest).mp hok
    refine ⟨payload,hsegment,?_⟩
    rw [hreduced,reduced_eq_self.mpr (h _ rest vs hsegment hvs hlimit)]
    exact hvs

theorem validateOutputBytes_ok {n maxOwnedBytes : ℕ} {u : Unit} :
    validateOutputBytes n maxOwnedBytes = .ok u ↔ n * 4 ≤ maxOwnedBytes := by
  unfold validateOutputBytes
  split_ifs with h
  · exact ⟨fun h => (nomatch h),fun hle => absurd h (not_lt.mpr hle)⟩
  · exact ⟨fun _ => not_lt.mp h,fun _ => rfl⟩

theorem Holds.unique {payload vs ws : List ℕ} (h : Holds payload vs) (h' : Holds payload ws) :
    vs = ws :=
  Option.some.inj (h.lengths.symm.trans h'.lengths)

theorem PlmHolds.unique {payload vs ws : List ℕ} (h : PlmHolds payload vs)
    (h' : PlmHolds payload ws) : vs = ws := by
  induction h generalizing ws with
  | nil =>
      cases h' with
      | nil => rfl
      | chunk hread _ _ => cases hread
  | chunk hread hvs _ ih =>
      cases h' with
      | nil => cases hread
      | chunk hread' hvs' hmore' =>
          obtain ⟨hlength,hdata⟩ := Prod.mk.inj (Option.some.inj (hread.symm.trans hread'))
          obtain ⟨rfl,rfl⟩ := List.append_inj hdata hlength
          rw [hvs.unique hvs',ih hmore']

section
variable {data rest : List ℕ} {segment : Sequenced (List ℕ)} (maxOwnedBytes : ℕ)
  (hdata : ∀ b ∈ data, b < 256)
include hdata

theorem pltMarker_ok : pltMarker maxOwnedBytes data = .ok (segment,rest) ↔
    ∃ payload vs, sequencedSegment "PLT" data = .ok (⟨segment.sequenceIdx,payload⟩,rest) ∧
      Holds payload vs ∧ vs.length * 4 ≤ maxOwnedBytes ∧ segment.payload = reduced vs := by
  constructor
  · intro h
    obtain ⟨⟨read,rest'⟩,hread,h⟩ := bind_eq_ok.mp h
    obtain ⟨lengths,hlengths,h⟩ := bind_eq_ok.mp h
    obtain ⟨visited,hvisited,hlengths⟩ := bind_eq_ok.mp hlengths
    obtain ⟨u,hlimit,hlengths⟩ := bind_eq_ok.mp hlengths
    obtain ⟨rfl,rfl⟩ := Prod.mk.inj (Except.ok.inj h)
    obtain rfl := Except.ok.inj hlengths
    obtain ⟨vs,hvs,rfl⟩ := (visitPacketLengths_ok fun b hb =>
      hdata b (sequencedSegment_mem hread b hb)).mp hvisited
    rw [validateOutputBytes_ok,reduced,List.length_map] at hlimit
    exact ⟨read.payload,vs,hread,hvs,hlimit,rfl⟩
  · rintro ⟨payload,vs,hread,hvs,hlimit,hreduced⟩
    have hvisited : visitPacketLengths "PLT" 0 false payload = .ok (reduced vs) :=
      (visitPacketLengths_ok fun b hb => hdata b (sequencedSegment_mem hread b hb)).mpr ⟨vs,hvs,rfl⟩
    have hvalid : validateOutputBytes (reduced vs).length maxOwnedBytes = .ok () := by
      rw [validateOutputBytes_ok,reduced,List.length_map]
      exact hlimit
    unfold pltMarker decodePacketLengths
    rw [hread,ok_bind]
    dsimp only
    rw [hvisited,ok_bind,hvalid,ok_bind,ok_bind,← hreduced]

theorem plmMarker_ok : plmMarker maxOwnedBytes data = .ok (segment,rest) ↔
    ∃ payload vs, sequencedSegment "PLM" data = .ok (⟨segment.sequenceIdx,payload⟩,rest) ∧
      PlmHolds payload vs ∧ vs.length * 4 ≤ maxOwnedBytes ∧ segment.payload = reduced vs := by
  constructor
  · intro h
    obtain ⟨⟨read,rest'⟩,hread,h⟩ := bind_eq_ok.mp h
    obtain ⟨lengths,hvisited,h⟩ := bind_eq_ok.mp h
    obtain ⟨u,hlimit,h⟩ := bind_eq_ok.mp h
    obtain ⟨rfl,rfl⟩ := Prod.mk.inj (Except.ok.inj h)
    obtain ⟨vs,hvs,rfl⟩ := (visitPlmChunks_ok le_rfl fun b hb =>
      hdata b (sequencedSegment_mem hread b hb)).mp hvisited
    rw [validateOutputBytes_ok,reduced,List.length_map] at hlimit
    exact ⟨read.payload,vs,hread,hvs,hlimit,rfl⟩
  · rintro ⟨payload,vs,hread,hvs,hlimit,hreduced⟩
    have hvisited : visitPlmChunks payload.length payload = .ok (reduced vs) :=
      (visitPlmChunks_ok le_rfl fun b hb => hdata b (sequencedSegment_mem hread b hb)).mpr
        ⟨vs,hvs,rfl⟩
    have hvalid : validateOutputBytes (reduced vs).length maxOwnedBytes = .ok () := by
      rw [validateOutputBytes_ok,reduced,List.length_map]
      exact hlimit
    unfold plmMarker
    rw [hread,ok_bind]
    dsimp only
    rw [hvisited,ok_bind,hvalid,ok_bind,← hreduced]

/-- Both markers return the integers they hold exactly if these fit 32 bits. -/
theorem packet_length_values_iff :
    (Exact "PLT" Holds (pltMarker maxOwnedBytes) data ↔
      Representable "PLT" Holds maxOwnedBytes data) ∧
    (Exact "PLM" PlmHolds (plmMarker maxOwnedBytes) data ↔
      Representable "PLM" PlmHolds maxOwnedBytes data) :=
  ⟨exact_iff (fun _ _ _ h h' => h.unique h') fun _ _ => pltMarker_ok maxOwnedBytes hdata,
    exact_iff (fun _ _ _ h h' => h.unique h') fun _ _ => plmMarker_ok maxOwnedBytes hdata⟩

end

/-- A PLT segment with the packet lengths 130 and 5. -/
theorem packet_length_values_small :
    Exact "PLT" Holds (pltMarker 8) [0,6,0,0x81,0x02,0x05] := by
  refine (packet_length_values_iff 8 (by decide)).1.mpr fun segment rest vs hsegment hvs _ => ?_
  have hread : sequencedSegment "PLT" [0,6,0,0x81,0x02,0x05] = .ok (⟨0,[0x81,0x02,0x05]⟩,[]) := by
    decide
  obtain ⟨rfl,-⟩ := Prod.mk.inj (Except.ok.inj (hread.symm.trans hsegment))
  have hlengths : lengthsFrom 0 false [0x81,0x02,0x05] = some [130,5] := by decide
  obtain rfl : [130,5] = vs := Option.some.inj (hlengths.symm.trans hvs.lengths)
  decide

/-- `2^32` in five bytes comes back as 0. -/
theorem packet_length_wraps :
    pltMarker 4 [0,8,0,0x90,0x80,0x80,0x80,0x00] = .ok (⟨0,[0]⟩,[]) ∧
      ¬Exact "PLT" Holds (pltMarker 4) [0,8,0,0x90,0x80,0x80,0x80,0x00] := by
  have hmarker : pltMarker 4 [0,8,0,0x90,0x80,0x80,0x80,0x00] = .ok (⟨0,[0]⟩,[]) := by decide
  refine ⟨hmarker,fun h => ?_⟩
  obtain ⟨payload,hpayload,hheld⟩ := h _ _ hmarker
  have hsegment : sequencedSegment "PLT" [0,8,0,0x90,0x80,0x80,0x80,0x00] =
      .ok (⟨0,[0x90,0x80,0x80,0x80,0x00]⟩,[]) := by decide
  obtain rfl : [0x90,0x80,0x80,0x80,0x00] = payload :=
    congrArg (fun s => s.1.payload) (Except.ok.inj (hsegment.symm.trans hpayload))
  have hlengths : lengthsFrom 0 false [0x90,0x80,0x80,0x80,0x00] = some [0] := hheld.lengths
  exact absurd hlengths (by decide)

end J2kNative.PacketLengthValues
