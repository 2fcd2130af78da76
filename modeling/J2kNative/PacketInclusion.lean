import J2kNative.PacketIteration
import Mathlib.Data.List.Pairwise
import Mathlib.Data.Nat.Bitwise

/-!
# The packet inclusion map

The map numbers the packets of a tile: every resolution of every component owns a
range of numbers as long as it has packets, and each packet has a bit. Filtering a
sequence through the map keeps the first occurrence of every packet.
-/
namespace J2kNative.PacketInclusion
open TileTree PacketProgression PacketIteration

/-! ## First occurrences -/

section
variable {α : Type*} [DecidableEq α]

/-- The items that are neither among `seen` nor repeated. -/
def emitNew (seen : List α) : List α → List α
  | [] => []
  | a :: l => if a ∈ seen then emitNew seen l else a :: emitNew (a :: seen) l

theorem mem_emitNew {seen l : List α} {a : α} : a ∈ emitNew seen l ↔ a ∈ l ∧ a ∉ seen := by
  induction l generalizing seen with
  | nil => simp [emitNew]
  | cons b l ih =>
      rw [emitNew]
      split_ifs with hb
      · rw [ih, List.mem_cons]
        constructor
        · exact fun h => ⟨.inr h.1, h.2⟩
        · rintro ⟨rfl | h, hs⟩
          · exact absurd hb hs
          · exact ⟨h, hs⟩
      · rw [List.mem_cons, ih, List.mem_cons, List.mem_cons]
        by_cases hab : a = b
        · simp [hab, hb]
        · simp [hab]

theorem emitNew_nodup (seen l : List α) : (emitNew seen l).Nodup := by
  induction l generalizing seen with
  | nil => exact List.nodup_nil
  | cons b l ih =>
      rw [emitNew]
      split_ifs with hb
      · exact ih seen
      · exact List.nodup_cons.mpr ⟨fun h => (mem_emitNew.mp h).2 List.mem_cons_self, ih _⟩

end

/-! ## Bits in words -/

/-- Bit `k` of a list of words. -/
def wordBit (words : List ℕ) (k : ℕ) : Bool := (words.getD (k / 64) 0).testBit (k % 64)

theorem and_mask_eq_zero {word i : ℕ} : word &&& 1 <<< i = 0 ↔ word.testBit i = false := by
  rw [Nat.one_shiftLeft, Nat.and_two_pow]
  cases word.testBit i <;> simp

theorem wordBit_set {words : List ℕ} {k : ℕ} (h : k / 64 < words.length) (j : ℕ) :
    wordBit (words.set (k / 64) (words[k / 64] ||| 1 <<< (k % 64))) j =
      (wordBit words j || decide (j = k)) := by
  unfold wordBit
  rw [List.getD_eq_getElem?_getD, List.getD_eq_getElem?_getD, List.getElem?_set]
  by_cases hj : k / 64 = j / 64
  · rw [if_pos hj, if_pos h, Option.getD_some, Nat.testBit_or, Nat.one_shiftLeft, Nat.testBit_two_pow,
      ← hj, List.getElem?_eq_getElem h, Option.getD_some]
    congr 1
    refine decide_eq_decide.mpr ?_
    omega
  · rw [if_neg hj]
    have hne : j ≠ k := fun h => hj (by rw [h])
    simp [hne]

theorem wordBit_replicate (n k : ℕ) : wordBit (List.replicate n 0) k = false := by
  unfold wordBit
  rw [List.getD_eq_getElem?_getD, List.getElem?_replicate]
  split_ifs <;> simp

/-! ## Offsets of the resolutions -/

section
variable {maxResolution layers : ℕ}

/-- The place of a resolution among the offsets. -/
def offsetSlot (maxResolution : ℕ) (r : ℕ × ℕ × ℕ) : ℕ := r.1 * maxResolution + r.2.1

/-- The packets of the resolutions. -/
def packetTotal (layers : ℕ) (counts : List (ℕ × ℕ × ℕ)) : ℕ :=
  (counts.map fun r => r.2.2 * layers).sum

theorem addResolution_eq {s t : List ℕ × ℕ} {r : ℕ × ℕ × ℕ}
    (h : PacketInclusionMap.addResolution maxResolution layers s r = some t) :
    t = (s.1.set (offsetSlot maxResolution r) s.2, s.2 + r.2.2 * layers) := by
  unfold PacketInclusionMap.addResolution checkedUsize at h
  simp only [Option.bind_eq_bind, Option.bind_eq_some_iff, Option.ite_none_right_eq_some] at h
  obtain ⟨_, ⟨-, h1⟩, _, ⟨-, h2⟩, _, ⟨-, h3⟩, h4⟩ := h
  cases h1
  cases h2
  cases h3
  cases h4
  rfl

/-- Where the loop of `new` puts the resolutions: each in a range of its own, in turn. -/
structure Placed (maxResolution layers start total : ℕ) (counts : List (ℕ × ℕ × ℕ))
    (offsets : List ℕ) : Prop where
  place : ∀ r ∈ counts, ∃ b, offsets[offsetSlot maxResolution r]? = some b ∧ start ≤ b ∧
    b + r.2.2 * layers ≤ total
  apart : counts.Pairwise fun r t => ∀ b c, offsets[offsetSlot maxResolution r]? = some b →
    offsets[offsetSlot maxResolution t]? = some c → b + r.2.2 * layers ≤ c

theorem Placed.disjoint {start total : ℕ} {counts : List (ℕ × ℕ × ℕ)} {offsets : List ℕ}
    (h : Placed maxResolution layers start total counts offsets) {r t : ℕ × ℕ × ℕ}
    (hr : r ∈ counts) (ht : t ∈ counts) (hne : r ≠ t) {b c : ℕ}
    (hb : offsets[offsetSlot maxResolution r]? = some b)
    (hc : offsets[offsetSlot maxResolution t]? = some c) :
    b + r.2.2 * layers ≤ c ∨ c + t.2.2 * layers ≤ b := by
  let Apart (r t : ℕ × ℕ × ℕ) : Prop := ∀ b c, offsets[offsetSlot maxResolution r]? = some b →
    offsets[offsetSlot maxResolution t]? = some c →
      b + r.2.2 * layers ≤ c ∨ c + t.2.2 * layers ≤ b
  have hsymm : Std.Symm Apart := ⟨fun r t h b c hb hc => (h c b hc hb).symm⟩
  have happart : counts.Pairwise Apart := h.apart.imp fun h b c hb hc => .inl (h b c hb hc)
  exact happart.forall hr ht hne b c hb hc

theorem foldlM_addResolution {counts : List (ℕ × ℕ × ℕ)} {s t : List ℕ × ℕ}
    (hlt : ∀ r ∈ counts, offsetSlot maxResolution r < s.1.length)
    (hne : counts.Pairwise fun r t => offsetSlot maxResolution r ≠ offsetSlot maxResolution t)
    (h : counts.foldlM (PacketInclusionMap.addResolution maxResolution layers) s = some t) :
    t.2 = s.2 + packetTotal layers counts ∧ Placed maxResolution layers s.2 t.2 counts t.1 ∧
      ∀ k, (∀ r ∈ counts, offsetSlot maxResolution r ≠ k) → t.1[k]? = s.1[k]? := by
  induction counts generalizing s with
  | nil =>
      cases h
      exact ⟨rfl, ⟨by simp, .nil⟩, fun _ _ => rfl⟩
  | cons r counts ih =>
      rw [List.foldlM_cons] at h
      obtain ⟨u, hu, h⟩ := Option.bind_eq_some_iff.mp h
      obtain rfl := addResolution_eq hu
      obtain ⟨hr, hlt⟩ := List.forall_mem_cons.mp hlt
      obtain ⟨hr', hne⟩ := List.pairwise_cons.mp hne
      obtain ⟨htotal, hplaced, hkept⟩ := ih (by simpa using hlt) hne h
      dsimp only at htotal hplaced hkept
      have hfirst : t.1[offsetSlot maxResolution r]? = some s.2 := by
        rw [hkept _ fun q hq => (hr' q hq).symm, List.getElem?_set_self hr]
      have hsum : packetTotal layers (r :: counts) = r.2.2 * layers + packetTotal layers counts := by
        simp [packetTotal]
      refine ⟨by omega, ⟨?_, ?_⟩, fun k hk => ?_⟩
      · intro q hq
        rcases List.mem_cons.mp hq with rfl | hq
        · exact ⟨s.2, hfirst, le_rfl, by omega⟩
        · obtain ⟨b, hb, hle, hle'⟩ := hplaced.place q hq
          exact ⟨b, hb, by omega, hle'⟩
      · refine List.pairwise_cons.mpr ⟨fun q hq b c hb hc => ?_, hplaced.apart⟩
        obtain ⟨c', hc', hle, -⟩ := hplaced.place q hq
        rw [hfirst, Option.some.injEq] at hb
        rw [hc', Option.some.injEq] at hc
        omega
      · obtain ⟨hk, hrest⟩ := List.forall_mem_cons.mp hk
        rw [hkept k hrest, List.getElem?_set_ne hk]

/-- The loop ends when the packets are counted in a `usize`. -/
theorem foldlM_addResolution_total {counts : List (ℕ × ℕ × ℕ)} {s : List ℕ × ℕ}
    (hslot : ∀ r ∈ counts, offsetSlot maxResolution r ≤ usizeMax)
    (htotal : s.2 + packetTotal layers counts ≤ usizeMax) :
    ∃ t, counts.foldlM (PacketInclusionMap.addResolution maxResolution layers) s = some t := by
  induction counts generalizing s with
  | nil => exact ⟨s, rfl⟩
  | cons r counts ih =>
      obtain ⟨hr, hslot⟩ := List.forall_mem_cons.mp hslot
      have hsum : packetTotal layers (r :: counts) = r.2.2 * layers + packetTotal layers counts := by
        simp [packetTotal]
      have hstep : PacketInclusionMap.addResolution maxResolution layers s r =
          some (s.1.set (offsetSlot maxResolution r) s.2, s.2 + r.2.2 * layers) := by
        unfold PacketInclusionMap.addResolution checkedUsize
        rw [if_pos (c := r.1 * maxResolution + r.2.1 ≤ usizeMax) hr, Option.bind_eq_bind,
          Option.bind_some, if_pos (by omega), Option.bind_some, if_pos (by omega)]
        rfl
      rw [List.foldlM_cons, hstep]
      exact ih hslot (by dsimp only; omega)

end

/-! ## The numbers of a tile's packets -/

section
variable {tile : Tile}

theorem max?_eq (h : Accepted tile) :
    (tile.componentInfos.map fun c => c.parameters.numResolutionLevels).max? =
      some (maxResolutionOf tile) := by
  have hpos := h.components.1
  unfold maxResolutionOf
  generalize tile.componentInfos = infos at hpos
  cases infos with
  | nil => cases hpos
  | cons a infos =>
      rw [List.map_cons, List.max?_cons', Option.some.injEq, List.foldr_cons]
      clear hpos
      induction infos generalizing a with
      | nil => simp
      | cons b infos ih =>
          rw [List.map_cons, List.foldl_cons, List.foldr_cons]
          have hmax (x : ℕ) (l : List ℕ) : l.foldl max x = max x (l.foldr max 0) := by
            induction l generalizing x with
            | nil => simp
            | cons y l ih => rw [List.foldl_cons, ih, List.foldr_cons, Nat.max_assoc]
          rw [hmax, Nat.max_assoc]

theorem mem_resolutionCounts {r : ℕ × ℕ × ℕ} :
    r ∈ PacketInclusionMap.resolutionCounts tile ↔ r.1 < tile.componentInfos.length ∧
      r.2.1 < levelsOf tile r.1 ∧ r.2.2 = (resolutionTileOf tile r.1 r.2.1).numPrecincts := by
  obtain ⟨c, res, n⟩ := r
  simp only [PacketInclusionMap.resolutionCounts, List.mem_flatMap, List.mem_map, List.mem_range,
    Prod.mk.injEq]
  constructor
  · rintro ⟨⟨info, i⟩, hinfo, r, hr, rfl, rfl, rfl⟩
    have hget := List.mk_mem_zipIdx_iff_getElem?.mp hinfo
    obtain ⟨hlt, heq⟩ := List.getElem?_eq_some_iff.mp hget
    have hinfo : tile.componentInfos.getD i default = info := by
      rw [List.getD_eq_getElem?_getD, hget, Option.getD_some]
    refine ⟨hlt, ?_, ?_⟩
    · rw [levelsOf, hinfo]
      exact hr
    · rw [resolutionTileOf, hinfo]
  · rintro ⟨hc, hres, rfl⟩
    refine ⟨(tile.componentInfos.getD c default, c), ?_, res, hres, rfl, rfl, rfl⟩
    refine List.mk_mem_zipIdx_iff_getElem?.mpr ?_
    rw [List.getD_eq_getElem?_getD, List.getElem?_eq_getElem hc, Option.getD_some]

/-- Components and resolutions are told apart by their place among the offsets. -/
theorem offsetSlot_inj {r t : ℕ × ℕ × ℕ} (hr : r ∈ PacketInclusionMap.resolutionCounts tile)
    (ht : t ∈ PacketInclusionMap.resolutionCounts tile)
    (h : offsetSlot (maxResolutionOf tile) r = offsetSlot (maxResolutionOf tile) t) : r = t := by
  obtain ⟨hc, hres, hn⟩ := mem_resolutionCounts.mp hr
  obtain ⟨hc', hres', hn'⟩ := mem_resolutionCounts.mp ht
  have hlt := hres.trans_le (le_maxResolutionOf (info_mem hc))
  have hlt' := hres'.trans_le (le_maxResolutionOf (info_mem hc'))
  unfold offsetSlot at h
  have hmod := congrArg (· % maxResolutionOf tile) h
  have hdiv := congrArg (· / maxResolutionOf tile) h
  simp only [Nat.mul_comm _ (maxResolutionOf tile), Nat.mul_add_mod, Nat.mod_eq_of_lt hlt,
    Nat.mod_eq_of_lt hlt'] at hmod
  simp only [Nat.mul_comm _ (maxResolutionOf tile),
    Nat.mul_add_div (Nat.zero_lt_of_lt hlt), Nat.div_eq_of_lt hlt, Nat.div_eq_of_lt hlt',
    Nat.add_zero] at hdiv
  refine Prod.ext hdiv (Prod.ext hmod ?_)
  rw [hn, hn', hdiv, hmod]

theorem resolutionCounts_nodup (tile : Tile) :
    (PacketInclusionMap.resolutionCounts tile).Nodup := by
  unfold PacketInclusionMap.resolutionCounts
  refine List.nodup_flatMap.mpr ⟨fun x _ => ?_, ?_⟩
  · refine List.nodup_range.map fun a b hab => ?_
    exact (Prod.mk.inj (Prod.mk.inj hab).2).1
  · have hidx : (tile.componentInfos.zipIdx.map Prod.snd).Nodup := by
      rw [List.zipIdx_map_snd]
      exact List.nodup_range'
    refine (List.pairwise_map.mp hidx).imp fun {x y} hxy r hr hr' => ?_
    obtain ⟨a, -, rfl⟩ := List.mem_map.mp hr
    obtain ⟨b, -, heq⟩ := List.mem_map.mp hr'
    exact hxy (Prod.mk.inj heq).1.symm

theorem offsetSlot_pairwise (tile : Tile) : (PacketInclusionMap.resolutionCounts tile).Pairwise
    fun r t => offsetSlot (maxResolutionOf tile) r ≠ offsetSlot (maxResolutionOf tile) t :=
  (resolutionCounts_nodup tile).imp_of_mem fun hr ht hne heq => hne (offsetSlot_inj hr ht heq)

theorem offsetSlot_lt {r : ℕ × ℕ × ℕ} (hr : r ∈ PacketInclusionMap.resolutionCounts tile) :
    offsetSlot (maxResolutionOf tile) r < tile.componentInfos.length * maxResolutionOf tile := by
  obtain ⟨hc, hres, -⟩ := mem_resolutionCounts.mp hr
  have hlt := hres.trans_le (le_maxResolutionOf (info_mem hc))
  calc offsetSlot (maxResolutionOf tile) r < (r.1 + 1) * maxResolutionOf tile := by
        unfold offsetSlot
        rw [Nat.add_mul, Nat.one_mul]
        omega
    _ ≤ tile.componentInfos.length * maxResolutionOf tile := Nat.mul_le_mul_right _ hc

/-- The bytes of the map. -/
def inclusionBytes (tile : Tile) : ℕ :=
  tile.componentInfos.length * maxResolutionOf tile * 8 +
    (packetTotal tile.numLayers (PacketInclusionMap.resolutionCounts tile) + 63) / 64 * 8

/-- What `new` builds: the packets of a tile have numbers of their own, whose bits are all
unset. -/
structure Numbers (tile : Tile) (m : PacketInclusionMap) : Prop where
  number : ∀ d, IsTilePacket tile d → ∃ k, m.packetOffset d = some k ∧ k / 64 < m.words.length
  inj : ∀ d d', IsTilePacket tile d → IsTilePacket tile d' →
    m.packetOffset d = m.packetOffset d' → d = d'
  unset : ∀ k, wordBit m.words k = false

theorem packetOffset_eq {m : PacketInclusionMap} {d : ProgressionData} {b : ℕ}
    (hslot : d.component * m.maxResolution + d.resolution ≤ usizeMax)
    (hb : m.resolutionOffsets[d.component * m.maxResolution + d.resolution]? = some b)
    (hle : b + (d.precinct * m.layers + d.layerNum) ≤ usizeMax) :
    m.packetOffset d = some (b + (d.precinct * m.layers + d.layerNum)) := by
  unfold PacketInclusionMap.packetOffset checkedUsize
  rw [if_pos hslot, Option.bind_eq_bind, Option.bind_some, hb, Option.bind_some, if_pos hle]

theorem new_numbers (h : Accepted tile) {m : PacketInclusionMap}
    (hnew : PacketInclusionMap.new tile = some m) :
    Numbers tile m ∧ inclusionBytes tile ≤ defaultMaxDecodeBytes := by
  unfold PacketInclusionMap.new at hnew
  rw [max?_eq h, Option.bind_eq_bind, Option.bind_some] at hnew
  simp only [Option.bind_eq_bind, Option.bind_eq_some_iff] at hnew
  obtain ⟨slotCount, hslotCount, ⟨offsets, total⟩, hfold, bytes, hbytes, hnew⟩ := hnew
  obtain ⟨hslotMax, rfl⟩ : tile.componentInfos.length * maxResolutionOf tile ≤ usizeMax ∧
      tile.componentInfos.length * maxResolutionOf tile = slotCount := by
    unfold checkedUsize at hslotCount
    simpa using hslotCount
  obtain ⟨htotal, hplaced, -⟩ := foldlM_addResolution
    (fun r hr => by simpa using offsetSlot_lt hr) (offsetSlot_pairwise tile) hfold
  obtain ⟨hbytesMax, hbytesEq⟩ := Option.ite_none_right_eq_some.mp hbytes
  obtain rfl := Option.some.inj hbytesEq
  rw [Option.ite_none_left_eq_some, Option.some.injEq] at hnew
  obtain ⟨hfit, rfl⟩ := hnew
  dsimp only at htotal hplaced hbytesMax hfit ⊢
  rw [Nat.zero_add] at htotal
  have hlayer {d : ProgressionData} (hd : IsTilePacket tile d) :
      d.precinct * tile.numLayers + d.layerNum <
        (resolutionTileOf tile d.component d.resolution).numPrecincts * tile.numLayers := by
    calc d.precinct * tile.numLayers + d.layerNum < (d.precinct + 1) * tile.numLayers := by
          rw [Nat.add_mul, Nat.one_mul]
          have := hd.layer
          omega
      _ ≤ _ := Nat.mul_le_mul_right _ hd.precinct
  have hcount {d : ProgressionData} (hd : IsTilePacket tile d) :
      (d.component, d.resolution, (resolutionTileOf tile d.component d.resolution).numPrecincts) ∈
        PacketInclusionMap.resolutionCounts tile :=
    mem_resolutionCounts.mpr ⟨hd.component, hd.resolution, rfl⟩
  have hmax : total ≤ usizeMax := by
    have : (total + PacketInclusionMap.packetsPerInclusionWord - 1) /
        PacketInclusionMap.packetsPerInclusionWord * 8 ≤ defaultMaxDecodeBytes := by omega
    have h64 : PacketInclusionMap.packetsPerInclusionWord = 64 := rfl
    have h29 : defaultMaxDecodeBytes = 2 ^ 29 := rfl
    have hu : usizeMax = 2 ^ 64 - 1 := rfl
    rw [h64] at this
    omega
  have hnumber {d : ProgressionData} (hd : IsTilePacket tile d) :=
    hplaced.place _ (hcount hd)
  dsimp only [offsetSlot] at hnumber
  refine ⟨⟨fun d hd => ?_, fun d d' hd hd' heq => ?_, wordBit_replicate _⟩, ?_⟩
  · obtain ⟨b, hb, -, hle⟩ := hnumber hd
    have hlt := hlayer hd
    have hslot := offsetSlot_lt (hcount hd)
    dsimp only [offsetSlot] at hslot
    refine ⟨_, packetOffset_eq (by dsimp only; omega) hb (by dsimp only; omega), ?_⟩
    rw [List.length_replicate, show PacketInclusionMap.packetsPerInclusionWord = 64 from rfl]
    dsimp only
    omega
  · obtain ⟨b, hb, -, hle⟩ := hnumber hd
    obtain ⟨b', hb', -, hle'⟩ := hnumber hd'
    have hlt := hlayer hd
    have hlt' := hlayer hd'
    have hslot := offsetSlot_lt (hcount hd)
    have hslot' := offsetSlot_lt (hcount hd')
    dsimp only [offsetSlot] at hslot hslot'
    rw [packetOffset_eq (by dsimp only; omega) hb (by dsimp only; omega),
      packetOffset_eq (by dsimp only; omega) hb' (by dsimp only; omega), Option.some.injEq] at heq
    dsimp only at heq
    have hsame : d.component = d'.component ∧ d.resolution = d'.resolution := by
      by_contra hne
      have hcases := hplaced.disjoint (hcount hd) (hcount hd') (fun h => hne (by
        simp only [Prod.mk.injEq] at h
        exact ⟨h.1, h.2.1⟩)) hb hb'
      dsimp only at hcases
      omega
    obtain ⟨la, r, c, p⟩ := d
    obtain ⟨la', r', c', p'⟩ := d'
    obtain ⟨rfl, rfl⟩ := hsame
    rw [hb, Option.some.injEq] at hb'
    have hla := hd.layer
    have hla' := hd'.layer
    dsimp only at heq hb' hla hla'
    have hsum : p * tile.numLayers + la = p' * tile.numLayers + la' := by omega
    have hmod := congrArg (· % tile.numLayers) hsum
    have hdiv := congrArg (· / tile.numLayers) hsum
    simp only [Nat.mul_comm _ tile.numLayers, Nat.mul_add_mod, Nat.mod_eq_of_lt hla,
      Nat.mod_eq_of_lt hla'] at hmod
    simp only [Nat.mul_comm _ tile.numLayers, Nat.mul_add_div (Nat.zero_lt_of_lt hla),
      Nat.div_eq_of_lt hla, Nat.div_eq_of_lt hla', Nat.add_zero] at hdiv
    rw [hmod, hdiv]
  · unfold inclusionBytes
    rw [← htotal]
    have h64 : PacketInclusionMap.packetsPerInclusionWord = 64 := rfl
    rw [h64] at hfit
    omega

/-- The map is built whenever it fits the decoder's byte limit. -/
theorem new_total (h : Accepted tile) (hfit : inclusionBytes tile ≤ defaultMaxDecodeBytes) :
    ∃ m, PacketInclusionMap.new tile = some m := by
  have h29 : defaultMaxDecodeBytes = 2 ^ 29 := rfl
  have hu : usizeMax = 2 ^ 64 - 1 := rfl
  have h64 : PacketInclusionMap.packetsPerInclusionWord = 64 := rfl
  unfold inclusionBytes at hfit
  have hslots : tile.componentInfos.length * maxResolutionOf tile ≤ usizeMax := by omega
  have htotal : packetTotal tile.numLayers (PacketInclusionMap.resolutionCounts tile) ≤
      usizeMax := by omega
  obtain ⟨⟨offsets, total⟩, hfold⟩ := @foldlM_addResolution_total (maxResolutionOf tile)
    tile.numLayers (PacketInclusionMap.resolutionCounts tile)
    (List.replicate (tile.componentInfos.length * maxResolutionOf tile) usizeMax, 0)
    (fun r hr => (offsetSlot_lt hr).le.trans hslots) (by dsimp only; omega)
  obtain ⟨hsum, -⟩ := foldlM_addResolution
    (fun r hr => by simpa using offsetSlot_lt hr) (offsetSlot_pairwise tile) hfold
  dsimp only at hsum
  rw [Nat.zero_add] at hsum
  unfold PacketInclusionMap.new
  rw [max?_eq h, Option.bind_eq_bind, Option.bind_some, checkedUsize, if_pos hslots,
    Option.bind_some, hfold, Option.bind_eq_bind, Option.bind_some]
  dsimp only
  rw [hsum, h64, checkedUsize, if_pos (by omega), Option.bind_some, if_neg (by omega)]
  exact ⟨_, rfl⟩

/-! ## Filtering -/

/-- The map after some packets: the offsets are kept, and the bits set are those of the
packets. -/
structure Holds (tile : Tile) (m₀ m : PacketInclusionMap) (seen : List ProgressionData) :
    Prop where
  offsets : ∀ d, m.packetOffset d = m₀.packetOffset d
  length : m.words.length = m₀.words.length
  bit : ∀ d, IsTilePacket tile d → ∀ k, m.packetOffset d = some k →
    (wordBit m.words k = true ↔ d ∈ seen)

theorem Numbers.holds {m : PacketInclusionMap} (h : Numbers tile m) : Holds tile m m [] :=
  ⟨fun _ => rfl, rfl, fun _ _ k _ => by simp [h.unset k]⟩

theorem insert_spec {m₀ m : PacketInclusionMap} {seen : List ProgressionData}
    (h₀ : Numbers tile m₀) (h : Holds tile m₀ m seen) {d : ProgressionData}
    (hd : IsTilePacket tile d) :
    (m.insert d).1 = decide (d ∉ seen) ∧ Holds tile m₀ (m.insert d).2 (d :: seen) := by
  obtain ⟨k, hk, hlt⟩ := h₀.number d hd
  have hk' : m.packetOffset d = some k := (h.offsets d).trans hk
  rw [← h.length] at hlt
  have hword : m.words[k / PacketInclusionMap.packetsPerInclusionWord]? = some m.words[k / 64] :=
    List.getElem?_eq_getElem hlt
  unfold PacketInclusionMap.insert
  rw [hk']
  dsimp only
  rw [hword]
  dsimp only
  have hbit := h.bit d hd k hk'
  have hget : wordBit m.words k = m.words[k / 64].testBit (k % 64) := by
    unfold wordBit
    rw [List.getD_eq_getElem?_getD, List.getElem?_eq_getElem hlt, Option.getD_some]
  constructor
  · refine decide_eq_decide.mpr ?_
    rw [show PacketInclusionMap.packetsPerInclusionWord = 64 from rfl, and_mask_eq_zero, ← hget,
      ← hbit, Bool.not_eq_true]
  · refine ⟨h.offsets, by simpa using h.length, fun e he j hj => ?_⟩
    have hj' : m.packetOffset e = some j := hj
    rw [show PacketInclusionMap.packetsPerInclusionWord = 64 from rfl, wordBit_set hlt,
      Bool.or_eq_true, h.bit e he j hj', List.mem_cons, decide_eq_true_eq, or_comm]
    refine or_congr ⟨fun hjk => ?_, fun hed => ?_⟩ Iff.rfl
    · refine h₀.inj e d he hd ?_
      rw [← h.offsets, ← h.offsets, hj', hk', hjk]
    · rw [hed, hk'] at hj'
      exact (Option.some.inj hj').symm

/-- Filtering keeps first occurrences. -/
theorem filter_eq {m₀ m : PacketInclusionMap} {seen l : List ProgressionData}
    (h₀ : Numbers tile m₀) (h : Holds tile m₀ m seen) (hl : ∀ d ∈ l, IsTilePacket tile d) :
    m.filter l = emitNew seen l := by
  induction l generalizing m seen with
  | nil => rfl
  | cons d l ih =>
      obtain ⟨hd, hl⟩ := List.forall_mem_cons.mp hl
      obtain ⟨hnew, hholds⟩ := insert_spec h₀ h hd
      rw [PacketInclusionMap.filter, emitNew]
      dsimp only
      rw [hnew]
      by_cases hs : d ∈ seen
      · rw [if_neg (by simp [hs]), if_pos hs]
        refine ih ⟨hholds.offsets, hholds.length, fun e he k hk => ?_⟩ hl
        rw [hholds.bit e he k hk, List.mem_cons]
        exact ⟨fun h => h.elim (fun h => h ▸ hs) id, .inr⟩
      · rw [if_pos (by simp [hs]), if_neg hs, ih hholds hl]

end

end J2kNative.PacketInclusion
