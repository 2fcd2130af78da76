import J2kNative.PrecinctBlocks

/-!
# Precincts and code blocks of the decoder

The decoder clips every precinct of a resolution to the sub-band, rounds the result out
to whole code blocks, and lists their rectangles. In a sub-band at the origin whose
precincts are made of whole code blocks these are the blocks that start in the precinct.
-/
namespace J2kNative.DecodedBlocks
open Fallible CellGrids TileGeometry TileTree PacketPlan PacketContents PrecinctBlocks

theorem checkedExtent_eq {value : ℕ} (h : value ≤ u32Max) : checkedExtent value = .ok value :=
  if_pos h

/-- The rectangle of a sub-band with its lower corner at the origin. -/
def originRect (width height : ℕ) : IntRect := ⟨0, 0, width, height⟩

section
variable {tile : ResolutionTile} {subBandRect : IntRect}

theorem buildCodeBlockRow_eq (y yIdx columns xIdx x : ℕ)
    (h : x + columns * tile.codeBlockWidth ≤ u32Max) :
    buildCodeBlockRow tile subBandRect y yIdx columns xIdx x =
      .ok ((List.range columns).map fun k =>
        ⟨intersect (.fromXywh (x + k * tile.codeBlockWidth) y tile.codeBlockWidth
          tile.codeBlockHeight) subBandRect, xIdx + k, yIdx⟩) := by
  induction columns generalizing xIdx x with
  | zero => rfl
  | succ columns ih =>
      rw [Nat.add_mul, Nat.one_mul] at h
      unfold buildCodeBlockRow
      rw [checkedExtent_eq (by omega), ok_bind, ih _ _ (by omega), ok_bind, List.range_succ_eq_map,
        List.map_cons, List.map_map, Nat.zero_mul, Nat.add_zero, Nat.add_zero]
      congr 2
      refine List.map_congr_left fun k _ => ?_
      rw [Function.comp_apply, Nat.succ_eq_add_one, Nat.add_mul, Nat.one_mul]
      simp only [Nat.add_assoc, Nat.add_comm 1, Nat.add_comm tile.codeBlockWidth]

theorem buildCodeBlockRows_eq (columns x rows yIdx y : ℕ)
    (hx : x + columns * tile.codeBlockWidth ≤ u32Max)
    (hy : y + rows * tile.codeBlockHeight ≤ u32Max) :
    buildCodeBlockRows tile subBandRect columns x rows yIdx y =
      .ok ((List.range rows).flatMap fun l => (List.range columns).map fun k =>
        ⟨intersect (.fromXywh (x + k * tile.codeBlockWidth) (y + l * tile.codeBlockHeight)
          tile.codeBlockWidth tile.codeBlockHeight) subBandRect, k, yIdx + l⟩) := by
  induction rows generalizing yIdx y with
  | zero => rfl
  | succ rows ih =>
      rw [Nat.add_mul, Nat.one_mul] at hy
      unfold buildCodeBlockRows
      rw [buildCodeBlockRow_eq _ _ _ _ _ hx, ok_bind, checkedExtent_eq (by omega), ok_bind,
        ih _ _ (by omega), ok_bind, List.range_succ_eq_map, List.flatMap_cons, List.flatMap_map,
        Nat.zero_mul, Nat.add_zero, Nat.add_zero]
      congr 2
      · simp only [Nat.zero_add, Nat.add_zero]
      · refine List.flatMap_congr fun l _ => List.map_congr_left fun k _ => ?_
        rw [Nat.succ_eq_add_one, Nat.add_mul, Nat.one_mul]
        simp only [Nat.add_assoc, Nat.add_comm 1, Nat.add_comm tile.codeBlockHeight]

end

section
variable {tile : ResolutionTile} {width height q t i j : ℕ}

/-- The far end of a precinct's code blocks on an axis. -/
def blocksEnd (extent span cb i : ℕ) : ℕ := divCeil (min (i * span + span) extent) cb * cb

theorem blocksEnd_eq {extent cb : ℕ} (hcb : 0 < cb) (h : i * (q * cb) ≤ extent) :
    blocksEnd extent (q * cb) cb i =
      i * (q * cb) + blockCount extent (q * cb) cb i * cb := by
  have hstart : i * (q * cb) / cb * cb = i * (q * cb) := by
    rw [← Nat.mul_assoc, Nat.mul_div_cancel _ hcb]
  have hle : i * (q * cb) ≤ blocksEnd extent (q * cb) cb i := by
    have hmin : i * (q * cb) ≤ min (i * (q * cb) + q * cb) extent := by omega
    exact hmin.trans ((divCeil_le_iff hcb).mp le_rfl)
  unfold blockCount
  rw [Nat.sub_mul, hstart]
  unfold blocksEnd at hle ⊢
  omega

theorem codeBlockGrid_eq (hw : 0 < tile.codeBlockWidth) (hh : 0 < tile.codeBlockHeight)
    (hi : i * (q * tile.codeBlockWidth) ≤ width) (hj : j * (t * tile.codeBlockHeight) ≤ height)
    (hx : blocksEnd width (q * tile.codeBlockWidth) tile.codeBlockWidth i ≤ u32Max)
    (hy : blocksEnd height (t * tile.codeBlockHeight) tile.codeBlockHeight j ≤ u32Max) :
    codeBlockGrid tile (originRect width height)
        (.fromXywh (i * (q * tile.codeBlockWidth)) (j * (t * tile.codeBlockHeight))
          (q * tile.codeBlockWidth) (t * tile.codeBlockHeight)) =
      .ok ⟨⟨i * (q * tile.codeBlockWidth), j * (t * tile.codeBlockHeight),
          blocksEnd width (q * tile.codeBlockWidth) tile.codeBlockWidth i,
          blocksEnd height (t * tile.codeBlockHeight) tile.codeBlockHeight j⟩,
        blockCount width (q * tile.codeBlockWidth) tile.codeBlockWidth i,
        blockCount height (t * tile.codeBlockHeight) tile.codeBlockHeight j⟩ := by
  have hstart {i q cb : ℕ} (hcb : 0 < cb) : max (i * (q * cb)) 0 / cb * cb = i * (q * cb) := by
    rw [Nat.max_zero, ← Nat.mul_assoc, Nat.mul_div_cancel _ hcb]
  have hcount {i q cb extent : ℕ} (hcb : 0 < cb) (h : i * (q * cb) ≤ extent) :
      (if extent = 0 then 0 else (blocksEnd extent (q * cb) cb i - i * (q * cb)) / cb) =
        blockCount extent (q * cb) cb i := by
    split_ifs with h0
    · rw [blockCount_eq_zero hcb (by omega)]
    · rw [blocksEnd_eq hcb h, Nat.add_sub_cancel_left, Nat.mul_div_cancel _ hcb]
  have hendX := blocksEnd_eq hw hi
  have hendY := blocksEnd_eq hh hj
  unfold codeBlockGrid originRect IntRect.fromXywh
  dsimp only
  rw [show divCeil (min (i * (q * tile.codeBlockWidth) + q * tile.codeBlockWidth) width)
      tile.codeBlockWidth * tile.codeBlockWidth =
        blocksEnd width (q * tile.codeBlockWidth) tile.codeBlockWidth i from rfl,
    show divCeil (min (j * (t * tile.codeBlockHeight) + t * tile.codeBlockHeight) height)
      tile.codeBlockHeight * tile.codeBlockHeight =
        blocksEnd height (t * tile.codeBlockHeight) tile.codeBlockHeight j from rfl]
  rw [checkedExtent_eq hx, ok_bind, checkedExtent_eq hy, ok_bind, hstart hw, hstart hh,
    if_neg (by omega)]
  unfold IntRect.width IntRect.height
  dsimp only
  rw [Nat.sub_zero, Nat.sub_zero, hcount hw hi, hcount hh hj]

/-- A code block inside a sub-band, clipped to it. -/
theorem intersect_block {cbWidth cbHeight x y : ℕ} (hx : x * cbWidth ≤ width)
    (hy : y * cbHeight ≤ height) :
    intersect (.fromXywh (x * cbWidth) (y * cbHeight) cbWidth cbHeight) (originRect width height) =
      codeBlockAt width height cbWidth cbHeight x y := by
  unfold intersect originRect IntRect.fromXywh codeBlockAt
  dsimp only
  rw [if_neg (by omega), Nat.max_zero, Nat.max_zero]

/-- The code blocks that the decoder makes for a precinct. -/
theorem buildCodeBlocks_eq (hw : 0 < tile.codeBlockWidth) (hh : 0 < tile.codeBlockHeight)
    (hi : i * (q * tile.codeBlockWidth) ≤ width) (hj : j * (t * tile.codeBlockHeight) ≤ height)
    (hx : blocksEnd width (q * tile.codeBlockWidth) tile.codeBlockWidth i ≤ u32Max)
    (hy : blocksEnd height (t * tile.codeBlockHeight) tile.codeBlockHeight j ≤ u32Max)
    (x1 y1 : ℕ) :
    ∃ blocks, buildCodeBlocks tile (originRect width height)
        ⟨⟨i * (q * tile.codeBlockWidth), j * (t * tile.codeBlockHeight), x1, y1⟩,
          blockCount width (q * tile.codeBlockWidth) tile.codeBlockWidth i,
          blockCount height (t * tile.codeBlockHeight) tile.codeBlockHeight j⟩ = .ok blocks ∧
      blocks.map CodeBlock.rect = precinctBlocks width height (q * tile.codeBlockWidth)
        (t * tile.codeBlockHeight) tile.codeBlockWidth tile.codeBlockHeight i j := by
  rw [blocksEnd_eq hw hi] at hx
  rw [blocksEnd_eq hh hj] at hy
  refine ⟨_, buildCodeBlockRows_eq _ _ _ _ _ hx hy, ?_⟩
  have hinside {extent cb q i k : ℕ} (hcb : 0 < cb) (hk : k < blockCount extent (q * cb) cb i) :
      (i * q + k) * cb ≤ extent := by
    rw [blockCount_eq hcb] at hk
    exact ((lt_divCeil_iff hcb).mp (by omega)).le
  unfold precinctBlocks
  rw [List.map_flatMap, cells_eq_range, firstBlock_eq hw, firstBlock_eq hh]
  refine List.flatMap_congr fun l hl => ?_
  rw [List.map_map]
  refine List.map_congr_left fun k hk => ?_
  have hx := hinside hw (List.mem_range.mp hk)
  have hy := hinside hh (List.mem_range.mp hl)
  dsimp only [Function.comp_apply]
  rw [← intersect_block hx hy, Nat.add_mul, Nat.add_mul, Nat.mul_assoc, Nat.mul_assoc]

end

end J2kNative.DecodedBlocks
