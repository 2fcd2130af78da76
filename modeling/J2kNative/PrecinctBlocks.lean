import J2kNative.PacketContents

/-!
# What a precinct holds of a sub-band

Along an axis, precinct `i` takes the code blocks that start inside its span. Both the
encoder, which sends every block to the precinct its position divides to, and the
decoder, which lays out the blocks of every precinct afresh, end with these blocks.
-/
namespace J2kNative.PrecinctBlocks
open Fallible CellGrids TileGeometry TileTree PacketPlan PacketContents

/-! ## One axis -/

/-- First code block of precinct `i` on an axis. -/
def firstBlock (span cb i : ℕ) : ℕ := i * span / cb

/-- Number of code blocks of precinct `i` on an axis of a band. -/
def blockCount (extent span cb i : ℕ) : ℕ := divCeil (min (i * span + span) extent) cb - i * span / cb

section
variable {cb q extent i : ℕ}

theorem firstBlock_eq (hcb : 0 < cb) : firstBlock (q * cb) cb i = i * q := by
  unfold firstBlock
  rw [← Nat.mul_assoc, Nat.mul_div_cancel _ hcb]

theorem blockCount_eq (hcb : 0 < cb) :
    blockCount extent (q * cb) cb i = min (i * q + q) (divCeil extent cb) - i * q := by
  unfold blockCount
  rw [show i * (q * cb) + q * cb = (i * q + q) * cb by ring,
    show divCeil (min ((i * q + q) * cb) extent) cb =
      min (divCeil ((i * q + q) * cb) cb) (divCeil extent cb) from (divCeil_mono hcb).map_min,
    divCeil_mul_right _ hcb, ← Nat.mul_assoc, Nat.mul_div_cancel _ hcb]

theorem blockCount_eq_zero (hcb : 0 < cb) (h : extent ≤ i * (q * cb)) :
    blockCount extent (q * cb) cb i = 0 := by
  rw [blockCount_eq hcb]
  have hle : divCeil extent cb ≤ i * q := by
    refine (divCeil_le_iff hcb).mpr ?_
    rwa [Nat.mul_assoc]
  omega

end

/-! ## Grids of equal content -/

/-- The same columns and rows of blocks, or none on either side. -/
def SameGrid (columns rows columns' rows' : ℕ) : Prop :=
  columns = columns' ∧ rows = rows' ∨ columns * rows = 0 ∧ columns' * rows' = 0

instance (columns rows columns' rows' : ℕ) : Decidable (SameGrid columns rows columns' rows') :=
  inferInstanceAs (Decidable (_ ∨ _))

/-- The code blocks in column `i` and row `j` of the precincts of a band. -/
def precinctBlocks (width height spanX spanY cbWidth cbHeight i j : ℕ) : List IntRect :=
  cells (firstBlock spanX cbWidth i) (blockCount width spanX cbWidth i)
    (firstBlock spanY cbHeight j) (blockCount height spanY cbHeight j)
    (codeBlockAt width height cbWidth cbHeight)

/-! ## Prepared sub-bands -/

/-- A sub-band cut into code blocks row by row. -/
structure Blocked (band : PreparedEncodeSubband) : Prop where
  width_pos : 0 < band.codeBlockWidth
  height_pos : 0 < band.codeBlockHeight
  empty : band.width = 0 ∨ band.height = 0 → band.numCbsX = 0 ∧ band.numCbsY = 0
  numCbsX : ¬ (band.width = 0 ∨ band.height = 0) →
    band.numCbsX = divCeil band.width band.codeBlockWidth
  numCbsY : ¬ (band.width = 0 ∨ band.height = 0) →
    band.numCbsY = divCeil band.height band.codeBlockHeight
  codeBlocks : band.codeBlocks = cells 0 band.numCbsX 0 band.numCbsY
    (codeBlockAt band.width band.height band.codeBlockWidth band.codeBlockHeight)

theorem checkedU32_ok {value v : ℕ} {what : String} (h : checkedU32 value what = .ok v) :
    v = value := by
  unfold checkedU32 at h
  split_ifs at h
  cases h
  rfl

theorem prepareSubband_ok {width height cbWidth cbHeight : ℕ} {subBandType : SubBandType}
    (hw : 0 < cbWidth) (hh : 0 < cbHeight) {band : PreparedEncodeSubband}
    (h : prepareSubband width height cbWidth cbHeight subBandType = .ok band) :
    Blocked band ∧ band.width = width ∧ band.height = height ∧ band.codeBlockWidth = cbWidth ∧
      band.codeBlockHeight = cbHeight ∧ band.subBandType = subBandType := by
  unfold prepareSubband at h
  split_ifs at h with hempty
  · cases h
    refine ⟨⟨hw, hh, fun _ => ⟨rfl, rfl⟩, fun hne => absurd hempty hne,
      fun hne => absurd hempty hne, rfl⟩, rfl, rfl, rfl, rfl, rfl⟩
  · obtain ⟨count, -, h⟩ := bind_eq_ok.mp h
    cases h
    refine ⟨⟨hw, hh, fun hne => absurd hne hempty, fun _ => rfl, fun _ => rfl, ?_⟩, rfl, rfl, rfl,
      rfl, rfl⟩
    dsimp only
    rw [cells, ← List.range_eq_range', ← List.range_eq_range']

section
variable {band : PreparedEncodeSubband}

/-- The columns of a band cut into blocks, whether or not it is empty. -/
theorem Blocked.sameGrid (hb : Blocked band) :
    SameGrid band.numCbsX band.numCbsY (divCeil band.width band.codeBlockWidth)
      (divCeil band.height band.codeBlockHeight) := by
  by_cases hempty : band.width = 0 ∨ band.height = 0
  · have hzero {d : ℕ} (hd : 0 < d) : divCeil 0 d = 0 :=
      Nat.le_zero.mp ((divCeil_le_iff hd).mpr (Nat.zero_le _))
    obtain ⟨hx, hy⟩ := hb.empty hempty
    refine .inr ⟨by rw [hx, Nat.zero_mul], ?_⟩
    rcases hempty with h | h
    · rw [h, hzero hb.width_pos, Nat.zero_mul]
    · rw [h, hzero hb.height_pos, Nat.mul_zero]
  · exact .inl ⟨hb.numCbsX hempty, hb.numCbsY hempty⟩

/-- The blocks of a band, by its extent alone. -/
theorem Blocked.codeBlocks_eq (hb : Blocked band) : band.codeBlocks =
    cells 0 (divCeil band.width band.codeBlockWidth) 0 (divCeil band.height band.codeBlockHeight)
      (codeBlockAt band.width band.height band.codeBlockWidth band.codeBlockHeight) := by
  rw [hb.codeBlocks]
  obtain ⟨hx, hy⟩ | ⟨h, h'⟩ := hb.sameGrid
  · rw [hx, hy]
  · have hnil {nx ny : ℕ} (f : ℕ → ℕ → IntRect) (h : nx * ny = 0) : cells 0 nx 0 ny f = [] := by
      refine List.eq_nil_of_length_eq_zero ?_
      rw [length_cells, h]
    rw [hnil _ h, hnil _ h']

end

/-! ## Precincts of a sub-band -/

/-- The spacing of a resolution's precincts in its sub-bands. -/
def bandExponent (resolution exponent : ℕ) : ℕ := if resolution > 0 then exponent - 1 else exponent

/-- What a packet's share of a sub-band is: its type, grid and blocks. -/
structure ShareOf (band : PreparedEncodeSubband) (spanX spanY i j : ℕ)
    (share : PreparedEncodeSubband) : Prop where
  subBandType : share.subBandType = band.subBandType
  grid : SameGrid share.numCbsX share.numCbsY
    (blockCount band.width spanX band.codeBlockWidth i)
    (blockCount band.height spanY band.codeBlockHeight j)
  codeBlocks : share.codeBlocks = precinctBlocks band.width band.height spanX spanY
    band.codeBlockWidth band.codeBlockHeight i j

theorem subbandExponent_ok {resolution exponent e : ℕ}
    (h : subbandExponent resolution exponent = .ok e) : e = bandExponent resolution exponent := by
  unfold subbandExponent at h
  unfold bandExponent
  split_ifs at h ⊢ <;> cases h <;> rfl

theorem subbandPrecinctGrid_ok {band : PreparedEncodeSubband} (hb : Blocked band)
    {resolution ex ey : ℕ} {resolutionGrid : ResolutionPrecinctGrid} {grid : SubbandPrecinctGrid}
    (h : subbandPrecinctGrid band resolution ex ey resolutionGrid = .ok grid) :
    grid = ⟨resolutionGrid.columns, resolutionGrid.rows, 2 ^ bandExponent resolution ex,
        2 ^ bandExponent resolution ey⟩ ∧
      band.codeBlockWidth ≤ grid.horizontalSpan ∧ band.codeBlockHeight ≤ grid.verticalSpan := by
  unfold subbandPrecinctGrid at h
  obtain ⟨e, he, h⟩ := bind_eq_ok.mp h
  obtain ⟨e', he', h⟩ := bind_eq_ok.mp h
  obtain ⟨spanX, hspanX, h⟩ := bind_eq_ok.mp h
  obtain ⟨spanY, hspanY, h⟩ := bind_eq_ok.mp h
  split_ifs at h with hspan
  cases h
  have hw := hb.width_pos
  have hh := hb.height_pos
  refine ⟨?_, by dsimp only; omega, by dsimp only; omega⟩
  rw [pow2U32_ok hspanX, pow2U32_ok hspanY, subbandExponent_ok he, subbandExponent_ok he']

/-- The encoder counts the blocks of a precinct by its rectangle. -/
theorem precinctSubbandGeometry_ok {band : PreparedEncodeSubband} (hb : Blocked band)
    {grid : SubbandPrecinctGrid} {q t i j : ℕ} (hq0 : 0 < q) (ht0 : 0 < t)
    (hq : grid.horizontalSpan = q * band.codeBlockWidth)
    (ht : grid.verticalSpan = t * band.codeBlockHeight) {g : PrecinctSubbandGeometry}
    (h : precinctSubbandGeometry band grid i j = .ok g) :
    SameGrid g.blockColumns g.blockRows
      (blockCount band.width grid.horizontalSpan band.codeBlockWidth i)
      (blockCount band.height grid.verticalSpan band.codeBlockHeight j) := by
  have hw := hb.width_pos
  have hh := hb.height_pos
  have hnone {c r : ℕ} (hempty : c = 0 ∨ r = 0) : SameGrid emptyPrecinctGeometry.blockColumns
      emptyPrecinctGeometry.blockRows c r := by
    refine .inr ⟨rfl, ?_⟩
    rcases hempty with rfl | rfl
    · rw [Nat.zero_mul]
    · rw [Nat.mul_zero]
  rw [hq, ht]
  unfold precinctSubbandGeometry at h
  rw [hq, ht] at h
  by_cases hzero : band.width = 0 ∨ band.height = 0 ∨ band.codeBlockWidth = 0 ∨
      band.codeBlockHeight = 0
  · rw [if_pos hzero] at h
    cases h
    refine hnone ?_
    rcases hzero with h0 | h0 | h0 | h0
    · exact .inl (blockCount_eq_zero hw (by omega))
    · exact .inr (blockCount_eq_zero hh (by omega))
    · omega
    · omega
  · rw [if_neg hzero] at h
    obtain ⟨x, hx, h⟩ := bind_eq_ok.mp h
    obtain ⟨y, hy, h⟩ := bind_eq_ok.mp h
    obtain ⟨x', hx', h⟩ := bind_eq_ok.mp h
    obtain ⟨y', hy', h⟩ := bind_eq_ok.mp h
    cases checkedU32_ok hx
    cases checkedU32_ok hy
    cases checkedU32_ok hx'
    cases checkedU32_ok hy'
    dsimp only at h
    by_cases hout : min (i * (q * band.codeBlockWidth)) band.width ≥
          min (i * (q * band.codeBlockWidth) + q * band.codeBlockWidth) band.width ∨
        min (j * (t * band.codeBlockHeight)) band.height ≥
          min (j * (t * band.codeBlockHeight) + t * band.codeBlockHeight) band.height
    · rw [if_pos hout] at h
      cases h
      refine hnone (hout.imp (fun h0 => ?_) fun h0 => ?_)
      · have := Nat.mul_pos hq0 hw
        exact blockCount_eq_zero hw (by omega)
      · have := Nat.mul_pos ht0 hh
        exact blockCount_eq_zero hh (by omega)
    · rw [if_neg hout] at h
      obtain ⟨a, ha, h⟩ := bind_eq_ok.mp h
      obtain ⟨b, hb, h⟩ := bind_eq_ok.mp h
      obtain ⟨a', ha', h⟩ := bind_eq_ok.mp h
      obtain ⟨b', hb', h⟩ := bind_eq_ok.mp h
      obtain ⟨c, hc, h⟩ := bind_eq_ok.mp h
      obtain ⟨d, hd, h⟩ := bind_eq_ok.mp h
      cases checkedU32_ok ha
      cases checkedU32_ok hb
      cases checkedU32_ok ha'
      cases checkedU32_ok hb'
      unfold checkedSub at hc hd
      split_ifs at hc hd
      cases hc
      cases hd
      cases h
      have hstartX : min (i * (q * band.codeBlockWidth)) band.width =
          i * (q * band.codeBlockWidth) := by omega
      have hstartY : min (j * (t * band.codeBlockHeight)) band.height =
          j * (t * band.codeBlockHeight) := by omega
      refine .inl ⟨?_, ?_⟩
      · dsimp only
        unfold blockCount
        rw [← Nat.sub_mul, Nat.mul_div_cancel _ hw, hstartX]
      · dsimp only
        unfold blockCount
        rw [← Nat.sub_mul, Nat.mul_div_cancel _ hh, hstartY]

/-- The encoder forms the far corner of a precinct in `u32`. -/
theorem precinctSubbandGeometry_span {band : PreparedEncodeSubband} (hb : Blocked band)
    (hw : band.width ≠ 0) (hh : band.height ≠ 0) {grid : SubbandPrecinctGrid} {i j : ℕ}
    {g : PrecinctSubbandGeometry} (h : precinctSubbandGeometry band grid i j = .ok g) :
    i * grid.horizontalSpan + grid.horizontalSpan ≤ u32Max ∧
      j * grid.verticalSpan + grid.verticalSpan ≤ u32Max := by
  have hle {value v : ℕ} {what : String} (h : checkedU32 value what = .ok v) : value ≤ u32Max := by
    unfold checkedU32 at h
    split_ifs at h with hle
    exact hle
  have hcw := hb.width_pos
  have hch := hb.height_pos
  unfold precinctSubbandGeometry at h
  rw [if_neg (by omega)] at h
  obtain ⟨x, hx, h⟩ := bind_eq_ok.mp h
  obtain ⟨y, hy, h⟩ := bind_eq_ok.mp h
  obtain ⟨x', hx', h⟩ := bind_eq_ok.mp h
  obtain ⟨y', hy', -⟩ := bind_eq_ok.mp h
  cases checkedU32_ok hx
  cases checkedU32_ok hy
  exact ⟨hle hx', hle hy'⟩

/-! ## Moving the blocks -/

/-- Column and row of the precinct that block `i` of a band moves to. -/
def blockColumn (band : PreparedEncodeSubband) (grid : SubbandPrecinctGrid) (i : ℕ) : ℕ :=
  i % band.numCbsX * band.codeBlockWidth / grid.horizontalSpan

def blockRow (band : PreparedEncodeSubband) (grid : SubbandPrecinctGrid) (i : ℕ) : ℕ :=
  i / band.numCbsX * band.codeBlockHeight / grid.verticalSpan

/-- The packet that block `i` of a band moves to. -/
def blockPrecinct (band : PreparedEncodeSubband) (grid : SubbandPrecinctGrid) (i : ℕ) : ℕ :=
  blockRow band grid i * grid.columns + blockColumn band grid i

theorem precinctIndexForBlock_ok {band : PreparedEncodeSubband} {grid : SubbandPrecinctGrid}
    {i k : ℕ} (h : precinctIndexForBlock i band grid = .ok k) :
    k = blockPrecinct band grid i ∧ blockColumn band grid i < grid.columns ∧
      blockRow band grid i < grid.rows := by
  unfold precinctIndexForBlock at h
  split_ifs at h with h0
  obtain ⟨i', hi, h⟩ := bind_eq_ok.mp h
  cases checkedU32_ok hi
  dsimp only at h
  split_ifs at h with hrow
  obtain ⟨x, hx, h⟩ := bind_eq_ok.mp h
  obtain ⟨y, hy, h⟩ := bind_eq_ok.mp h
  cases checkedU32_ok hx
  cases checkedU32_ok hy
  split_ifs at h with hout
  cases h
  push Not at hout
  exact ⟨rfl, hout.1, hout.2⟩

/-- A packet with one more sub-band, which holds the given blocks. -/
def addBand (packet : PreparedPacket) (share : PreparedEncodeSubband) (blocks : List IntRect) :
    PreparedPacket :=
  { packet with subbands := packet.subbands ++ [{ share with codeBlocks := blocks }] }

theorem modify_length_append {β : Type*} (l : List β) (b : β) (f : β → β) :
    (l ++ [b]).modify l.length f = l ++ [f b] := by
  induction l with
  | nil => rfl
  | cons a l ih => rw [List.cons_append, List.length_cons, List.modify_succ_cons, ih, List.cons_append]

theorem addBand_push (packet : PreparedPacket) (share : PreparedEncodeSubband)
    (blocks : List IntRect) (block : IntRect) :
    (addBand packet share blocks).push packet.subbands.length block =
      addBand packet share (blocks ++ [block]) := by
  unfold addBand PreparedPacket.push
  dsimp only
  rw [modify_length_append]

theorem set_map_range {β : Type*} (f : ℕ → β) (n k : ℕ) (v : β) :
    ((List.range n).map f).set k v = (List.range n).map fun p => if p = k then v else f p := by
  refine List.ext_getElem (by simp) fun i hi _ => ?_
  rw [List.getElem_set, List.getElem_map, List.getElem_map, List.getElem_range]
  by_cases h : k = i
  · rw [if_pos h, if_pos h.symm]
  · rw [if_neg h, if_neg (Ne.symm h)]

/-- The blocks arrive in the packets of their precincts, in order. -/
theorem moveCodeBlocks_ok {band : PreparedEncodeSubband} {grid : SubbandPrecinctGrid}
    {packet : ℕ → PreparedPacket} {share : ℕ → PreparedEncodeSubband} {n k : ℕ}
    (hk : ∀ p, (packet p).subbands.length = k) (block : ℕ → IntRect) (N : ℕ)
    {out : List PreparedPacket}
    (h : moveCodeBlocksToPrecincts ((List.range N).map block) band grid k
      ((List.range n).map fun p => addBand (packet p) (share p) []) = .ok out) :
    (∀ i < N, blockColumn band grid i < grid.columns ∧ blockRow band grid i < grid.rows) ∧
      out = (List.range n).map fun p => addBand (packet p) (share p)
        (((List.range N).filter fun i => blockPrecinct band grid i = p).map block) := by
  have hzip : ((List.range N).map block).zipIdx = (List.range N).map fun i => (block i, i) := by
    refine List.ext_getElem (by simp) fun i hi _ => ?_
    simp
  unfold moveCodeBlocksToPrecincts at h
  rw [hzip, List.foldlM_map] at h
  clear hzip
  induction N generalizing out with
  | zero =>
      cases h
      exact ⟨nofun, rfl⟩
  | succ N ih =>
      rw [List.range_succ, List.foldlM_append] at h
      obtain ⟨out', hout', h⟩ := bind_eq_ok.mp h
      obtain ⟨hall, rfl⟩ := ih hout'
      rw [List.foldlM_cons] at h
      obtain ⟨out'', hstep, h⟩ := bind_eq_ok.mp h
      cases h
      unfold moveCodeBlock at hstep
      obtain ⟨p, hp, hstep⟩ := bind_eq_ok.mp hstep
      obtain ⟨rfl, hcolumn, hrow⟩ := precinctIndexForBlock_ok hp
      refine ⟨fun i hi => ?_, ?_⟩
      · rcases Nat.lt_succ_iff_lt_or_eq.mp hi with hi | rfl
        · exact hall i hi
        · exact ⟨hcolumn, hrow⟩
      · dsimp only at hstep
        split at hstep
        · rename_i target htarget
          split_ifs at hstep
          cases hstep
          rw [List.getElem?_map, Option.map_eq_some_iff] at htarget
          obtain ⟨p, hp, rfl⟩ := htarget
          obtain rfl : blockPrecinct band grid N = p := by
            rw [List.getElem?_eq_some_iff] at hp
            obtain ⟨hlt, hp⟩ := hp
            simpa using hp
          rw [set_map_range, List.range_succ]
          refine List.map_congr_left fun p _ => ?_
          rw [List.filter_append, List.map_append]
          split_ifs with heq
          · subst heq
            rw [← hk (blockPrecinct band grid N), addBand_push]
            simp
          · simp [Ne.symm heq]
        · cases hstep

/-! ## Distribution of a band -/

section
variable {band : PreparedEncodeSubband} {grid : SubbandPrecinctGrid} {q t : ℕ}

/-- The blocks that go to one precinct are the precinct's. -/
theorem filter_blocks (hb : Blocked band) (hq0 : 0 < q) (ht0 : 0 < t)
    (hq : grid.horizontalSpan = q * band.codeBlockWidth)
    (ht : grid.verticalSpan = t * band.codeBlockHeight)
    (hin : ∀ i < band.numCbsX * band.numCbsY, blockColumn band grid i < grid.columns) {p : ℕ}
    (hcolumns : 0 < grid.columns) :
    ((List.range (band.numCbsX * band.numCbsY)).filter fun i => blockPrecinct band grid i = p).map
        (fun i => codeBlockAt band.width band.height band.codeBlockWidth band.codeBlockHeight
          (i % band.numCbsX) (i / band.numCbsX)) =
      precinctBlocks band.width band.height grid.horizontalSpan grid.verticalSpan
        band.codeBlockWidth band.codeBlockHeight (p % grid.columns) (p / grid.columns) := by
  have hcolumn (i : ℕ) : blockColumn band grid i = i % band.numCbsX / q := by
    unfold blockColumn
    rw [hq, Nat.mul_div_mul_right _ _ hb.width_pos]
  have hrow (i : ℕ) : blockRow band grid i = i / band.numCbsX / t := by
    unfold blockRow
    rw [ht, Nat.mul_div_mul_right _ _ hb.height_pos]
  have hfilter : (List.range (band.numCbsX * band.numCbsY)).filter
      (fun i => blockPrecinct band grid i = p) =
      (List.range (band.numCbsX * band.numCbsY)).filter fun i =>
        i % band.numCbsX / q = p % grid.columns ∧ i / band.numCbsX / t = p / grid.columns := by
    refine List.filter_congr fun i hi => ?_
    have hlt := hin i (List.mem_range.mp hi)
    rw [hcolumn] at hlt
    rw [decide_eq_decide, blockPrecinct, hcolumn, hrow]
    constructor
    · rintro rfl
      rw [Nat.mul_comm (_ / t), Nat.mul_add_mod, Nat.mod_eq_of_lt hlt, Nat.mul_add_div hcolumns,
        Nat.div_eq_of_lt hlt, Nat.add_zero]
      exact ⟨rfl, rfl⟩
    · rintro ⟨h1, h2⟩
      rw [h1, h2]
      exact Nat.div_add_mod' p grid.columns
  have hcells : ((List.range (band.numCbsX * band.numCbsY)).filter fun i =>
        i % band.numCbsX / q = p % grid.columns ∧ i / band.numCbsX / t = p / grid.columns).map
        (fun i => (i % band.numCbsX, i / band.numCbsX)) =
      (cells 0 band.numCbsX 0 band.numCbsY Prod.mk).filter fun c =>
        c.1 / q = p % grid.columns ∧ c.2 / t = p / grid.columns := by
    rw [cells_eq_map_range, List.filter_map]
    rfl
  have hmap := congrArg (List.map fun c : ℕ × ℕ =>
    codeBlockAt band.width band.height band.codeBlockWidth band.codeBlockHeight c.1 c.2) hcells
  rw [filter_cells hq0 ht0, map_cells, List.map_map] at hmap
  rw [hfilter]
  refine hmap.trans ?_
  unfold precinctBlocks
  rw [hq, ht, firstBlock_eq hb.width_pos, firstBlock_eq hb.height_pos,
    blockCount_eq hb.width_pos, blockCount_eq hb.height_pos]
  obtain ⟨hx, hy⟩ | ⟨h, h'⟩ := hb.sameGrid
  · rw [hx, hy]
  · -- one of the two numbers of blocks is zero on both sides
    have hnil (a b c d x y : ℕ) (f : ℕ → ℕ → IntRect) (h : a * b = 0) :
        cells x (min c a - x) y (min d b - y) f = [] := by
      refine List.eq_nil_of_length_eq_zero ?_
      rw [length_cells]
      rcases Nat.mul_eq_zero.mp h with rfl | rfl
      · rw [Nat.min_zero, Nat.zero_sub, Nat.zero_mul]
      · rw [Nat.min_zero, Nat.zero_sub, Nat.mul_zero]
    rw [hnil _ _ _ _ _ _ _ h, hnil _ _ _ _ _ _ _ h']

/-- Every precinct gets its share of the band, no block is lost or sent twice, and no
precinct of a band with samples ends outside `u32`. -/
theorem distributeOwnedSubband_ok (hb : Blocked band) {a b resolution ex ey n k : ℕ}
    (ha : band.codeBlockWidth = 2 ^ a) (hb' : band.codeBlockHeight = 2 ^ b)
    {resolutionGrid : ResolutionPrecinctGrid} (hcolumns : 0 < resolutionGrid.columns)
    (hn : n = resolutionGrid.columns * resolutionGrid.rows) (hn0 : 0 < n)
    {packet : ℕ → PreparedPacket} (hk : ∀ p, (packet p).subbands.length = k)
    {out : List PreparedPacket}
    (h : distributeOwnedSubband resolution ex ey resolutionGrid ((List.range n).map packet) band =
      .ok out) :
    ∃ share : ℕ → PreparedEncodeSubband,
      out = (List.range n).map (fun p =>
        { packet p with subbands := (packet p).subbands ++ [share p] }) ∧
      (∀ p < n, ShareOf band (2 ^ bandExponent resolution ex) (2 ^ bandExponent resolution ey)
        (p % resolutionGrid.columns) (p / resolutionGrid.columns) (share p)) ∧
      ((List.range n).flatMap fun p => (share p).codeBlocks).Perm band.codeBlocks ∧
      (band.width ≠ 0 → band.height ≠ 0 → ∀ p < n,
        p % resolutionGrid.columns * 2 ^ bandExponent resolution ex + 2 ^ bandExponent resolution ex ≤
          u32Max ∧
        p / resolutionGrid.columns * 2 ^ bandExponent resolution ey + 2 ^ bandExponent resolution ey ≤
          u32Max) := by
  unfold distributeOwnedSubband at h
  obtain ⟨grid, hgrid, h⟩ := bind_eq_ok.mp h
  obtain ⟨hgrid, hspanX, hspanY⟩ := subbandPrecinctGrid_ok hb hgrid
  have hspanX' : grid.horizontalSpan = 2 ^ bandExponent resolution ex := by rw [hgrid]
  have hspanY' : grid.verticalSpan = 2 ^ bandExponent resolution ey := by rw [hgrid]
  have hcolumns' : grid.columns = resolutionGrid.columns := by rw [hgrid]
  have hrows' : grid.rows = resolutionGrid.rows := by rw [hgrid]
  clear hgrid
  have hmultiple {m e : ℕ} (hle : 2 ^ m ≤ 2 ^ e) : 2 ^ e = 2 ^ (e - m) * 2 ^ m := by
    rw [← pow_add, Nat.sub_add_cancel ((Nat.pow_le_pow_iff_right (by decide)).mp hle)]
  have hq : grid.horizontalSpan =
      2 ^ (bandExponent resolution ex - a) * band.codeBlockWidth := by
    rw [hspanX', ha]
    rw [hspanX', ha] at hspanX
    exact hmultiple hspanX
  have ht : grid.verticalSpan =
      2 ^ (bandExponent resolution ey - b) * band.codeBlockHeight := by
    rw [hspanY', hb']
    rw [hspanY', hb'] at hspanY
    exact hmultiple hspanY
  have hq0 : 0 < 2 ^ (bandExponent resolution ex - a) := Nat.two_pow_pos _
  have ht0 : 0 < 2 ^ (bandExponent resolution ey - b) := Nat.two_pow_pos _
  have hindex : (((List.range n).map packet).head?.map fun p => p.subbands.length).getD 0 = k := by
    obtain ⟨m, rfl⟩ := Nat.exists_eq_succ_of_ne_zero hn0.ne'
    simp [List.range_succ_eq_map, hk]
  rw [hindex] at h
  obtain ⟨⟨packets, count⟩, happend, h⟩ := bind_eq_ok.mp h
  dsimp only at h
  split_ifs at h
  unfold appendSplitSubbands at happend
  obtain ⟨split, hsplit, happend⟩ := bind_eq_ok.mp happend
  cases happend
  have hzip : ((List.range n).map packet).zipIdx = (List.range n).map fun p => (packet p, p) := by
    refine List.ext_getElem (by simp) fun i hi _ => ?_
    simp
  rw [hzip, List.mapM_map] at hsplit
  obtain ⟨g, rfl, hg⟩ := mapM_range_ok hsplit
  have hgeometry (p : ℕ) (hp : p < n) : ∃ geometry,
      precinctSubbandGeometry band grid (p % resolutionGrid.columns) (p / resolutionGrid.columns) =
        .ok geometry ∧
      (g p).1 = addBand (packet p) (splitSubband band geometry) [] := by
    have hrun := hg p hp
    obtain ⟨p', hp', hrun⟩ := bind_eq_ok.mp hrun
    cases checkedU32_ok hp'
    obtain ⟨geometry, hgeometry, hrun⟩ := bind_eq_ok.mp hrun
    refine ⟨geometry, hgeometry, ?_⟩
    rw [← Except.ok.inj hrun]
    rfl
  choose! geometry hgeometry hpacket using hgeometry
  have hpackets : ((List.range n).map g).map Prod.fst =
      (List.range n).map fun p => addBand (packet p) (splitSubband band (geometry p)) [] := by
    rw [List.map_map]
    exact List.map_congr_left fun p hp => hpacket p (List.mem_range.mp hp)
  have hblocks : band.codeBlocks = (List.range (band.numCbsX * band.numCbsY)).map fun i =>
      codeBlockAt band.width band.height band.codeBlockWidth band.codeBlockHeight
        (i % band.numCbsX) (i / band.numCbsX) := by
    rw [hb.codeBlocks, cells_eq_map_range]
  rw [hpackets, hblocks] at h
  obtain ⟨hin, rfl⟩ := moveCodeBlocks_ok hk _ _ h
  refine ⟨fun p => { splitSubband band (geometry p) with
    codeBlocks := ((List.range (band.numCbsX * band.numCbsY)).filter fun i =>
      blockPrecinct band grid i = p).map fun i =>
        codeBlockAt band.width band.height band.codeBlockWidth band.codeBlockHeight
          (i % band.numCbsX) (i / band.numCbsX) }, rfl, fun p hp => ⟨rfl, ?_, ?_⟩, ?_,
    fun hw hh p hp => ?_⟩
  · rw [← hspanX', ← hspanY']
    exact precinctSubbandGeometry_ok hb hq0 ht0 hq ht (hgeometry p hp)
  · rw [← hspanX', ← hspanY', ← hcolumns']
    exact filter_blocks hb hq0 ht0 hq ht (fun i hi => (hin i hi).1) (by rwa [hcolumns'])
  · rw [hblocks]
    dsimp only
    rw [← List.map_flatMap]
    refine (fibers_perm List.nodup_range fun i hi => ?_).map _
    obtain ⟨hcolumn, hrow⟩ := hin i (List.mem_range.mp hi)
    calc blockPrecinct band grid i < blockRow band grid i * grid.columns + grid.columns :=
          Nat.add_lt_add_left hcolumn _
      _ = (blockRow band grid i + 1) * grid.columns := by ring
      _ ≤ grid.rows * grid.columns := Nat.mul_le_mul_right _ hrow
      _ = n := by rw [hrows', hcolumns', hn, Nat.mul_comm]
  · rw [← hspanX', ← hspanY']
    exact precinctSubbandGeometry_span hb hw hh (hgeometry p hp)

end

end J2kNative.PrecinctBlocks
