import J2kNative.DecodedBlocks
import Mathlib.Data.List.Perm.Basic

/-!
# Packet sets of encoder and decoder compared

For a request at the origin both sides cut the same sub-bands into the same code blocks.
They form the same packets exactly when the precincts that the encoder counts for the
whole image are those of every component, where an empty list of exponents gives the
encoder one precinct and the decoder precincts of the largest size, and when the
decoder's steps between precincts stay inside `u32`.
-/
namespace J2kNative.PacketSets
open Fallible CellGrids TileGeometry TileTree PacketProgression CountingProgressions
open PositionProgressions KeyedLists PacketPlan ProgressionAgreement
open ForwardDwt DwtRoundTrip CountedLoops PacketContents PrecinctBlocks DecodedBlocks

/-! ## Extents of sub-bands -/

/-- Samples of a sub-band of resolution `res` on an axis of `extent` samples after `n`
levels. -/
def bandExtent (n res : ℕ) (high : Bool) (extent : ℕ) : ℕ :=
  if res = 0 then lowExtent^[n] extent
  else if high then lowExtent^[n - res] extent / 2 else lowExtent (lowExtent^[n - res] extent)

theorem divCeil_sub {v d : ℕ} (hd : 0 < d) : divCeil (v - d) d = divCeil v d - 1 := by
  have h (q : ℕ) : divCeil (v - d) d ≤ q ↔ divCeil v d - 1 ≤ q := by
    rw [divCeil_le_iff hd, Nat.sub_le_iff_le_add, Nat.sub_le_iff_le_add, divCeil_le_iff hd,
      Nat.add_mul, Nat.one_mul]
  exact Nat.le_antisymm ((h _).mpr le_rfl) ((h _).mp le_rfl)

theorem subbandCoordinate_low {v : ℕ} (hv : v ≤ 2 ^ 32) (d : ℕ) :
    subbandCoordinate v d false = lowExtent^[d] v := by
  unfold subbandCoordinate
  rw [if_pos (by simp), iterate_lowExtent_eq hv]

theorem subbandCoordinate_high {v d : ℕ} (hv : v ≤ 2 ^ 32) (hd : d < 32) :
    subbandCoordinate v (d + 1) true = lowExtent^[d] v / 2 := by
  unfold subbandCoordinate
  dsimp only
  rw [if_neg (by simp), if_neg (by omega), Nat.add_sub_cancel, Nat.one_shiftLeft,
    ceilDiv_eq _ ((Nat.sub_le v _).trans hv), iterate_lowExtent_eq hv, ceilDiv_eq _ hv,
    divCeil_pow_succ, divCeil_sub (Nat.two_pow_pos d), InverseDwt.divCeil_two]
  omega

theorem subbandCoordinate_zero {d : ℕ} {high : Bool} : subbandCoordinate 0 d high = 0 := by
  have hzero : ceilDivByPowerOfTwo 0 d = 0 := by
    rw [ceilDiv_eq d (Nat.zero_le _)]
    exact Nat.le_zero.mp ((divCeil_le_iff (Nat.two_pow_pos d)).mpr (Nat.zero_le _))
  unfold subbandCoordinate
  dsimp only
  rw [Nat.zero_sub]
  split_ifs <;> exact hzero

theorem subbandCoordinate_band {n res v : ℕ} (hn : n ≤ 32) (hres : res < n + 1) (hv : v ≤ 2 ^ 32)
    {high : Bool} (hhigh : res = 0 → high = false) :
    subbandCoordinate v (if res = 0 then n else n - (res - 1)) high = bandExtent n res high v := by
  unfold bandExtent
  by_cases h0 : res = 0
  · rw [if_pos h0, if_pos h0, hhigh h0, subbandCoordinate_low hv]
  · rw [if_neg h0, if_neg h0, show n - (res - 1) = n - res + 1 by omega]
    cases high with
    | false =>
        rw [subbandCoordinate_low hv, Function.iterate_succ_apply']
        rfl
    | true => exact subbandCoordinate_high hv (by omega)

/-- A high-pass axis of a sub-band. -/
def isHighX (t : SubBandType) : Bool := t = .highLow ∨ t = .highHigh

def isHighY (t : SubBandType) : Bool := t = .lowHigh ∨ t = .highHigh

section
variable {r : EncodeRequest} {c res : ℕ}

def componentWidth (r : EncodeRequest) (c : ℕ) : ℕ :=
  divCeil r.width (r.componentSampling.getD c (1, 1)).1

def componentHeight (r : EncodeRequest) (c : ℕ) : ℕ :=
  divCeil r.height (r.componentSampling.getD c (1, 1)).2

theorem getD_sampling (hc : c < r.componentSampling.length) :
    r.componentSampling.getD c (1, 1) = r.componentSampling[c] := by
  rw [List.getD_eq_getElem?_getD, List.getElem?_eq_getElem hc, Option.getD_some]

theorem componentWidth_le (h : Accepted r) (hc : c < r.componentSampling.length) :
    componentWidth r c ≤ 2 ^ 32 := by
  unfold componentWidth
  rw [getD_sampling hc]
  exact (divCeil_le (h.sampling _ (List.getElem_mem hc)).1).trans r.width_lt.le

theorem componentHeight_le (h : Accepted r) (hc : c < r.componentSampling.length) :
    componentHeight r c ≤ 2 ^ 32 := by
  unfold componentHeight
  rw [getD_sampling hc]
  exact (divCeil_le (h.sampling _ (List.getElem_mem hc)).2).trans r.height_lt.le

/-- The decoder's resolution has the extent of the transform's plane at its level. -/
theorem resolutionTile_rect_eq (h : Accepted r) (hc : c < r.componentSampling.length) (res : ℕ) :
    (resolutionTile r c res).rect =
      originRect (lowExtent^[r.numDecompositionLevels - res] (componentWidth r c))
        (lowExtent^[r.numDecompositionLevels - res] (componentHeight r c)) := by
  rw [resolutionTile_rect h hc, iterate_lowExtent_eq (componentWidth_le h hc),
    iterate_lowExtent_eq (componentHeight_le h hc)]
  unfold componentWidth componentHeight
  rw [getD_sampling hc]
  rfl

/-- The decoder's component of a request. -/
theorem componentTile_rect (h : Accepted r) (hc : c < r.componentSampling.length) (res : ℕ) :
    (resolutionTile r c res).componentTile.rect =
      originRect (componentWidth r c) (componentHeight r c) := by
  obtain ⟨hdx, hdy⟩ := h.sampling _ (List.getElem_mem hc)
  have hzero {d : ℕ} (hd : 0 < d) : divCeil 0 d = 0 :=
    Nat.le_zero.mp ((divCeil_le_iff hd).mpr (by omega))
  unfold resolutionTile
  rw [componentInfo_getD hc, decoderTile_rect]
  unfold componentWidth componentHeight
  rw [getD_sampling hc]
  unfold ResolutionTile.new
  dsimp only
  rw [ComponentTile.new_rect]
  dsimp only
  rw [hzero hdx, hzero hdy]
  rfl

theorem resolutionTile_levels (hc : c < r.componentSampling.length) (res : ℕ) :
    (resolutionTile r c res).componentTile.componentInfo.parameters = codParameters r := by
  unfold resolutionTile
  rw [componentInfo_getD hc]
  rfl

theorem decompositionLevel_eq (hc : c < r.componentSampling.length) (res : ℕ) :
    (resolutionTile r c res).decompositionLevel =
      if res = 0 then r.numDecompositionLevels else r.numDecompositionLevels - (res - 1) := by
  unfold resolutionTile
  rw [componentInfo_getD hc]
  rfl

theorem mem_subBandTypes {t : SubBandType} (ht : t ∈ subBandTypes res) :
    (res = 0 → isHighX t = false) ∧ (res = 0 → isHighY t = false) := by
  unfold subBandTypes at ht
  constructor
  · intro h0
    rw [if_pos h0, List.mem_singleton] at ht
    subst ht
    rfl
  · intro h0
    rw [if_pos h0, List.mem_singleton] at ht
    subst ht
    rfl

/-- The decoder's sub-bands have the extents of the transform's. -/
theorem subBandRect_eq (h : Accepted r) (hc : c < r.componentSampling.length)
    (hres : res < r.numDecompositionLevels + 1) {t : SubBandType} (ht : t ∈ subBandTypes res) :
    (resolutionTile r c res).subBandRect t =
      originRect (bandExtent r.numDecompositionLevels res (isHighX t) (componentWidth r c))
        (bandExtent r.numDecompositionLevels res (isHighY t) (componentHeight r c)) := by
  obtain ⟨hX, hY⟩ := mem_subBandTypes ht
  unfold ResolutionTile.subBandRect
  dsimp only
  rw [componentTile_rect h hc, decompositionLevel_eq hc]
  unfold originRect
  dsimp only
  rw [subbandCoordinate_zero, subbandCoordinate_zero]
  congr 1
  · exact subbandCoordinate_band r.levels_le hres (componentWidth_le h hc) hX
  · exact subbandCoordinate_band r.levels_le hres (componentHeight_le h hc) hY

end

/-! ## The encoder's sub-bands -/

/-- Sub-band `t` of a component's resolution, cut into code blocks. -/
structure BandOf (r : EncodeRequest) (c res : ℕ) (t : SubBandType)
    (band : PreparedEncodeSubband) : Prop where
  blocked : Blocked band
  subBandType : band.subBandType = t
  width : band.width =
    bandExtent r.numDecompositionLevels res (isHighX t) (componentWidth r c)
  height : band.height =
    bandExtent r.numDecompositionLevels res (isHighY t) (componentHeight r c)
  codeBlockWidth : band.codeBlockWidth = 2 ^ (r.codeBlockWidthExp + 2)
  codeBlockHeight : band.codeBlockHeight = 2 ^ (r.codeBlockHeightExp + 2)

section
variable {r : EncodeRequest}

theorem prepareDwtBand_ok {c res : ℕ} {rect : PackedSubbandRect} {t : SubBandType}
    {band : PreparedEncodeSubband}
    (hw : rect.width = bandExtent r.numDecompositionLevels res (isHighX t) (componentWidth r c))
    (hh : rect.height = bandExtent r.numDecompositionLevels res (isHighY t) (componentHeight r c))
    (h : prepareDwtBand r rect t = .ok band) : BandOf r c res t band := by
  unfold prepareDwtBand at h
  rw [Nat.one_shiftLeft, Nat.one_shiftLeft] at h
  obtain ⟨hblocked, hwidth, hheight, hcw, hch, ht⟩ :=
    prepareSubband_ok (Nat.two_pow_pos _) (Nat.two_pow_pos _) h
  exact ⟨hblocked, ht, hwidth.trans hw, hheight.trans hh, hcw, hch⟩

theorem rect_extent (g : PackedDwtGeometry) (x y width height : ℕ) :
    (g.rect x y width height).width = width ∧ (g.rect x y width height).height = height := by
  unfold PackedDwtGeometry.rect
  split_ifs <;> exact ⟨rfl, rfl⟩

/-- A prepared component has one packet per resolution, with the resolution's bands. -/
theorem prepareOneComponent_ok {plane : Buffer ℤ} {c : ℕ} {packets : List PreparedPacket}
    (h : prepareOneComponent r plane c = .ok packets) :
    ∃ bands : ℕ → List PreparedEncodeSubband,
      packets = (List.range (r.numDecompositionLevels + 1)).map (fun res => ⟨⟨c, res, 0⟩, bands res⟩) ∧
      ∀ res < r.numDecompositionLevels + 1,
        List.Forall₂ (BandOf r c res) (subBandTypes res) (bands res) := by
  unfold prepareOneComponent at h
  dsimp only at h
  split_ifs at h with hlevels
  rw [not_not] at hlevels
  obtain ⟨ll, hll, h⟩ := bind_eq_ok.mp h
  obtain ⟨details, hdetails, h⟩ := bind_eq_ok.mp h
  cases h
  obtain ⟨n, -, hshape⟩ := transformLevels_eq (componentWidth r c) (componentHeight r c) plane
    r.numDecompositionLevels 0
  have hgeometry : dwtGeometry r plane c = ⟨componentWidth r c, componentHeight r c,
      ⟨lowExtent^[n] (componentWidth r c), lowExtent^[n] (componentHeight r c), n⟩⟩ := by
    unfold dwtGeometry tryForwardDwtPackedI64 forwardDwtPackedCore
    dsimp only
    congr 1
    exact congrArg Prod.snd hshape
  rw [hgeometry] at hlevels hdetails hll
  dsimp only at hlevels
  subst hlevels
  obtain ⟨g, rfl, hg⟩ := mapM_range_ok hdetails
  refine ⟨fun res => if res = 0 then [ll] else (g (res - 1)).subbands, ?_, fun res hres => ?_⟩
  · rw [List.range_succ_eq_map, List.map_cons, List.map_map]
    refine congrArg₂ _ rfl (List.map_congr_left fun levelIdx hlevel => ?_)
    have hrun := hg levelIdx (List.mem_range.mp hlevel)
    unfold prepareDetailPacket at hrun
    obtain ⟨hl, -, hrun⟩ := bind_eq_ok.mp hrun
    obtain ⟨lh, -, hrun⟩ := bind_eq_ok.mp hrun
    obtain ⟨hh, -, hrun⟩ := bind_eq_ok.mp hrun
    show g levelIdx = ⟨⟨c, levelIdx + 1, 0⟩, (g levelIdx).subbands⟩
    rw [← Except.ok.inj hrun]
  · dsimp only
    rcases Nat.eq_zero_or_pos res with rfl | hpos
    · rw [if_pos rfl]
      refine .cons (prepareDwtBand_ok ?_ ?_ hll) .nil
      · exact (rect_extent _ _ _ _ _).1
      · exact (rect_extent _ _ _ _ _).2
    · have hrun := hg (res - 1) (show res - 1 < r.numDecompositionLevels by omega)
      unfold prepareDetailPacket at hrun
      obtain ⟨hl, hhl, hrun⟩ := bind_eq_ok.mp hrun
      obtain ⟨lh, hlh, hrun⟩ := bind_eq_ok.mp hrun
      obtain ⟨hh, hhh, hrun⟩ := bind_eq_ok.mp hrun
      rw [if_neg hpos.ne', ← Except.ok.inj hrun]
      have hlevel : r.numDecompositionLevels - (res - 1) - 1 = r.numDecompositionLevels - res := by
        omega
      have hhigh (extent : ℕ) : bandExtent r.numDecompositionLevels res true extent =
          lowExtent^[r.numDecompositionLevels - (res - 1) - 1] extent / 2 := by
        rw [hlevel]
        exact if_neg hpos.ne'
      have hlow (extent : ℕ) : bandExtent r.numDecompositionLevels res false extent =
          lowExtent (lowExtent^[r.numDecompositionLevels - (res - 1) - 1] extent) := by
        rw [hlevel]
        exact if_neg hpos.ne'
      unfold subBandTypes
      rw [if_neg hpos.ne']
      refine .cons (prepareDwtBand_ok ?_ ?_ hhl) (.cons (prepareDwtBand_ok ?_ ?_ hlh)
        (.cons (prepareDwtBand_ok ?_ ?_ hhh) .nil))
      · exact (rect_extent _ _ _ _ _).1.trans (hhigh _).symm
      · exact (rect_extent _ _ _ _ _).2.trans (hlow _).symm
      · exact (rect_extent _ _ _ _ _).1.trans (hlow _).symm
      · exact (rect_extent _ _ _ _ _).2.trans (hhigh _).symm
      · exact (rect_extent _ _ _ _ _).1.trans (hhigh _).symm
      · exact (rect_extent _ _ _ _ _).2.trans (hhigh _).symm

/-! ## The encoder's packets -/

/-- The code blocks of a packet's sub-bands of one type. -/
def blocksOfType (t : SubBandType) (subbands : List PreparedEncodeSubband) : List IntRect :=
  (subbands.filter fun band => band.subBandType = t).flatMap PreparedEncodeSubband.codeBlocks

theorem blocksOfType_cons (t : SubBandType) (band : PreparedEncodeSubband)
    (l : List PreparedEncodeSubband) : blocksOfType t (band :: l) =
      (if band.subBandType = t then band.codeBlocks else []) ++ blocksOfType t l := by
  unfold blocksOfType
  by_cases htype : band.subBandType = t
  · rw [List.filter_cons_of_pos (by simpa using htype), if_pos htype, List.flatMap_cons]
  · rw [List.filter_cons_of_neg (by simpa using htype), if_neg htype, List.nil_append]

/-- Precinct `p` of a grid ends inside `u32` in a band with samples. -/
def SpanFits (spanX spanY columns p : ℕ) (band : PreparedEncodeSubband) : Prop :=
  band.width ≠ 0 → band.height ≠ 0 →
    p % columns * spanX + spanX ≤ u32Max ∧ p / columns * spanY + spanY ≤ u32Max

/-- Handing out the bands of a packet one after the other. -/
theorem distributeBands_ok {a b resolution ex ey n k : ℕ} {grid : ResolutionPrecinctGrid}
    (hcolumns : 0 < grid.columns) (hn : n = grid.columns * grid.rows) (hn0 : 0 < n)
    {bands : List PreparedEncodeSubband}
    (hbands : ∀ band ∈ bands, Blocked band ∧ band.codeBlockWidth = 2 ^ a ∧
      band.codeBlockHeight = 2 ^ b)
    {packet : ℕ → PreparedPacket} (hk : ∀ p, (packet p).subbands.length = k)
    {out : List PreparedPacket}
    (h : bands.foldlM (distributeOwnedSubband resolution ex ey grid) ((List.range n).map packet) =
      .ok out) :
    ∃ shares : ℕ → List PreparedEncodeSubband,
      out = (List.range n).map (fun p =>
        { packet p with subbands := (packet p).subbands ++ shares p }) ∧
      (∀ p < n, List.Forall₂ (fun band share =>
        ShareOf band (2 ^ bandExponent resolution ex) (2 ^ bandExponent resolution ey)
          (p % grid.columns) (p / grid.columns) share ∧
        SpanFits (2 ^ bandExponent resolution ex) (2 ^ bandExponent resolution ey) grid.columns p
          band) bands (shares p)) ∧
      ∀ t, ((List.range n).flatMap fun p => blocksOfType t (shares p)).Perm (blocksOfType t bands) := by
  induction bands generalizing packet k with
  | nil =>
      cases h
      refine ⟨fun _ => [], ?_, fun p _ => .nil, fun t => ?_⟩
      · simp only [List.append_nil]
      · simp [blocksOfType]
  | cons band bands ih =>
      rw [List.foldlM_cons] at h
      obtain ⟨next, hnext, h⟩ := bind_eq_ok.mp h
      obtain ⟨hblocked, ha, hb⟩ := hbands band List.mem_cons_self
      obtain ⟨share, rfl, hshare, hperm, hspan⟩ :=
        distributeOwnedSubband_ok hblocked ha hb hcolumns hn hn0 hk hnext
      obtain ⟨shares, rfl, hshares, hperms⟩ := ih
        (fun band hband => hbands band (List.mem_cons_of_mem _ hband))
        (fun p => by rw [List.length_append, hk]; rfl) h
      refine ⟨fun p => share p :: shares p, ?_, fun p hp => ?_, fun t => ?_⟩
      · simp only [List.append_assoc, List.singleton_append]
      · exact .cons ⟨hshare p hp, fun hw hh => hspan hw hh p hp⟩ (hshares p hp)
      · have htype : (List.range n).flatMap (fun p => blocksOfType t (share p :: shares p)) =
            (List.range n).flatMap fun p =>
              (if band.subBandType = t then (share p).codeBlocks else []) ++
                blocksOfType t (shares p) := by
          refine List.flatMap_congr fun p hp => ?_
          rw [blocksOfType_cons, (hshare p (List.mem_range.mp hp)).subBandType]
        rw [htype, blocksOfType_cons]
        refine (List.flatMap_append_perm _ _ _).symm.trans (List.Perm.append ?_ (hperms t))
        split_ifs
        · exact hperm
        · simp

/-- Column and row spacing of a resolution's precincts in the encoder's sub-bands. -/
def spanX (r : EncodeRequest) (res : ℕ) : ℕ :=
  2 ^ bandExponent res (r.precinctExponents.getD res (0, 0)).1

def spanY (r : EncodeRequest) (res : ℕ) : ℕ :=
  2 ^ bandExponent res (r.precinctExponents.getD res (0, 0)).2

/-- What packet `p` of a resolution holds of the resolution's bands. -/
def HoldsShares (r : EncodeRequest) (res p : ℕ) (bands shares : List PreparedEncodeSubband) : Prop :=
  if r.precinctExponents.isEmpty then shares = bands
  else
    let columns := (precinctGrid r res).columns
    List.Forall₂ (fun band share =>
      ShareOf band (spanX r res) (spanY r res) (p % columns) (p / columns) share ∧
        SpanFits (spanX r res) (spanY r res) columns p band) bands shares

theorem forall₂_imp_mem {α β : Type*} {R S : α → β → Prop} {l : List α} {l' : List β}
    (h : List.Forall₂ R l l') (himp : ∀ a ∈ l, ∀ b, R a b → S a b) : List.Forall₂ S l l' := by
  induction h with
  | nil => exact .nil
  | cons hab _ ih =>
      exact .cons (himp _ List.mem_cons_self _ hab)
        (ih fun a ha => himp a (List.mem_cons_of_mem _ ha))

theorem forall₂_comp {α β γ : Type*} {R : α → β → Prop} {S : β → γ → Prop} {l : List α}
    {l' : List β} {l'' : List γ} (h : List.Forall₂ R l l') (h' : List.Forall₂ S l' l'') :
    List.Forall₂ (fun a c => ∃ b, R a b ∧ S b c) l l'' := by
  induction h generalizing l'' with
  | nil =>
      cases h'
      exact .nil
  | cons hab _ ih =>
      cases h' with
      | cons hbc h' => exact .cons ⟨_, hab, hbc⟩ (ih h')

theorem precinctGrid_pos (h : Accepted r) (res : ℕ) :
    0 < (precinctGrid r res).columns ∧ 0 < (precinctGrid r res).rows := by
  unfold precinctGrid
  split_ifs
  · exact ⟨Nat.one_pos, Nat.one_pos⟩
  · exact ⟨divCeil_pos (divCeil_pos h.width_pos (Nat.two_pow_pos _)) (Nat.two_pow_pos _),
      divCeil_pos (divCeil_pos h.height_pos (Nat.two_pow_pos _)) (Nat.two_pow_pos _)⟩

theorem splitPreparedPacketByPrecinct_ok (h : Accepted r) {c res : ℕ}
    (hne : ¬ r.precinctExponents.isEmpty) {bands : List PreparedEncodeSubband}
    (hbands : List.Forall₂ (BandOf r c res) (subBandTypes res) bands) {out : List PreparedPacket}
    (hsplit : splitPreparedPacketByPrecinct r ⟨⟨c, res, 0⟩, bands⟩ = .ok out) :
    ∃ shares : ℕ → List PreparedEncodeSubband,
      out = (List.range (precinctCount r res)).map (fun p => ⟨⟨c, res, p⟩, shares p⟩) ∧
      (∀ p < precinctCount r res, HoldsShares r res p bands (shares p)) ∧
      ∀ t, ((List.range (precinctCount r res)).flatMap fun p => blocksOfType t (shares p)).Perm
        (blocksOfType t bands) := by
  unfold splitPreparedPacketByPrecinct at hsplit
  obtain ⟨e, he, hsplit⟩ := bind_eq_ok.mp hsplit
  obtain ⟨grid, hgrid, hsplit⟩ := bind_eq_ok.mp hsplit
  obtain ⟨rfl, hexp⟩ := precinctGrid_eq hne he hgrid
  dsimp only at hsplit
  have hpos := precinctGrid_pos h res
  have hpackets : ((List.range (precinctGrid r res).rows).map fun precinctRow =>
      (List.range (precinctGrid r res).columns).map fun precinctColumn =>
        (⟨⟨c, res, precinctRow * (precinctGrid r res).columns + precinctColumn⟩, []⟩ :
          PreparedPacket)).flatten =
      (List.range (precinctCount r res)).map fun p => ⟨⟨c, res, p⟩, []⟩ := by
    rw [range_mul_flatMap]
    refine List.map_congr_left fun p _ => ?_
    rw [Nat.div_add_mod']
  rw [hpackets] at hsplit
  have hblocked : ∀ band ∈ bands, Blocked band ∧
      band.codeBlockWidth = 2 ^ (r.codeBlockWidthExp + 2) ∧
      band.codeBlockHeight = 2 ^ (r.codeBlockHeightExp + 2) := by
    intro band hband
    obtain ⟨t, -, ht⟩ := exists_related hbands hband
    exact ⟨ht.blocked, ht.codeBlockWidth, ht.codeBlockHeight⟩
  have hk (p : ℕ) : (⟨⟨c, res, p⟩, []⟩ : PreparedPacket).subbands.length = 0 := rfl
  obtain ⟨shares, rfl, hshares, hperm⟩ := distributeBands_ok (n := precinctCount r res) hpos.1 rfl
    (Nat.mul_pos hpos.1 hpos.2) hblocked hk hsplit
  refine ⟨shares, rfl, fun p hp => ?_, hperm⟩
  unfold HoldsShares spanX spanY
  rw [if_neg hne, hexp]
  exact hshares p hp

/-- The packets of a request, their sub-bands and the sub-bands' shares. -/
structure Contents (r : EncodeRequest) (packets : List PreparedPacket)
    (bands : ℕ → ℕ → List PreparedEncodeSubband)
    (shares : ℕ → ℕ → ℕ → List PreparedEncodeSubband) : Prop where
  packets_eq : packets =
    (splitPackets r).map fun q => ⟨q, shares q.component q.resolution q.precinct⟩
  bands_of : ∀ c < r.componentSampling.length, ∀ res < r.numDecompositionLevels + 1,
    List.Forall₂ (BandOf r c res) (subBandTypes res) (bands c res)
  holds : ∀ c < r.componentSampling.length, ∀ res < r.numDecompositionLevels + 1,
    ∀ p < precinctCount r res, HoldsShares r res p (bands c res) (shares c res p)
  once : ∀ c < r.componentSampling.length, ∀ res < r.numDecompositionLevels + 1, ∀ t,
    ((List.range (precinctCount r res)).flatMap fun p => blocksOfType t (shares c res p)).Perm
      (blocksOfType t (bands c res))

/-- **Packets of an accepted request.** -/
theorem preparedPackets_ok (h : Accepted r) {planes : ℕ → Buffer ℤ}
    {packets : List (List PreparedPacket)} (hprepared : preparedPackets r planes = .ok packets) :
    ∃ bands shares, Contents r packets.flatten bands shares := by
  unfold preparedPackets at hprepared
  obtain ⟨components, hcomponents, hsplit⟩ := bind_eq_ok.mp hprepared
  obtain ⟨component, rfl, hcomponent⟩ := mapM_range_ok hcomponents
  have hbands (c : ℕ) (hc : c < r.componentSampling.length) :=
    prepareOneComponent_ok (hcomponent c hc)
  choose! bands hcomponent hbands using hbands
  unfold splitPreparedPackets at hsplit
  split_ifs at hsplit with hempty
  · cases hsplit
    have hcount (res : ℕ) : precinctCount r res = 1 := by
      simp [precinctCount, precinctGrid, hempty]
    refine ⟨bands, fun c res _ => bands c res, ?_, hbands, fun c hc res hres p hp => ?_,
      fun c hc res hres t => ?_⟩
    · unfold splitPackets
      simp only [hcount, List.map_flatMap, List.range_one, List.map_singleton,
        ← List.map_eq_flatMap]
      rw [← List.flatMap_def]
      refine List.flatMap_congr fun c hc => ?_
      rw [List.map_map]
      exact hcomponent c (List.mem_range.mp hc)
    · unfold HoldsShares
      rw [if_pos hempty]
    · rw [hcount]
      simp
  · rw [List.mapM_map] at hsplit
    obtain ⟨split, rfl, hrun⟩ := mapM_range_ok hsplit
    have hshares (c : ℕ) (hc : c < r.componentSampling.length) :
        ∃ shares : ℕ → ℕ → List PreparedEncodeSubband,
          split c = ((List.range (r.numDecompositionLevels + 1)).flatMap fun res =>
            (List.range (precinctCount r res)).map fun p => ⟨⟨c, res, p⟩, shares res p⟩) ∧
          ∀ res < r.numDecompositionLevels + 1,
            (∀ p < precinctCount r res, HoldsShares r res p (bands c res) (shares res p)) ∧
            ∀ t, ((List.range (precinctCount r res)).flatMap fun p =>
              blocksOfType t (shares res p)).Perm (blocksOfType t (bands c res)) := by
      obtain ⟨parts, hparts, hrun⟩ := bind_eq_ok.mp (hrun c hc)
      rw [hcomponent c hc, List.mapM_map] at hparts
      obtain ⟨part, rfl, hpart⟩ := mapM_range_ok hparts
      have hpacket (res : ℕ) (hres : res < r.numDecompositionLevels + 1) :=
        splitPreparedPacketByPrecinct_ok h hempty (hbands c hc res hres) (hpart res hres)
      choose! shares hpart hholds honce using hpacket
      refine ⟨shares, ?_, fun res hres => ⟨hholds res hres, honce res hres⟩⟩
      rw [← Except.ok.inj hrun, ← List.flatMap_def]
      exact List.flatMap_congr fun res hres => hpart res (List.mem_range.mp hres)
    choose! shares hsplit hshares using hshares
    refine ⟨bands, shares, ?_, hbands, fun c hc res hres => (hshares c hc res hres).1,
      fun c hc res hres => (hshares c hc res hres).2⟩
    unfold splitPackets
    simp only [List.map_flatMap, List.map_map]
    rw [← List.flatMap_def]
    exact List.flatMap_congr fun c hc => hsplit c (List.mem_range.mp hc)

end

end J2kNative.PacketSets
