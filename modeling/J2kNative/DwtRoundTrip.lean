import J2kNative.ForwardDwt
import J2kNative.InverseDwt

/-!
# Reversible wavelet round trip

The forward transform leaves the detail bands of every level at fixed places of
one packed plane, because the levels below keep to the low-pass quadrant. The
decoder is handed these bands, copied out row by row, and rebuilds the planes of
the levels in the opposite order. One level is inverted sample by sample through
`synthesize_analyze`; the induction over the levels follows the decoder's loop,
whose two buffers alternate.
-/
namespace J2kNative.DwtRoundTrip
open CountedLoops Lifting TileGeometry ForwardDwt InverseDwt

/-! ## Planes of the forward transform -/

/-- The packed plane after `j` levels. -/
def planeAt (width height : ℕ) (c : Buffer ℤ) : ℕ → Buffer ℤ
  | 0 => c
  | j + 1 => transformLevel forwardLift53 width (lowExtent^[j] width) (lowExtent^[j] height)
      (planeAt width height c j)

theorem lowExtent_le (n : ℕ) : lowExtent n ≤ n := by
  unfold lowExtent
  omega

theorem iterate_lowExtent_anti (n : ℕ) {j k : ℕ} (h : j ≤ k) :
    lowExtent^[k] n ≤ lowExtent^[j] n := by
  induction k, h using Nat.le_induction with
  | base => exact le_rfl
  | succ k _ ih =>
      rw [Function.iterate_succ_apply']
      exact (lowExtent_le _).trans ih

theorem iterate_lowExtent_le (n j : ℕ) : lowExtent^[j] n ≤ n :=
  iterate_lowExtent_anti n (Nat.zero_le j)

/-- Halving upwards `j` times is the decoder's rounded quotient. -/
theorem iterate_lowExtent_eq {n : ℕ} (hn : n ≤ 2 ^ 32) (j : ℕ) :
    lowExtent^[j] n = ceilDivByPowerOfTwo n j := by
  rw [ceilDiv_eq j hn]
  induction j with
  | zero => rw [pow_zero, divCeil_one, Function.iterate_zero_apply]
  | succ j ih =>
      rw [Function.iterate_succ_apply', ih, divCeil_pow_succ, divCeil_two]
      rfl

/-- The level loop stops at some number of levels with the plane of that level. -/
theorem transformLevels_eq (width height : ℕ) (c : Buffer ℤ) (levels j : ℕ) : ∃ n, j ≤ n ∧
    transformLevels forwardLift53 width levels (lowExtent^[j] width) (lowExtent^[j] height) j
      (planeAt width height c j) =
    (planeAt width height c n, ⟨lowExtent^[n] width, lowExtent^[n] height, n⟩) := by
  induction levels generalizing j with
  | zero => exact ⟨j, le_rfl, rfl⟩
  | succ levels ih =>
      unfold transformLevels
      split_ifs
      · exact ⟨j, le_rfl, rfl⟩
      · obtain ⟨n, hn, he⟩ := ih (j + 1)
        refine ⟨n, by omega, ?_⟩
        rw [Function.iterate_succ_apply', Function.iterate_succ_apply'] at he
        exact he

/-- What a level leaves outside its low-pass quadrant is final. -/
theorem planeAt_kept {width height : ℕ} (c : Buffer ℤ) {j n x y : ℕ} (h : j ≤ n)
    (hx : x < width) (hxy : lowExtent^[j] width ≤ x ∨ lowExtent^[j] height ≤ y) :
    planeAt width height c n (y * width + x) = planeAt width height c j (y * width + x) := by
  induction n, h using Nat.le_induction with
  | base => rfl
  | succ k hk ih =>
      have hw := iterate_lowExtent_anti width hk
      have hh := iterate_lowExtent_anti height hk
      rw [planeAt, (transformLevel_spec _ (iterate_lowExtent_le width k)
        forwardLift53_local _).2 x hx
        y (by omega), ih]

/-! ## One level -/

theorem subBand_cell (c : Buffer ℤ) (g : PackedDwtGeometry) {x y w h u v : ℕ} (hu : u < w)
    (hv : v < h) :
    subBand c (g.rect x y w h) (v * w + u) = c ((y + v) * g.planeWidth + (x + u)) := by
  unfold subBand PackedDwtGeometry.rect
  rw [if_neg (by omega)]
  dsimp only
  rw [cell_div v hu, cell_mod v hu, Nat.add_mul]
  congr 1
  omega

/-- A line transformed and inverted. -/
theorem synthesizeLine_passLine {n i : ℕ} (line : Buffer ℤ) (hi : i < n) :
    synthesizeLine 0 n (passLine forwardLift53 n line) i = line i := by
  unfold synthesizeLine passLine
  by_cases hn : n = 1
  · rw [if_pos hn, if_neg (by omega), if_neg (by omega)]
  · rw [if_neg hn, if_pos (by omega), Nat.zero_mod,
      synthesize_congr 0 (by omega) hi fun j hj => forwardLift53_eq (by omega) hj line]
    exact synthesize_analyze 0 (by omega) hi line

/-- The decomposition level that the decoder inverts `k`-th, with the bands that the
packed plane holds for it; its rectangle is that of resolution `k + 1`. -/
def decomposition (packed : Buffer ℤ) (g : PackedDwtGeometry) (k : ℕ) : Decomposition :=
  let rects := g.level k
  let scale := g.shape.numLevels - (k + 1)
  { rect := ⟨0, 0, ceilDivByPowerOfTwo g.planeWidth scale, ceilDivByPowerOfTwo g.planeHeight scale⟩
    hl := subBand packed rects.hl
    lh := subBand packed rects.lh
    hh := subBand packed rects.hh }

/-- A buffer of row width `w` holds the top-left region of a plane. -/
def Holds (out plane : Buffer ℤ) (width w h : ℕ) : Prop :=
  ∀ y < h, ∀ x < w, out (y * w + x) = plane (y * width + x)

section
variable {width height n : ℕ} (c : Buffer ℤ)

/-- Inverting the last open level restores the plane before it. -/
theorem applyLevel_holds {k : ℕ} (input target : Buffer ℤ) (hk : k < n) (hw : width ≤ 2 ^ 32)
    (hh : height ≤ 2 ^ 32)
    (hin : Holds input (planeAt width height c (n - k)) width (lowExtent^[n - k] width)
      (lowExtent^[n - k] height)) :
    Holds (applyLevel input target (decomposition (planeAt width height c n)
        ⟨width, height, ⟨lowExtent^[n] width, lowExtent^[n] height, n⟩⟩ k))
      (planeAt width height c (n - (k + 1))) width (lowExtent^[n - (k + 1)] width)
      (lowExtent^[n - (k + 1)] height) := by
  obtain ⟨j, hj⟩ : ∃ j, n - (k + 1) = j := ⟨_, rfl⟩
  have hj' : n - k = j + 1 := by omega
  rw [hj'] at hin
  rw [hj]
  generalize hd : decomposition (planeAt width height c n) _ k = d
  have hrect : d.rect = ⟨0, 0, lowExtent^[j] width, lowExtent^[j] height⟩ := by
    rw [← hd]
    simp only [decomposition, hj, ← iterate_lowExtent_eq hw, ← iterate_lowExtent_eq hh]
  rw [Function.iterate_succ_apply', Function.iterate_succ_apply'] at hin
  have hspec := transformLevel_spec (lowExtent^[j] height) (iterate_lowExtent_le width j)
    forwardLift53_local (planeAt width height c j)
  -- the bands of level `j` are where the level left them
  have hfinal {x y : ℕ} (hx : x < width)
      (hxy : lowExtent^[j + 1] width ≤ x ∨ lowExtent^[j + 1] height ≤ y) :=
    planeAt_kept c (show j + 1 ≤ n by omega) hx hxy
  have hcw := iterate_lowExtent_le width j
  have hlevel : n - k - 1 = j := by omega
  rw [Function.iterate_succ_apply', Function.iterate_succ_apply'] at hfinal
  have hband : ∀ y < lowExtent^[j] height, ∀ x < lowExtent^[j] width, bandSample input d x y =
      planeAt width height c (j + 1) (slot (lowExtent^[j] height) y * width +
        slot (lowExtent^[j] width) x) := by
    intro y hy x hx
    have h2 : divCeil (lowExtent^[j] width) 2 = lowExtent (lowExtent^[j] width) := divCeil_two _
    have hxl : lowExtent (lowExtent^[j] width) + lowExtent^[j] width / 2 = lowExtent^[j] width := by
      unfold lowExtent
      omega
    have hyl : lowExtent (lowExtent^[j] height) + lowExtent^[j] height / 2 =
        lowExtent^[j] height := by
      unfold lowExtent
      omega
    unfold bandSample slot
    rw [hrect]
    dsimp only
    rw [h2]
    split_ifs with hy2 hx2 hx2
    · exact hin (y / 2) (by omega) (x / 2) (by omega)
    · rw [← hd]
      simp only [decomposition, PackedDwtGeometry.level, hlevel]
      rw [subBand_cell _ _ (by omega) (by omega), hfinal (by omega) (.inl (by omega)), Nat.zero_add]
    · rw [← hd]
      simp only [decomposition, PackedDwtGeometry.level, hlevel]
      rw [subBand_cell _ _ (by omega) (by omega), hfinal (by omega) (.inr (by omega)), Nat.zero_add]
    · rw [← hd]
      simp only [decomposition, PackedDwtGeometry.level, hlevel]
      rw [subBand_cell _ _ (by omega) (by omega), hfinal (by omega) (.inl (by omega))]
  intro y hy x hx
  have hrun := applyLevel_spec input target d (x := x) (y := y) (by rw [hrect]) (by rw [hrect])
    (by rw [hrect]; exact hx) (by rw [hrect]; exact hy)
  rw [hrect] at hrun
  dsimp only at hrun
  rw [hrun]
  rw [← synthesizeLine_passLine (fun y => planeAt width height c j (y * width + x)) hy]
  refine synthesizeLine_congr 0 hy fun y' hy' => ?_
  rw [← synthesizeLine_passLine (fun x => passLine forwardLift53 (lowExtent^[j] height)
    (fun y => planeAt width height c j (y * width + x)) y') hx]
  exact synthesizeLine_congr 0 hx fun x' hx' =>
    (hband y' hy' x' hx').trans (hspec.1 y' hy' x' hx')

end

/-! ## The level loop -/

/-- The samples that the next turn interleaves with detail bands. -/
def currentBuffer (ll : Buffer ℤ) (st : LevelState) : Buffer ℤ :=
  match st.currentSource with
  | .subBand => ll
  | .scratch => st.scratch
  | .output => st.output

/-- The next turn does not write the buffer it reads. -/
def Alternating (st : LevelState) : Prop :=
  match st.currentSource with
  | .subBand => True
  | .scratch => st.useScratch = false
  | .output => st.useScratch = true

/-- A turn of the loop never reaches the unreachable arm. -/
theorem applyStep_spec (ll : Buffer ℤ) {st : LevelState} (d : Decomposition)
    (hst : Alternating st) : ∃ st' target, applyStep ll st d = some st' ∧ Alternating st' ∧
      currentBuffer ll st' = applyLevel (currentBuffer ll st) target d ∧
      st'.useScratch = !st.useScratch ∧ st'.rect = d.rect ∧ st'.currentSource ≠ .subBand := by
  obtain ⟨scratch, output, useScratch, source, rect⟩ := st
  cases source with
  | subBand =>
      cases useScratch with
      | true => exact ⟨_, scratch, rfl, rfl, rfl, rfl, rfl, nofun⟩
      | false => exact ⟨_, output, rfl, rfl, rfl, rfl, rfl, nofun⟩
  | scratch =>
      obtain rfl : useScratch = false := hst
      exact ⟨_, output, rfl, rfl, rfl, rfl, rfl, nofun⟩
  | output =>
      obtain rfl : useScratch = true := hst
      exact ⟨_, scratch, rfl, rfl, rfl, rfl, rfl, nofun⟩

/-- The rectangle of a plane at the origin after `j` levels. -/
def levelRect (width height j : ℕ) : IntRect :=
  ⟨0, 0, ceilDivByPowerOfTwo width j, ceilDivByPowerOfTwo height j⟩

section
variable {width height n : ℕ} (c ll : Buffer ℤ)

/-- The remaining turns rebuild the plane in `output`. -/
theorem applySteps_holds (hw : width ≤ 2 ^ 32) (hh : height ≤ 2 ^ 32) (m k : ℕ) (hkm : k + m = n)
    (st : LevelState) (hst : Alternating st) (huse : st.useScratch = decide (m % 2 = 0))
    (hrect : st.rect = levelRect width height (n - k))
    (hin : Holds (currentBuffer ll st) (planeAt width height c (n - k)) width
      (lowExtent^[n - k] width) (lowExtent^[n - k] height)) :
    ∃ st', ((List.range' k m).map (decomposition (planeAt width height c n)
        ⟨width, height, ⟨lowExtent^[n] width, lowExtent^[n] height, n⟩⟩)).foldlM
          (applyStep ll) st = some st' ∧
      Holds (currentBuffer ll st') c width width height ∧ st'.rect = ⟨0, 0, width, height⟩ ∧
      (st.currentSource ≠ .subBand ∨ m ≠ 0 → st'.currentSource = .output) := by
  induction m generalizing k st with
  | zero =>
      have h0 : n - k = 0 := by omega
      rw [h0] at hin hrect
      refine ⟨st, rfl, hin, hrect, fun hsource => ?_⟩
      obtain ⟨scratch, output, useScratch, source, rect⟩ := st
      cases source with
      | subBand => simp at hsource
      | scratch =>
          have h : useScratch = false := hst
          simp [h] at huse
      | output => rfl
  | succ m ih =>
      rw [List.range'_succ, List.map_cons, List.foldlM_cons]
      generalize hd : decomposition (planeAt width height c n) _ k = d
      obtain ⟨st₁, target, hstep, hst₁, hbuffer, huse₁, hrect₁, hsource₁⟩ := applyStep_spec ll d hst
      have hholds := applyLevel_holds c (currentBuffer ll st) target (show k < n by omega) hw hh hin
      rw [hd, ← hbuffer] at hholds
      have huse₁' : st₁.useScratch = decide (m % 2 = 0) := by
        rw [huse₁, huse, ← decide_not, decide_eq_decide]
        omega
      have hrect₁' : st₁.rect = levelRect width height (n - (k + 1)) := by
        rw [hrect₁, ← hd]
        rfl
      obtain ⟨st', hrun, hout, hfinal, hlast⟩ :=
        ih (k + 1) (by omega) st₁ hst₁ huse₁' hrect₁' hholds
      refine ⟨st', ?_, hout, hfinal, fun _ => hlast (.inl hsource₁)⟩
      rw [hstep]
      exact hrun

/-- The low-pass band of the packed plane is its top-left corner. -/
theorem subBand_ll_holds (w h numLevels : ℕ) :
    Holds (subBand c (PackedDwtGeometry.ll ⟨width, height, ⟨w, h, numLevels⟩⟩)) c width w h := by
  intro y hy x hx
  unfold PackedDwtGeometry.ll
  rw [subBand_cell c _ hx hy, Nat.zero_add, Nat.zero_add]

end

/-- **Reversible wavelet round trip.** The decoder's integer synthesis of the bands
that the forward packed 5/3 transform leaves is the plane that was transformed,
whatever its two working buffers held. -/
theorem reversible_dwt_round_trip {width height : ℕ} (hw : width < 2 ^ 32) (hh : height < 2 ^ 32)
    (numLevels : ℕ) (plane scratch output : Buffer ℤ) {packed : Buffer ℤ} {shape : PackedDwtShape}
    (hforward : tryForwardDwtPackedI64 plane width height numLevels = (packed, shape)) :
    ∃ out, applyI64 (subBand packed (PackedDwtGeometry.ll ⟨width, height, shape⟩))
        (levelRect width height shape.numLevels)
        ((List.range shape.numLevels).map (decomposition packed ⟨width, height, shape⟩)) 0
        scratch output = some (out, ⟨0, 0, width, height⟩) ∧
      ∀ y < height, ∀ x < width, out (y * width + x) = plane (y * width + x) := by
  obtain ⟨n, -, hn⟩ := transformLevels_eq width height plane numLevels 0
  obtain ⟨rfl, rfl⟩ := Prod.mk.inj (hforward.symm.trans hn)
  have hll := @subBand_ll_holds width height (planeAt width height plane n) (lowExtent^[n] width)
    (lowExtent^[n] height) n
  dsimp only
  generalize subBand _ (PackedDwtGeometry.ll _) = ll at hll ⊢
  cases n with
  | zero => exact ⟨ll, rfl, hll⟩
  | succ n =>
      obtain ⟨st', hrun, hout, hrect, hlast⟩ := applySteps_holds plane ll hw.le hh.le (n + 1) 0
        (Nat.zero_add _) ⟨scratch, output, (n + 1) % 2 = 0, .subBand,
          levelRect width height (n + 1)⟩ trivial rfl rfl hll
      have hbuffer : currentBuffer ll st' = st'.output := by
        unfold currentBuffer
        rw [hlast (.inr (Nat.succ_ne_zero n))]
      rw [hbuffer] at hout
      rw [← List.range_eq_range'] at hrun
      have hlen : ((List.range (n + 1)).map (decomposition (planeAt width height plane (n + 1))
          ⟨width, height, ⟨lowExtent^[n + 1] width, lowExtent^[n + 1] height, n + 1⟩⟩)).length =
            n + 1 := by
        rw [List.length_map, List.length_range]
      generalize (List.range (n + 1)).map _ = ds at hrun hlen ⊢
      refine ⟨st'.output, ?_, hout⟩
      unfold applyI64
      have hds : ds.isEmpty = false := by
        cases ds with
        | nil => cases hlen
        | cons => rfl
      rw [Nat.sub_zero, List.take_length]
      dsimp only
      rw [hds, if_neg Bool.false_ne_true, hlen, hrun, Option.map_some, hrect]

/-- A ramp of 5 by 3 samples through two levels, with odd and one-row edges. -/
theorem reversible_dwt_round_trip_ramp : ∃ packed shape out,
    tryForwardDwtPackedI64 (fun i => i) 5 3 2 = (packed, shape) ∧ shape = ⟨2, 1, 2⟩ ∧
    applyI64 (subBand packed (PackedDwtGeometry.ll ⟨5, 3, shape⟩)) (levelRect 5 3 2)
      ((List.range 2).map (decomposition packed ⟨5, 3, shape⟩)) 0 (fun _ => 0) (fun _ => 0) =
        some (out, ⟨0, 0, 5, 3⟩) ∧
    ∀ y < 3, ∀ x < 5, out (y * 5 + x) = ((y * 5 + x : ℕ) : ℤ) := by
  obtain ⟨out, hrun, hout⟩ := @reversible_dwt_round_trip 5 3 (by decide) (by decide) 2 (fun i => i) (fun _ => 0)
    (fun _ => 0) _ _ rfl
  exact ⟨_, _, out, rfl, rfl, hrun, hout⟩

end J2kNative.DwtRoundTrip
