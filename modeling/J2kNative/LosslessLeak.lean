import J2kNative.LosslessIntervals

/-!
# Scans whose intervals leak

A scan of differences 0, -1 and -2 in a table of three codes, decoded unit by unit:
the runs that show what a predictor other than the left neighbour reads from the
interval before.
-/
namespace J2kNative.LosslessIntervals
open BitReader LosslessRestart

/-! ## A table of three codes -/

/-- One code each of the lengths 1, 2 and 3, for the categories 0, 1 and 2. -/
def threeCodes : RawHuffmanTable where
  bits := [1,1,1,0,0,0,0,0,0,0,0,0,0,0,0,0]
  values := [0,1,2]
  bits_length := rfl
  values_lt := by decide

/-- The bits of a difference. -/
def codeOf (d : ℤ) : List ℕ :=
  if d = 0 then [0] else if d = -1 then [1,0,0] else [1,1,0,0,1]

theorem exists_threeTable : ∃ table, HuffmanTable.fromRaw threeCodes .dc = .ok table ∧
    ∀ idx, table.packed idx = packedEntry .dc idx
      (fastEntries [(0,1,0),(2,2,1),(6,3,2)] idx).1
      (fastEntries [(0,1,0),(2,2,1),(6,3,2)] idx).2 :=
  ⟨_,rfl,fun _ => rfl⟩

theorem fastEntries_three (idx : ℕ) : fastEntries [(0,1,0),(2,2,1),(6,3,2)] idx =
    if 3072 ≤ idx ∧ idx < 3584 then (2,3) else
      if 2048 ≤ idx ∧ idx < 3072 then (1,2) else if idx < 2048 then (0,1) else (0,0) := by
  simp [fastEntries,fastBits,fillEntries]

/-- The table packs every code with its magnitude. -/
theorem packed_three {d : ℤ} (hd : d = 0 ∨ d = -1 ∨ d = -2) {idx : ℕ}
    (h : idx/2^(fastBits-(codeOf d).length) = bitValue (codeOf d)) :
    packedEntry .dc idx (fastEntries [(0,1,0),(2,2,1),(6,3,2)] idx).1
      (fastEntries [(0,1,0),(2,2,1),(6,3,2)] idx).2 = packDcValue (codeOf d).length d := by
  rw [fastEntries_three]
  rcases hd with rfl | rfl | rfl
  · simp [codeOf,bitValue,fastBits] at h ⊢
    rw [if_neg (by omega),if_neg (by omega),if_pos (by omega)]
    rfl
  · simp [codeOf,bitValue,fastBits] at h ⊢
    rw [if_neg (by omega),if_pos (by omega)]
    simp [packedEntry,packedMagnitude,fastBits,Nat.shiftRight_eq_div_pow,h,BitReader.extend]
  · simp [codeOf,bitValue,fastBits] at h ⊢
    rw [if_pos (by omega)]
    simp [packedEntry,packedMagnitude,fastBits,Nat.shiftRight_eq_div_pow,h,BitReader.extend]

/-! ## Runs over coded differences -/

/-- The planes of the components are tiled by the units, and all tables are the one of three
codes. -/
structure FullScan (scan : LosslessScan) : Prop where
  component : ∀ c ∈ scan.components, 0 < c.h ∧ 0 < c.v ∧
    c.planeWidth = scan.unitsPerRow*c.h ∧ c.planeHeight = scan.unitRows*c.v
  table : ∀ c ∈ scan.components, ∀ idx, c.dcTable.packed idx = packedEntry .dc idx
    (fastEntries [(0,1,0),(2,2,1),(6,3,2)] idx).1 (fastEntries [(0,1,0),(2,2,1),(6,3,2)] idx).2

variable {scan : LosslessScan} {val d : ℕ → ℕ → ℕ → ℤ} {k per n x y : ℕ} {s : Samples}
  {r : BitReader} {u : List ℕ}

/-- The samples at the positions `D` are those of the pictures `val`. -/
def Covers (val : ℕ → ℕ → ℕ → ℤ) (D : ℕ → ℕ → ℕ → Prop) (s : Samples) : Prop :=
  ∀ o x y, D o x y → s o x y = val o x y

theorem Covers.mono {D E : ℕ → ℕ → ℕ → Prop} (h : Covers val D s)
    (hle : ∀ o x y, E o x y → D o x y) : Covers val E s := fun o x y he => h o x y (hle o x y he)

theorem Covers.set {D : ℕ → ℕ → ℕ → Prop} (h : Covers val D s) (o x y : ℕ) :
    Covers val (fun o' x' y' => D o' x' y' ∨ o' = o ∧ x' = x ∧ y' = y)
      (s.set o x y (val o x y)) := by
  intro o' x' y' hD
  unfold Samples.set
  split_ifs with heq
  · rw [heq.1,heq.2.1,heq.2.2]
  · exact h o' x' y' (hD.resolve_right heq)

/-- A loop whose turns read their bits and keep an invariant that counts the turns. -/
theorem foldlM_reads {γ : Type} {f : Samples → γ → Read Samples} {bits : γ → List ℕ}
    (l : List γ) (I : ℕ → Samples → Prop)
    (hstep : ∀ i c, l[i]? = some c → ∀ s r u, I i s → Reads r (bits c ++ u) → r.next.isSome →
      ∃ s' r', f s c r = .ok (s',r') ∧ Reads r' u ∧ Kept r r' ∧ I (i+1) s')
    {s : Samples} {r : BitReader} {u : List ℕ} (h : I 0 s) (hr : Reads r (l.flatMap bits ++ u))
    (hnext : r.next.isSome) :
    ∃ s' r', l.foldlM f s r = .ok (s',r') ∧ Reads r' u ∧ Kept r r' ∧ I l.length s' := by
  induction l generalizing s r I with
  | nil => exact ⟨s,r,rfl,hr,⟨rfl,rfl⟩,h⟩
  | cons c l ih =>
      rw [List.flatMap_cons,List.append_assoc] at hr
      obtain ⟨s₁,r₁,hfirst,hr₁,hk₁,h₁⟩ := hstep 0 c rfl s r _ h hr hnext
      obtain ⟨s₂,r₂,hrest,hr₂,hk₂,h₂⟩ := ih (fun i => I (i+1))
        (fun i c hc => hstep (i+1) c hc) h₁ hr₁ (hk₁.next ▸ hnext)
      refine ⟨s₂,r₂,?_,hr₂,hk₁.trans hk₂,h₂⟩
      rw [List.foldlM_cons]
      show (f s c r >>= fun p => _) = _
      rw [hfirst]
      exact hrest

/-- A coded difference is added to the prediction. -/
theorem decodePlaneSample_code (hscan : FullScan scan) {c : ResolvedLosslessComponent}
    (hc : c ∈ scan.components) {first : Bool} {diff predicted : ℤ}
    (hd : diff = 0 ∨ diff = -1 ∨ diff = -2)
    (hpredicted : (if first then scan.sample.restartPredictor else
      losslessPredict scan.predictor scan.sample.restartPredictor x y (s c.outputIndex)) =
        predicted)
    (hrange : 0 ≤ predicted+diff ∧ predicted+diff < 2^scan.sample.bitDepth)
    (h : Reads r (codeOf diff ++ u)) (hnext : r.next.isSome) :
    ∃ r', scan.decodePlaneSample c x y first s r =
        .ok (s.set c.outputIndex x y (predicted+diff),r') ∧ Reads r' u ∧ Kept r r' := by
  obtain ⟨r',hdecode,htook⟩ := @decodeFastDc_packed r (codeOf diff ++ u) (codeOf diff) c.dcTable diff
    (by rcases hd with rfl | rfl | rfl <;> decide) (by rcases hd with rfl | rfl | rfl <;> decide)
    (fun idx hidx => (hscan.table c hc idx).trans (packed_three hd hidx))
    (by rcases hd with rfl | rfl | rfl <;> decide) h (ahead_append _ u) (fills_of_next hnext)
  refine ⟨r',?_,htook.left rfl,htook.kept⟩
  unfold LosslessScan.decodePlaneSample
  rw [hpredicted]
  show (c.dcTable.decodeFastDc r >>= fun p => _) = _
  rw [hdecode]
  show ((scan.sample.fromI32 (predicted+diff) r') >>= fun p => _) = _
  unfold LosslessSample.fromI32
  rw [if_pos hrange]
  rfl

/-- What the scan adds up to at a position of plane `o`, with `v` rows for each row of units:
the prediction and the difference give the picture. The first sample of an interval is predicted
from the middle of the range. -/
def Pictured (scan : LosslessScan) (val d : ℕ → ℕ → ℕ → ℤ) (k v o x y : ℕ) : Prop :=
  (d o x y = 0 ∨ d o x y = -1 ∨ d o x y = -2) ∧
    (if x = 0 ∧ y % (k*v) = 0 then scan.sample.restartPredictor else
      losslessPredict scan.predictor scan.sample.restartPredictor x y (val o))+d o x y =
        val o x y ∧
    0 ≤ val o x y ∧ val o x y < 2^scan.sample.bitDepth

/-- The positions of the units before unit `n`. -/
def Earlier (scan : LosslessScan) (n o x y : ℕ) : Prop :=
  ∃ c ∈ scan.components, c.outputIndex = o ∧ x < c.planeWidth ∧
    y/c.v*scan.unitsPerRow+x/c.h < n

/-- The positions of a component in a MCU, up to row `localY` and column `localX`. -/
def InMcu (c : ResolvedLosslessComponent) (X Y localY localX o x y : ℕ) : Prop :=
  o = c.outputIndex ∧ x/c.h = X ∧ y/c.v = Y ∧
    (y % c.v < localY ∨ y % c.v = localY ∧ x % c.h < localX)

def componentBits (d : ℕ → ℕ → ℕ → ℤ) (X Y : ℕ) (c : ResolvedLosslessComponent) : List ℕ :=
  (List.range c.v).flatMap fun localY => (List.range c.h).flatMap fun localX =>
    codeOf (d c.outputIndex (X*c.h+localX) (Y*c.v+localY))

theorem local_div_mod {X h i : ℕ} (hi : i < h) : (X*h+i)/h = X ∧ (X*h+i) % h = i :=
  ⟨CountedLoops.cell_div X hi,CountedLoops.cell_mod X hi⟩

/-- Positions to the left and above are decoded before. -/
theorem earlier_or_inMcu {X Y localX localY i l : ℕ} {c : ResolvedLosslessComponent}
    (hc : c ∈ scan.components) (hx : localX < c.h) (hy : localY < c.v)
    (hX : X < scan.unitsPerRow) (hwidth : c.planeWidth = scan.unitsPerRow*c.h)
    (hi : i ≤ X*c.h+localX) (hl : l ≤ Y*c.v+localY)
    (hne : ¬(i = X*c.h+localX ∧ l = Y*c.v+localY)) :
    Earlier scan (Y*scan.unitsPerRow+X) c.outputIndex i l ∨
      InMcu c X Y localY localX c.outputIndex i l := by
  have hih := Nat.div_le_div_right (c := c.h) hi
  have hlv := Nat.div_le_div_right (c := c.v) hl
  rw [(local_div_mod hx).1] at hih
  rw [(local_div_mod hy).1] at hlv
  have hinside : i < c.planeWidth := by
    rw [hwidth]
    exact (Nat.div_lt_iff_lt_mul (Nat.zero_lt_of_lt hx)).mp (by omega)
  by_cases hrow : l/c.v < Y
  · left
    refine ⟨c,hc,rfl,hinside,?_⟩
    have hmul := Nat.mul_le_mul_right scan.unitsPerRow (Nat.succ_le_of_lt hrow)
    rw [Nat.succ_mul] at hmul
    omega
  · have hlY : l/c.v = Y := by omega
    by_cases hcolumn : i/c.h < X
    · left
      refine ⟨c,hc,rfl,hinside,?_⟩
      rw [hlY]
      omega
    · right
      have hiX : i/c.h = X := by omega
      have hisplit := Nat.div_add_mod i c.h
      have hlsplit := Nat.div_add_mod l c.v
      rw [hiX,Nat.mul_comm] at hisplit
      rw [hlY,Nat.mul_comm] at hlsplit
      refine ⟨rfl,hiX,hlY,?_⟩
      omega

/-- One sample of a MCU. -/
theorem decodeMcuSample_code (hscan : FullScan scan) {X Y localX localY : ℕ}
    (hX : X < scan.unitsPerRow) {c : ResolvedLosslessComponent} (hc : c ∈ scan.components)
    (hx : localX < c.h) (hy : localY < c.v) {first : Bool}
    (hfirst : first = true ↔ X = 0 ∧ Y % k = 0)
    (hpicture : Pictured scan val d k c.v c.outputIndex (X*c.h+localX) (Y*c.v+localY))
    {D : ℕ → ℕ → ℕ → Prop} (hD : ∀ o x y, Earlier scan (Y*scan.unitsPerRow+X) o x y → D o x y)
    (hs : Covers val (fun o x y => D o x y ∨ InMcu c X Y localY localX o x y) s)
    (h : Reads r (codeOf (d c.outputIndex (X*c.h+localX) (Y*c.v+localY)) ++ u))
    (hnext : r.next.isSome) :
    ∃ s' r', scan.decodePlaneSample c (X*c.h+localX) (Y*c.v+localY)
        (first && localX = 0 && localY = 0) s r = .ok (s',r') ∧ Reads r' u ∧ Kept r r' ∧
      Covers val (fun o x y => D o x y ∨ InMcu c X Y localY (localX+1) o x y) s' := by
  obtain ⟨hd,hval,hbounds⟩ := hpicture
  have hflag : (first && localX = 0 && localY = 0) = true ↔
      X*c.h+localX = 0 ∧ (Y*c.v+localY) % (k*c.v) = 0 := by
    rw [Nat.mul_comm k,Nat.mod_mul,(local_div_mod hy).1,(local_div_mod hy).2]
    simp only [Bool.and_eq_true,decide_eq_true_eq,hfirst,Nat.add_eq_zero_iff,Nat.mul_eq_zero]
    omega
  have hknown : ∀ i ≤ X*c.h+localX, ∀ l ≤ Y*c.v+localY,
      ¬(i = X*c.h+localX ∧ l = Y*c.v+localY) → s c.outputIndex i l = val c.outputIndex i l := by
    intro i hi l hl hne
    refine hs _ _ _ ((earlier_or_inMcu hc hx hy hX ?_ hi hl hne).imp_left (hD _ _ _))
    exact (hscan.component c hc).2.2.1
  have hpredict : losslessPredict scan.predictor scan.sample.restartPredictor
      (X*c.h+localX) (Y*c.v+localY) (s c.outputIndex) =
      losslessPredict scan.predictor scan.sample.restartPredictor
        (X*c.h+localX) (Y*c.v+localY) (val c.outputIndex) :=
    losslessPredict_congr _ _ (fun _ => hknown _ (by omega) _ (by omega) (by omega))
      (fun _ => hknown _ (by omega) _ (by omega) (by omega))
      fun _ _ => hknown _ (by omega) _ (by omega) (by omega)
  have hpredicted : (if (first && localX = 0 && localY = 0) = true then
      scan.sample.restartPredictor else losslessPredict scan.predictor
        scan.sample.restartPredictor (X*c.h+localX) (Y*c.v+localY) (s c.outputIndex)) =
      val c.outputIndex (X*c.h+localX) (Y*c.v+localY) -
        d c.outputIndex (X*c.h+localX) (Y*c.v+localY) := by
    rw [hpredict]
    simp only [hflag]
    rw [← hval,add_sub_cancel_right]
  obtain ⟨r',hrun,hr,hk⟩ := decodePlaneSample_code hscan hc hd hpredicted
    (by rw [sub_add_cancel]; exact hbounds) h hnext
  rw [sub_add_cancel] at hrun
  refine ⟨_,r',hrun,hr,hk,(hs.set _ _ _).mono fun o x y hpos => ?_⟩
  rcases hpos with hpos | ⟨ho,hxX,hyY,hlocal⟩
  · exact .inl (.inl hpos)
  · by_cases hnew : y % c.v = localY ∧ x % c.h = localX
    · right
      have hxsplit := Nat.div_add_mod x c.h
      have hysplit := Nat.div_add_mod y c.v
      rw [hxX,hnew.2,Nat.mul_comm] at hxsplit
      rw [hyY,hnew.1,Nat.mul_comm] at hysplit
      exact ⟨ho,hxsplit.symm,hysplit.symm⟩
    · exact .inl (.inr ⟨ho,hxX,hyY,by omega⟩)

theorem getElem?_range_eq {n i a : ℕ} (h : (List.range n)[i]? = some a) : i = a ∧ i < n := by
  obtain ⟨hlt,hget⟩ := List.getElem?_eq_some_iff.mp h
  rw [List.getElem_range] at hget
  exact ⟨hget,by simpa using hlt⟩

/-- The samples of a component in a MCU. -/
theorem decodeMcuComponent_code (hscan : FullScan scan) {X Y : ℕ} (hX : X < scan.unitsPerRow)
    (hY : Y < scan.unitRows) {c : ResolvedLosslessComponent} (hc : c ∈ scan.components)
    {first : Bool} (hfirst : first = true ↔ X = 0 ∧ Y % k = 0)
    (hpicture : ∀ localX < c.h, ∀ localY < c.v, Pictured scan val d k c.v c.outputIndex
      (X*c.h+localX) (Y*c.v+localY)) {D : ℕ → ℕ → ℕ → Prop}
    (hD : ∀ o x y, Earlier scan (Y*scan.unitsPerRow+X) o x y → D o x y) (hs : Covers val D s)
    (h : Reads r (componentBits d X Y c ++ u)) (hnext : r.next.isSome) :
    ∃ s' r', scan.decodeMcuComponent X Y first s c r = .ok (s',r') ∧ Reads r' u ∧ Kept r r' ∧
      Covers val (fun o x y => D o x y ∨ InMcu c X Y c.v 0 o x y) s' := by
  obtain ⟨hh,hv,hwidth,hheight⟩ := hscan.component c hc
  have hrow : ∀ localY < c.v, ∀ s r u,
      Covers val (fun o x y => D o x y ∨ InMcu c X Y localY 0 o x y) s →
      Reads r ((List.range c.h).flatMap (fun localX =>
        codeOf (d c.outputIndex (X*c.h+localX) (Y*c.v+localY))) ++ u) → r.next.isSome →
      ∃ s' r', (List.range c.h).foldlM (fun s localX =>
          let x := X*c.h+localX
          let y := Y*c.v+localY
          if c.planeWidth ≤ x ∨ c.planeHeight ≤ y then pure s
          else scan.decodePlaneSample c x y (first && localX = 0 && localY = 0) s) s r =
            .ok (s',r') ∧ Reads r' u ∧ Kept r r' ∧
        Covers val (fun o x y => D o x y ∨ InMcu c X Y (localY+1) 0 o x y) s' := by
    intro localY hy s r u hs hr hnext
    obtain ⟨s',r',hrun,hr',hk,hcover⟩ := @foldlM_reads ℕ (fun s localX =>
        if c.planeWidth ≤ X*c.h+localX ∨ c.planeHeight ≤ Y*c.v+localY then pure s
        else scan.decodePlaneSample c (X*c.h+localX) (Y*c.v+localY)
          (first && localX = 0 && localY = 0) s) _ (List.range c.h)
      (fun localX => Covers val fun o x y => D o x y ∨ InMcu c X Y localY localX o x y)
      (fun localX a hget s r u hs hr hnext => by
        obtain ⟨rfl,hx⟩ := getElem?_range_eq hget
        have hxlt : X*c.h+localX < c.planeWidth := by
          rw [hwidth]
          exact (Nat.div_lt_iff_lt_mul hh).mp (by rw [(local_div_mod hx).1]; exact hX)
        have hylt : Y*c.v+localY < c.planeHeight := by
          rw [hheight]
          exact (Nat.div_lt_iff_lt_mul hv).mp (by rw [(local_div_mod hy).1]; exact hY)
        rw [if_neg (by omega)]
        exact decodeMcuSample_code hscan hX hc hx hy hfirst (hpicture localX hx localY hy) hD hs hr
          hnext) s r u hs hr hnext
    refine ⟨s',r',hrun,hr',hk,hcover.mono fun o x y hpos => hpos.imp_right ?_⟩
    rintro ⟨ho,hxX,hyY,hlocal⟩
    have := Nat.mod_lt x hh
    refine ⟨ho,hxX,hyY,?_⟩
    rw [List.length_range]
    omega
  obtain ⟨s',r',hrun,hr',hk,hcover⟩ := foldlM_reads (List.range c.v)
    (fun localY => Covers val fun o x y => D o x y ∨ InMcu c X Y localY 0 o x y)
    (fun localY a hget s r u hs hr hnext => by
      obtain ⟨rfl,hy⟩ := getElem?_range_eq hget
      exact hrow localY hy s r u hs hr hnext)
    (hs.mono fun o x y hpos => hpos.resolve_right (by
      rintro ⟨-,-,-,hlocal⟩
      omega)) h hnext
  rw [List.length_range] at hcover
  exact ⟨s',r',hrun,hr',hk,hcover⟩

/-- One unit: the components in order. -/
theorem decodeMcu_code (hscan : FullScan scan) {X Y : ℕ} (hX : X < scan.unitsPerRow)
    (hY : Y < scan.unitRows) {first : Bool} (hfirst : first = true ↔ X = 0 ∧ Y % k = 0)
    (hpicture : ∀ c ∈ scan.components, ∀ localX < c.h, ∀ localY < c.v,
      Pictured scan val d k c.v c.outputIndex (X*c.h+localX) (Y*c.v+localY))
    (hs : Covers val (Earlier scan (Y*scan.unitsPerRow+X)) s)
    (h : Reads r (scan.components.flatMap (componentBits d X Y) ++ u)) (hnext : r.next.isSome) :
    ∃ s' r', scan.decodeMcu X Y first s r = .ok (s',r') ∧ Reads r' u ∧ Kept r r' ∧
      Covers val (Earlier scan (Y*scan.unitsPerRow+X+1)) s' := by
  obtain ⟨s',r',hrun,hr,hk,hcover⟩ := foldlM_reads scan.components
    (fun i => Covers val fun o x y => Earlier scan (Y*scan.unitsPerRow+X) o x y ∨
      ∃ j < i, ∃ c, scan.components[j]? = some c ∧ InMcu c X Y c.v 0 o x y)
    (fun i c hget s r u hs hr hnext => by
      have hc := List.mem_of_getElem? hget
      obtain ⟨s',r',hrun,hr',hk,hcover⟩ := decodeMcuComponent_code hscan hX hY hc hfirst
        (hpicture c hc) (fun o x y he => .inl he) hs hr hnext
      refine ⟨s',r',hrun,hr',hk,hcover.mono fun o x y hpos => ?_⟩
      rcases hpos with hpos | ⟨j,hj,c',hc',hpos⟩
      · exact .inl (.inl hpos)
      · by_cases heq : j = i
        · subst heq
          rw [hget] at hc'
          obtain rfl := Option.some.inj hc'
          exact .inr hpos
        · exact .inl (.inr ⟨j,by omega,c',hc',hpos⟩))
    (hs.mono fun o x y hpos => hpos.resolve_right (by rintro ⟨j,hj,-⟩; omega)) h hnext
  refine ⟨s',r',hrun,hr,hk,hcover.mono fun o x y hpos => ?_⟩
  obtain ⟨c,hc,ho,hwidth,hlt⟩ := hpos
  obtain ⟨hh,hv,hplane,-⟩ := hscan.component c hc
  by_cases hnew : y/c.v*scan.unitsPerRow+x/c.h < Y*scan.unitsPerRow+X
  · exact .inl ⟨c,hc,ho,hwidth,hnew⟩
  · obtain ⟨j,hj,hget⟩ := List.mem_iff_getElem.mp hc
    have hcolumn : x/c.h < scan.unitsPerRow :=
      (Nat.div_lt_iff_lt_mul hh).mpr (hplane ▸ hwidth)
    obtain ⟨hyY,hxX⟩ := CountedLoops.cell_inj hcolumn hX (show y/c.v*scan.unitsPerRow+x/c.h =
      Y*scan.unitsPerRow+X by omega)
    exact .inr ⟨j,hj,c,List.getElem?_eq_some_iff.mpr ⟨hj,hget⟩,ho.symm,hxX,hyY,
      .inl (Nat.mod_lt y hv)⟩

/-! ## Coded scans -/

def unitBits (scan : LosslessScan) (d : ℕ → ℕ → ℕ → ℤ) (n : ℕ) : List ℕ :=
  scan.components.flatMap (componentBits d (n % scan.unitsPerRow) (n/scan.unitsPerRow))

/-- The bits of the units from `a` to `b`. -/
def unitsBits (scan : LosslessScan) (d : ℕ → ℕ → ℕ → ℤ) (a b : ℕ) : List ℕ :=
  (List.range' a (b-a)).flatMap (unitBits scan d)

/-- The unit after the last one of interval `i`. -/
def intervalEnd (scan : LosslessScan) (per i : ℕ) : ℕ :=
  min ((i+1)*per) (scan.unitRows*scan.unitsPerRow)

def codedInterval (scan : LosslessScan) (d : ℕ → ℕ → ℕ → ℤ) (per i : ℕ) : List ℕ :=
  (((Emission.bits (unitsBits scan d (i*per) (intervalEnd scan per i))).andThen
    Emission.align) 0 0).1

def codedIntervals (scan : LosslessScan) (d : ℕ → ℕ → ℕ → ℤ) (per count : ℕ) : List (List ℕ) :=
  (List.range count).map (codedInterval scan d per)

theorem unitsBits_le {a b bit : ℕ} (h : bit ∈ unitsBits scan d a b) : bit ≤ 1 := by
  obtain ⟨n,-,h⟩ := List.mem_flatMap.mp h
  obtain ⟨c,-,h⟩ := List.mem_flatMap.mp h
  obtain ⟨localY,-,h⟩ := List.mem_flatMap.mp h
  obtain ⟨localX,-,h⟩ := List.mem_flatMap.mp h
  unfold codeOf at h
  split_ifs at h <;> simp at h <;> omega

theorem unitsBits_succ {a b : ℕ} (h : a < b) :
    unitsBits scan d a b = unitBits scan d a ++ unitsBits scan d (a+1) b := by
  unfold unitsBits
  rw [show b-a = b-(a+1)+1 by omega,List.range'_succ,List.flatMap_cons]

theorem codedInterval_carries (scan : LosslessScan) (d : ℕ → ℕ → ℕ → ℤ) (per i : ℕ) :
    ∃ data padding, Carries (codedInterval scan d per i) data ∧ padding < 8 ∧
      bytesBits data = unitsBits scan d (i*per) (intervalEnd scan per i) ++
        List.replicate padding 1 :=
  carries_bits fun _ => unitsBits_le

theorem codedInterval_coded (scan : LosslessScan) (d : ℕ → ℕ → ℕ → ℤ) (per i : ℕ) :
    entropyCoded false (codedInterval scan d per i) := by
  obtain ⟨data,-,hdata,-,-⟩ := codedInterval_carries scan d per i
  have h := hdata.coded []
  rw [List.append_nil] at h
  exact h

/-- A reader at an interval has the bits ahead that the bytes of the interval hold. -/
theorem reads_carried {intervals : List (List ℕ)} {i : ℕ} (hi : i < intervals.length)
    {data l : List ℕ} (hdata : Carries (intervals.get ⟨i,hi⟩) data) (hbits : bytesBits data = l)
    (h : AtInterval intervals i r) : Reads r l := by
  have hcoded : entropyCoded false (intervals.get ⟨i,hi⟩) := by
    have h := hdata.coded []
    rw [List.append_nil] at h
    exact h
  have hahead := (h.ahead_next hi hcoded).1
  have hsplit := hdata.split []
  rw [List.append_nil] at hsplit
  rw [hsplit] at hahead
  obtain ⟨-,hacc,hzero,hsynthetic,-,-⟩ := h
  have hnil : r.ahead = data := hahead.trans (List.append_nil data)
  refine ⟨[],⟨?_,?_,nofun,?_⟩,?_,?_,?_⟩
  · rw [hsynthetic,hzero]
    rfl
  · omega
  · rw [hacc,hsynthetic]
    simp [bitValue]
  · rw [hnil,hbits]
    rfl
  · rw [hnil]
    exact hdata.lt
  · omega

/-- A reader at a coded interval has its bits ahead. -/
theorem reads_atInterval {count i : ℕ} (hi : i < count)
    (h : AtInterval (codedIntervals scan d per count) i r) :
    ∃ padding < 8, Reads r (unitsBits scan d (i*per) (intervalEnd scan per i) ++
      List.replicate padding 1) := by
  obtain ⟨data,padding,hdata,hpadding,hbits⟩ := codedInterval_carries scan d per i
  have hi' : i < (codedIntervals scan d per count).length := by simpa [codedIntervals] using hi
  have hget : (codedIntervals scan d per count).get ⟨i,hi'⟩ = codedInterval scan d per i := by
    simp [codedIntervals]
  exact ⟨padding,hpadding,reads_carried hi' (hget ▸ hdata) hbits h⟩

/-- A restart succeeds when nothing but padding is left and its marker comes next. -/
theorem restart_succeeds (index total : ℕ) {intervals : List (List ℕ)} {i expected : ℕ}
    (hr : InInterval intervals i r) (hahead : r.ahead = [])
    (hcode : (0xD0 ||| expected) = markerAfter i (intervals.drop (i+1))) :
    ∃ value q, consumeLosslessRestart index total expected r = .ok (value,q) := by
  obtain ⟨-,-,hnext⟩ := hr
  obtain ⟨q,hq,m,hm⟩ : ∃ q, (if r.resetAtRestart.marker = none ∧ r.resetAtRestart.bits ≤ 7 then
      r.resetAtRestart.refillOneByte.2 else r.resetAtRestart) = q ∧ ∃ m, q.marker = some m ∧
      q.next = r.next := by
    refine ⟨_,rfl,?_⟩
    cases hmarker : r.resetAtRestart.marker with
    | some m =>
        rw [if_neg (by simp)]
        exact ⟨m,hmarker,rfl⟩
    | none =>
        rw [if_pos ⟨rfl,Nat.zero_le 7⟩]
        rcases r.resetAtRestart.refillOneByte_spec with ⟨-,-,-,-,-,hkept,hdrained⟩ |
          ⟨b,ds,-,hcons,-⟩
        · have hsome := hdrained.2 (by rw [hkept]; show r.next.isSome; rw [hnext]; rfl)
          obtain ⟨m,hm⟩ := Option.isSome_iff_exists.mp hsome
          exact ⟨m,hm,hkept⟩
        · have hnil : r.resetAtRestart.ahead = [] := hahead
          rw [hnil] at hcons
          cases hcons
  have hm' : m = 0xD0 ||| expected := by
    have h := hm.2
    rw [hnext,next,hm.1] at h
    rw [hcode]
    exact (Prod.mk.inj (Option.some.inj h)).1
  refine ⟨(expected+1) &&& 7,
    resetAtRestart { q with marker := none, pos := q.markerEnd, markerEnd := 0 },?_⟩
  show consumeRestartMarker expected index total r.resetAtRestart = _
  unfold consumeRestartMarker
  dsimp only
  rw [hq,takeMarker,hm.1,Option.map_some]
  dsimp only
  rw [if_neg (not_not.mpr hm')]

/-- What holds before unit `n` of a coded scan. -/
structure CodedAt (scan : LosslessScan) (val : ℕ → ℕ → ℕ → ℤ) (d : ℕ → ℕ → ℕ → ℤ) (per count n : ℕ)
    (t : LosslessRestartTracker) (s : Samples) (r : BitReader) : Prop where
  before : Before scan per (codedIntervals scan d per count) n t r
  known : Covers val (Earlier scan n) s
  reads : 0 < n → ∃ padding < 8, Reads r (unitsBits scan d n (intervalEnd scan per ((n-1)/per)) ++
    List.replicate padding 1)

theorem ahead_eq_nil_of_short (h : Reads r u) (hu : u.length < 8) : r.ahead = [] := by
  obtain ⟨l,-,rfl,-,-⟩ := h
  cases hahead : r.ahead with
  | nil => rfl
  | cons b ds =>
      rw [hahead,List.length_append,bytesBits,List.flatMap_cons,List.length_append,byteBits,
        length_codeBits] at hu
      omega

variable {t : LosslessRestartTracker}

/-- The restart that may be due before a unit succeeds when the interval before is used up. -/
theorem exists_restarted (hper : 0 < per) (hinterval : scan.restartInterval = some per)
    {intervals : List (List ℕ)} (hinside : n/per < intervals.length)
    (hb : Before scan per intervals n t r) (hahead : 0 < n → n % per = 0 → r.ahead = [])
    (index : ℕ) : ∃ w q, t.restarted index r = .ok (w,q) := by
  have hscan : scan.tracker.restartInterval = per := by
    simp [LosslessScan.tracker,LosslessRestartTracker.new,hinterval]
  unfold LosslessRestartTracker.restarted
  split_ifs with hdue
  · rw [hb.tracker] at hdue
    simp only [trackerAt,hscan] at hdue
    have hnpos : 0 < n := by
      refine Nat.pos_of_ne_zero fun hzero => ?_
      rw [if_pos hzero] at hdue
      omega
    rw [if_neg (Nat.ne_of_gt hnpos)] at hdue
    have hzero : n % per = 0 := by
      by_contra hne
      have := (CountedLoops.pred_div_mod hper hnpos).2 hne
      have := Nat.mod_lt n hper
      omega
    obtain ⟨hdiv,-⟩ := (CountedLoops.pred_div_mod hper hnpos).1 hzero
    have hcode : (0xD0 ||| t.expectedRst) = markerAfter ((n-1)/per)
        (intervals.drop ((n-1)/per+1)) := by
      rw [markerAfter,if_neg,hb.tracker]
      · rfl
      · rw [List.drop_eq_nil_iff]
        omega
    obtain ⟨value,q,hconsume⟩ := restart_succeeds index t.totalUnits (hb.inside hnpos)
      (hahead hnpos hzero) hcode
    refine ⟨{ t with expectedRst := value, unitsSinceRestart := 0 },q,?_⟩
    show (consumeLosslessRestart index t.totalUnits t.expectedRst r >>= fun p => _) = _
    rw [hconsume]
    rfl
  · exact ⟨t,r,rfl⟩

/-- Before each unit the restart that is due succeeds, and the bits of the unit come next. -/
theorem restarted_coded (hk : 0 < k) (hinterval : scan.restartInterval = some (k*scan.unitsPerRow))
    (hn : n < scan.unitRows*scan.unitsPerRow) (index : ℕ)
    (h : CodedAt scan val d (k*scan.unitsPerRow) ((scan.unitRows+k-1)/k) n t s r) :
    ∃ w q, t.restarted index r = .ok (w,q) ∧
      Entered (k*scan.unitsPerRow) (codedIntervals scan d (k*scan.unitsPerRow)
        ((scan.unitRows+k-1)/k)) n w r q ∧
      w.finishUnit = trackerAt scan (k*scan.unitsPerRow) (n+1) ∧
      ∃ padding < 8, Reads q (unitsBits scan d n
        (intervalEnd scan (k*scan.unitsPerRow) (n/(k*scan.unitsPerRow))) ++
          List.replicate padding 1) := by
  have hwidth : 0 < scan.unitsPerRow := Nat.pos_of_ne_zero fun h => by
    rw [h,Nat.mul_zero] at hn
    omega
  generalize hper : k*scan.unitsPerRow = per at *
  generalize hcount : (scan.unitRows+k-1)/k = count at *
  have hpos : 0 < per := hper ▸ Nat.mul_pos hk hwidth
  have hinside : n/per < count := by
    have hrow : n/scan.unitsPerRow < scan.unitRows :=
      (Nat.div_lt_iff_lt_mul hwidth).mpr hn
    rw [← hper,← hcount,Nat.mul_comm,← Nat.div_div_eq_div_mul]
    refine Nat.lt_of_lt_of_le (Nat.lt_succ_self _) ?_
    rw [Nat.le_div_iff_mul_le hk,Nat.succ_mul]
    have := Nat.div_mul_le_self (n/scan.unitsPerRow) k
    omega
  have hlength : (codedIntervals scan d per count).length = count := by simp [codedIntervals]
  have hcoded : ∀ i (hi : i < (codedIntervals scan d per count).length),
      entropyCoded false ((codedIntervals scan d per count).get ⟨i,hi⟩) := by
    intro i hi
    simp only [codedIntervals,List.get_eq_getElem,List.getElem_map]
    exact codedInterval_coded _ _ _ _
  have hentered := fun {w q} (hrun : t.restarted index r = .ok (w,q)) =>
    entered_of_restarted hpos hinterval hcoded (hlength.symm ▸ Nat.zero_lt_of_lt hinside)
      h.before hrun
  by_cases hzero : n % per = 0
  · -- an interval starts here
    have hused : 0 < n → n % per = 0 → r.ahead = [] := fun hnpos _ => by
      obtain ⟨hdiv,-⟩ := (CountedLoops.pred_div_mod hpos hnpos).1 hzero
      obtain ⟨padding,hpadding,hreads⟩ := h.reads hnpos
      have hend : intervalEnd scan per ((n-1)/per) = n := by
        rw [intervalEnd,← hdiv,Nat.div_mul_cancel (Nat.dvd_of_mod_eq_zero hzero),
          min_eq_left (Nat.le_of_lt hn)]
      refine ahead_eq_nil_of_short hreads ?_
      simpa [hend,unitsBits] using hpadding
    obtain ⟨w,q,hrun⟩ := exists_restarted hpos hinterval (hlength.symm ▸ hinside) h.before hused
      index
    obtain ⟨hin,htracker⟩ := hentered hrun
    obtain ⟨padding,hpadding,hreads⟩ := reads_atInterval hinside (hin.start hzero)
    refine ⟨w,q,hrun,hin,htracker,padding,hpadding,?_⟩
    rw [Nat.div_mul_cancel (Nat.dvd_of_mod_eq_zero hzero)] at hreads
    exact hreads
  · have hnpos : 0 < n := Nat.pos_of_ne_zero fun h => hzero (by rw [h,Nat.zero_mod])
    obtain ⟨hdiv,hmod⟩ := (CountedLoops.pred_div_mod hpos hnpos).2 hzero
    have hrun : t.restarted index r = .ok (t,r) := by
      unfold LosslessRestartTracker.restarted
      rw [if_neg]
      · rfl
      · rintro ⟨-,hdue⟩
        rw [h.before.tracker] at hdue
        have hscan : scan.tracker.restartInterval = per := by
          simp [LosslessScan.tracker,LosslessRestartTracker.new,hinterval]
        simp only [trackerAt,hscan,if_neg (Nat.pos_iff_ne_zero.mp hnpos)] at hdue
        have := Nat.mod_lt n hpos
        omega
    obtain ⟨hin,htracker⟩ := hentered hrun
    obtain ⟨padding,hpadding,hreads⟩ := h.reads hnpos
    exact ⟨t,r,hrun,hin,htracker,padding,hpadding,hdiv ▸ hreads⟩

/-- The first `count` units of a coded scan decode to the pictures. -/
theorem run_coded (hscan : FullScan scan) (hk : 0 < k)
    (hinterval : scan.restartInterval = some (k*scan.unitsPerRow)) {count : ℕ}
    (hcount : count ≤ scan.unitRows*scan.unitsPerRow)
    (hpicture : ∀ X < scan.unitsPerRow, ∀ Y, Y*scan.unitsPerRow+X < count →
      ∀ c ∈ scan.components, ∀ localX < c.h, ∀ localY < c.v,
        Pictured scan val d k c.v c.outputIndex (X*c.h+localX) (Y*c.v+localY)) :
    ∃ t s r, runUnits scan count (scanBytes 0 (codedIntervals scan d (k*scan.unitsPerRow)
        ((scan.unitRows+k-1)/k))) = .ok ((t,s),r) ∧
      CodedAt scan val d (k*scan.unitsPerRow) ((scan.unitRows+k-1)/k) count t s r := by
  induction count with
  | zero =>
      refine ⟨scan.tracker,fun _ _ _ => 0,_,rfl,⟨?_,fun _ => atInterval_new _,
        fun h => absurd h (Nat.lt_irrefl 0)⟩,?_,fun h => absurd h (Nat.lt_irrefl 0)⟩
      · simp [trackerAt,LosslessScan.tracker,LosslessRestartTracker.new]
      · rintro o x y ⟨c,-,-,-,hlt⟩
        exact absurd hlt (Nat.not_lt_zero _)
  | succ n ih =>
      obtain ⟨t,s,r,hrun,hat⟩ := ih (by omega) fun X hX Y hlt => hpicture X hX Y (by omega)
      have hn : n < scan.unitRows*scan.unitsPerRow := by omega
      have hwidth : 0 < scan.unitsPerRow := Nat.pos_of_ne_zero fun h => by
        rw [h,Nat.mul_zero] at hn
        omega
      have hsplit : n/scan.unitsPerRow*scan.unitsPerRow+n % scan.unitsPerRow = n := by
        rw [Nat.mul_comm]
        exact Nat.div_add_mod n _
      have hX := Nat.mod_lt n hwidth
      have hY : n/scan.unitsPerRow < scan.unitRows := (Nat.div_lt_iff_lt_mul hwidth).mpr hn
      obtain ⟨w,q,hrestart,hin,htracker,padding,hpadding,hreads⟩ := restarted_coded hk hinterval hn
        (n/scan.unitsPerRow*scan.unitsPerRow+n % scan.unitsPerRow) hat
      have hend : n < intervalEnd scan (k*scan.unitsPerRow) (n/(k*scan.unitsPerRow)) := by
        refine Nat.lt_min.mpr ⟨?_,hn⟩
        exact (Nat.div_lt_iff_lt_mul (Nat.mul_pos hk hwidth)).mp (Nat.lt_succ_self _)
      rw [unitsBits_succ hend,List.append_assoc] at hreads
      have hnext : q.next.isSome := by
        rw [hin.inside.2.2]
        rfl
      have hfirst : w.isFirst = true ↔ n % scan.unitsPerRow = 0 ∧ n/scan.unitsPerRow % k = 0 := by
        rw [hin.first,decide_eq_true_eq,Nat.mul_comm k,Nat.mod_mul]
        simp only [Nat.add_eq_zero_iff,Nat.mul_eq_zero]
        omega
      have hknown : Covers val (Earlier scan
          (n/scan.unitsPerRow*scan.unitsPerRow+n % scan.unitsPerRow)) s := hsplit.symm ▸ hat.known
      obtain ⟨s',r',hmcu,hr,hkept,hknown'⟩ := decodeMcu_code hscan hX hY hfirst
        (hpicture _ hX _ (by omega)) hknown hreads hnext
      refine ⟨w.finishUnit,s',r',runUnits_step hn hrun ?_,
        ⟨htracker,fun h => absurd h (Nat.succ_ne_zero n),fun _ => ?_⟩,?_,
        fun _ => ⟨padding,hpadding,?_⟩⟩
      · show (t.restarted _ r >>= fun p => _) = _
        rw [hrestart]
        show (scan.decodeMcu _ _ _ s q >>= fun p => _) = _
        rw [hmcu]
        rfl
      · rw [Nat.add_sub_cancel]
        exact hin.inside.kept hkept
      · rw [hsplit] at hknown'
        exact hknown'
      · rw [Nat.add_sub_cancel]
        exact hr

end J2kNative.LosslessIntervals
