import J2kNative.LosslessLeak
import Mathlib.Tactic.IntervalCases

/-!
# Independent restart intervals

Two pictures that differ in the last row of the first interval show that every
predictor but the left neighbour lets the first row of the second interval depend
on it. So the intervals of a scan are independent exactly with that predictor, in
planes of one column, or when there is one interval.
-/
namespace J2kNative.LosslessIntervals
open BitReader LosslessRestart

/-! ## The pictures -/

/-- The prediction away from the first row and column. -/
def interior (predictor : ℕ) (bias ra rb rc : ℤ) : ℤ :=
  losslessPredict predictor bias 1 1 fun i l => if l = 1 then ra else if i = 1 then rb else rc

theorem losslessPredict_interior {x y : ℕ} (hx : x ≠ 0) (hy : y ≠ 0) (predictor : ℕ) (bias : ℤ)
    (f : ℕ → ℕ → ℤ) : losslessPredict predictor bias x y f =
      interior predictor bias (f (x-1) y) (f x (y-1)) (f (x-1) (y-1)) := by
  simp [losslessPredict,interior,hx,hy]

variable {predictor K : ℕ} {bias : ℤ}

/-- The last row of the first interval. -/
def leakRow (bias : ℤ) (x : ℕ) : ℤ := if x = 0 then bias-1 else bias-2

/-- The row below another one, with the differences 0, when its first sample is `bias`. -/
def leakNext (predictor : ℕ) (bias : ℤ) (above : ℕ → ℤ) : ℕ → ℤ
  | 0 => bias
  | x+1 => interior predictor bias (leakNext predictor bias above x) (above (x+1)) (above x)

/-- The rows from the second interval on. -/
def leakBelow (predictor : ℕ) (bias : ℤ) : ℕ → ℕ → ℤ
  | 0 => leakNext predictor bias (leakRow bias)
  | y+1 => leakNext predictor bias (leakBelow predictor bias y)

/-- Flat but for the last row of the first interval and what is predicted from it. -/
def leakPicture (predictor K : ℕ) (bias : ℤ) (o x y : ℕ) : ℤ :=
  if o ≠ 0 ∨ y+1 < K then bias
  else if y+1 = K then leakRow bias x
  else leakBelow predictor bias (y-K) x

/-- The prediction in the last of `K` rows, the others of which are flat. -/
def rowStep (predictor K : ℕ) (bias : ℤ) (x : ℕ) : ℤ :=
  if x = 0 then bias
  else if K = 1 then leakRow bias (x-1)
  else interior predictor bias (leakRow bias (x-1)) bias bias

/-- The differences of the picture: zero but in the last row of the first interval. -/
def leakDiff (predictor K : ℕ) (bias : ℤ) (o x y : ℕ) : ℤ :=
  if o = 0 ∧ y+1 = K then leakRow bias x-rowStep predictor K bias x else 0

theorem leakDiff_small (hp : 2 ≤ predictor ∧ predictor ≤ 7) (o x y : ℕ) :
    leakDiff predictor K bias o x y = 0 ∨ leakDiff predictor K bias o x y = -1 ∨
      leakDiff predictor K bias o x y = -2 := by
  obtain ⟨hlow,hhigh⟩ := hp
  unfold leakDiff rowStep leakRow interior losslessPredict
  interval_cases predictor <;> simp <;> split_ifs <;> omega

/-- What the rows of the second interval have in common. -/
structure Leaks (predictor : ℕ) (bias : ℤ) (r : ℕ → ℤ) : Prop where
  first : r 0 = bias
  bounds : ∀ x, bias-2 ≤ r x ∧ r x ≤ bias
  gradient : predictor = 4 ∨ predictor = 5 → ∀ x ≠ 0, r x = bias-1
  vertical : predictor = 6 → ∀ x ≠ 0, r x = bias-2

theorem leaks_leakRow (hp : 2 ≤ predictor ∧ predictor ≤ 7) :
    Leaks predictor bias (leakNext predictor bias (leakRow bias)) := by
  have h : ∀ x, (bias-2 ≤ leakNext predictor bias (leakRow bias) x ∧
      leakNext predictor bias (leakRow bias) x ≤ bias) ∧ (x ≠ 0 →
        (predictor = 4 ∨ predictor = 5 → leakNext predictor bias (leakRow bias) x = bias-1) ∧
        (predictor = 6 → leakNext predictor bias (leakRow bias) x = bias-2)) := by
    obtain ⟨hlow,hhigh⟩ := hp
    intro x
    induction x with
    | zero =>
        rw [leakNext]
        omega
    | succ x ih =>
        rw [leakNext,show leakRow bias (x+1) = bias-2 from if_neg (Nat.succ_ne_zero x)]
        have hrow : leakRow bias x = if x = 0 then bias-1 else bias-2 := rfl
        rw [hrow]
        cases x with
        | zero =>
            rw [leakNext,interior,losslessPredict]
            interval_cases predictor <;> simp <;> omega
        | succ x =>
            obtain ⟨hbounds,hfixed⟩ := ih
            obtain ⟨hgradient,hvertical⟩ := hfixed (Nat.succ_ne_zero x)
            generalize leakNext predictor bias (leakRow bias) (x+1) = ra at *
            rw [interior,losslessPredict]
            interval_cases predictor <;> simp at * <;> omega
  exact ⟨rfl,fun x => (h x).1,fun hp x hx => ((h x).2 hx).1 hp,fun hp x hx => ((h x).2 hx).2 hp⟩

theorem Leaks.next (hp : 2 ≤ predictor ∧ predictor ≤ 7) {r : ℕ → ℤ} (h : Leaks predictor bias r) :
    Leaks predictor bias (leakNext predictor bias r) := by
  have h : ∀ x, (bias-2 ≤ leakNext predictor bias r x ∧ leakNext predictor bias r x ≤ bias) ∧
      (x ≠ 0 → (predictor = 4 ∨ predictor = 5 → leakNext predictor bias r x = bias-1) ∧
        (predictor = 6 → leakNext predictor bias r x = bias-2)) := by
    obtain ⟨hlow,hhigh⟩ := hp
    intro x
    induction x with
    | zero =>
        rw [leakNext]
        omega
    | succ x ih =>
        have hb := h.bounds (x+1)
        have hc := h.bounds x
        have hgb := fun hp => h.gradient hp (x+1) (Nat.succ_ne_zero x)
        have hvb := fun hp => h.vertical hp (x+1) (Nat.succ_ne_zero x)
        rw [leakNext]
        cases x with
        | zero =>
            rw [h.first,leakNext,interior,losslessPredict]
            interval_cases predictor <;> simp at * <;> omega
        | succ x =>
            have hgc := fun hp => h.gradient hp (x+1) (Nat.succ_ne_zero x)
            have hvc := fun hp => h.vertical hp (x+1) (Nat.succ_ne_zero x)
            obtain ⟨hbounds,hfixed⟩ := ih
            obtain ⟨hgradient,hvertical⟩ := hfixed (Nat.succ_ne_zero x)
            generalize leakNext predictor bias r (x+1) = ra at *
            generalize r (x+1+1) = rb at *
            generalize r (x+1) = rc at *
            rw [interior,losslessPredict]
            interval_cases predictor <;> simp at * <;> omega
  exact ⟨rfl,fun x => (h x).1,fun hp x hx => ((h x).2 hx).1 hp,fun hp x hx => ((h x).2 hx).2 hp⟩

theorem leaks_leakBelow (hp : 2 ≤ predictor ∧ predictor ≤ 7) (y : ℕ) :
    Leaks predictor bias (leakBelow predictor bias y) := by
  induction y with
  | zero => exact leaks_leakRow hp
  | succ y ih => exact ih.next hp

theorem leakPicture_bounds (hp : 2 ≤ predictor ∧ predictor ≤ 7) (o x y : ℕ) :
    bias-2 ≤ leakPicture predictor K bias o x y ∧ leakPicture predictor K bias o x y ≤ bias := by
  unfold leakPicture leakRow
  split_ifs
  · omega
  · omega
  · omega
  · exact (leaks_leakBelow hp _).bounds x

/-- The first sample that leaks differs from the flat picture. -/
theorem leakBelow_lt (hp : 2 ≤ predictor ∧ predictor ≤ 7) : leakBelow predictor bias 0 1 < bias := by
  obtain ⟨hlow,hhigh⟩ := hp
  show interior predictor bias bias (leakRow bias 1) (leakRow bias 0) < bias
  unfold leakRow interior losslessPredict
  interval_cases predictor <;> simp <;> omega

theorem predict_flat (hp : 1 ≤ predictor ∧ predictor ≤ 7) (x y : ℕ) :
    losslessPredict predictor bias x y (fun _ _ => bias) = bias := by
  obtain ⟨hlow,hhigh⟩ := hp
  have hhalf : (bias+bias)/2 = bias := by omega
  unfold losslessPredict
  interval_cases predictor <;> simp [hhalf]

variable {scan : LosslessScan} {k v o x y : ℕ}

/-- A flat picture has the difference zero everywhere. -/
theorem pictured_flat (hp : 1 ≤ scan.predictor ∧ scan.predictor ≤ 7)
    (hbias : 3 ≤ scan.sample.restartPredictor ∧
      scan.sample.restartPredictor < 2^scan.sample.bitDepth)
    {val d : ℕ → ℕ → ℕ → ℤ} (hval : val o = fun _ _ => scan.sample.restartPredictor)
    (hd : d o x y = 0) : Pictured scan val d k v o x y := by
  refine ⟨.inl hd,?_,?_⟩
  · rw [hd,hval,predict_flat hp,ite_self,add_zero]
  · have hflat : val o x y = scan.sample.restartPredictor := by rw [hval]
    rw [hflat]
    exact ⟨by omega,hbias.2⟩

/-! The values of the picture that leaks. -/

theorem leakPicture_above (x : ℕ) (h : y+1 < K) : leakPicture predictor K bias o x y = bias :=
  if_pos (.inr h)

theorem leakPicture_row (x : ℕ) (h : y+1 = K) :
    leakPicture predictor K bias 0 x y = leakRow bias x := by
  rw [leakPicture,if_neg (by omega),if_pos h]

theorem leakPicture_below (x : ℕ) (h : K ≤ y) :
    leakPicture predictor K bias 0 x y = leakBelow predictor bias (y-K) x := by
  rw [leakPicture,if_neg (by omega),if_neg (by omega)]

/-- The rows from the second interval on continue the row above. -/
theorem leakBelow_succ (hK : 0 < K) (h : K ≤ y) (x : ℕ) : leakBelow predictor bias (y-K) (x+1) =
    interior predictor bias (leakBelow predictor bias (y-K) x)
      (leakPicture predictor K bias 0 (x+1) (y-1)) (leakPicture predictor K bias 0 x (y-1)) := by
  by_cases hfirst : y = K
  · subst hfirst
    rw [leakPicture_row _ (by omega),leakPicture_row _ (by omega),Nat.sub_self y]
    rfl
  · rw [leakPicture_below _ (by omega),leakPicture_below _ (by omega),
      show y-K = y-1-K+1 by omega]
    rfl

/-- The first column: the first sample of an interval is predicted from the middle of the range,
the others from the sample above. -/
theorem leak_first_column (hp : 2 ≤ predictor ∧ predictor ≤ 7) (y : ℕ) :
    (if y % K = 0 then bias else
      losslessPredict predictor bias 0 y (leakPicture predictor K bias 0)) +
        leakDiff predictor K bias 0 0 y = leakPicture predictor K bias 0 0 y := by
  have hcolumn : ∀ y, leakPicture predictor K bias 0 0 y = if y+1 = K then bias-1 else bias := by
    intro y
    split_ifs with h
    · rw [leakPicture_row 0 h,leakRow,if_pos rfl]
    · by_cases habove : y+1 < K
      · exact leakPicture_above 0 habove
      · rw [leakPicture_below 0 (by omega)]
        exact (leaks_leakBelow hp _).first
  have hpredicted : (if y % K = 0 then bias else
      losslessPredict predictor bias 0 y (leakPicture predictor K bias 0)) = bias := by
    split_ifs with hflag
    · rfl
    · have hy : y ≠ 0 := fun h => hflag (by rw [h,Nat.zero_mod])
      have hne : y-1+1 ≠ K := fun h => hflag (by
        rw [show y = K by omega,Nat.mod_self])
      simp only [losslessPredict,hy,and_false,if_false,if_true]
      rw [hcolumn,if_neg hne]
  rw [hpredicted,hcolumn,leakDiff,leakRow,rowStep]
  by_cases h : y+1 = K
  · rw [if_pos ⟨rfl,h⟩,if_pos rfl,if_pos rfl,if_pos h]
    omega
  · rw [if_neg (fun hrow => h hrow.2),if_neg h,add_zero]

/-- The other columns. -/
theorem leak_column (hp : 2 ≤ predictor ∧ predictor ≤ 7) (hK : 0 < K) (hx : x ≠ 0) :
    losslessPredict predictor bias x y (leakPicture predictor K bias 0) +
      leakDiff predictor K bias 0 x y = leakPicture predictor K bias 0 x y := by
  by_cases habove : y+1 < K
  · have hflat : losslessPredict predictor bias x y (leakPicture predictor K bias 0) = bias := by
      rw [@losslessPredict_congr x y _ (fun _ _ => bias) predictor bias
        (fun _ => leakPicture_above _ habove) (fun _ => leakPicture_above _ (by omega))
        fun _ _ => leakPicture_above _ (by omega)]
      exact predict_flat (by omega) x y
    rw [hflat,leakPicture_above x habove,leakDiff,if_neg (by omega),add_zero]
  · by_cases hrow : y+1 = K
    · have hstep : losslessPredict predictor bias x y (leakPicture predictor K bias 0) =
          rowStep predictor K bias x := by
        rw [rowStep,if_neg hx]
        split_ifs with hone
        · have hy : y = 0 := by omega
          subst hy
          simp only [losslessPredict,hx,false_and,if_false,if_true]
          exact leakPicture_row _ hrow
        · rw [losslessPredict_interior hx (by omega),leakPicture_row _ hrow,
            leakPicture_above _ (by omega),leakPicture_above _ (by omega)]
      rw [hstep,leakPicture_row x hrow,leakDiff,if_pos ⟨rfl,hrow⟩,add_sub_cancel]
    · have hbelow : K ≤ y := by omega
      obtain ⟨t,rfl⟩ := Nat.exists_eq_add_one_of_ne_zero hx
      rw [losslessPredict_interior hx (by omega),Nat.add_sub_cancel,leakPicture_below t hbelow,
        leakPicture_below (t+1) hbelow,leakBelow_succ hK hbelow,leakDiff,
        if_neg (fun h => hrow h.2),add_zero]

/-- The picture that leaks. -/
theorem pictured_leak (hp : 2 ≤ scan.predictor ∧ scan.predictor ≤ 7)
    (hbias : 3 ≤ scan.sample.restartPredictor ∧
      scan.sample.restartPredictor < 2^scan.sample.bitDepth) (hK : 0 < k*v) :
    Pictured scan (leakPicture scan.predictor (k*v) scan.sample.restartPredictor)
      (leakDiff scan.predictor (k*v) scan.sample.restartPredictor) k v 0 x y := by
  generalize hKdef : k*v = K at *
  generalize hbdef : scan.sample.restartPredictor = bias at *
  have hrange := @leakPicture_bounds scan.predictor K bias hp 0 x y
  refine ⟨leakDiff_small hp _ _ _,?_,by omega,by omega⟩
  rw [hKdef,hbdef]
  by_cases hx : x = 0
  · subst hx
    simp only [true_and]
    exact leak_first_column hp y
  · rw [if_neg fun h => hx h.1]
    exact leak_column hp hK hx

/-! ## The scans -/

theorem decodeUnits_of_run {count : ℕ} {bytes : List ℕ} {t : LosslessRestartTracker} {s : Samples}
    {r : BitReader} (h : runUnits scan count bytes = .ok ((t,s),r)) :
    scan.decodeUnits count bytes = .ok s := by
  show (runUnits scan count bytes >>= fun p => _) = _
  rw [h]
  rfl

theorem coded_isScan (scan : LosslessScan) (d : ℕ → ℕ → ℕ → ℤ) (per k : ℕ) :
    IsScan scan k (codedIntervals scan d per ((scan.unitRows+k-1)/k)) := by
  refine ⟨by simp [codedIntervals],fun bytes hbytes => ?_⟩
  obtain ⟨i,-,rfl⟩ := List.mem_map.mp hbytes
  exact codedInterval_coded scan d per i

/-- A picture decodes to its samples. -/
theorem exists_decoded (hscan : FullScan scan) (hk : 0 < k)
    (hinterval : scan.restartInterval = some (k*scan.unitsPerRow)) {val d : ℕ → ℕ → ℕ → ℤ}
    (hpicture : ∀ c ∈ scan.components, ∀ x y, Pictured scan val d k c.v c.outputIndex x y) :
    ∃ s, scan.decode (scanBytes 0 (codedIntervals scan d (k*scan.unitsPerRow)
      ((scan.unitRows+k-1)/k))) = .ok s ∧ Covers val (Earlier scan scan.units.length) s := by
  have hcount : scan.units.length = scan.unitRows*scan.unitsPerRow := by
    rw [units_eq,List.length_map,List.length_range]
  obtain ⟨t,s,r,hrun,hat⟩ := run_coded hscan hk hinterval (le_of_eq hcount)
    fun X _ Y _ c hc localX _ localY _ => hpicture c hc _ _
  exact ⟨s,decodeUnits_of_run hrun,hat.known⟩

variable {planeRows : ℕ → ℕ}

/-- The differences of the picture that leaks are those of the flat one from the second interval
on. -/
theorem componentBits_leak (hregular : Regular scan planeRows) {Y : ℕ} (hY : k ≤ Y) (X : ℕ)
    {c : ResolvedLosslessComponent} (hc : c ∈ scan.components) :
    componentBits (leakDiff predictor (k*planeRows 0) bias) X Y c =
      componentBits (fun _ _ _ => 0) X Y c := by
  refine List.flatMap_congr fun localY _ => List.flatMap_congr fun localX _ => ?_
  have hzero : leakDiff predictor (k*planeRows 0) bias c.outputIndex (X*c.h+localX)
      (Y*c.v+localY) = 0 := by
    rw [leakDiff,if_neg]
    rintro ⟨ho,hrow⟩
    rw [(hregular c hc).1,ho] at hrow
    have := Nat.mul_le_mul_right (planeRows 0) hY
    omega
  rw [hzero]

theorem codedInterval_leak (hregular : Regular scan planeRows) (hwidth : 0 < scan.unitsPerRow) :
    codedInterval scan (leakDiff predictor (k*planeRows 0) bias) (k*scan.unitsPerRow) 1 =
      codedInterval scan (fun _ _ _ => 0) (k*scan.unitsPerRow) 1 := by
  have hbits : unitsBits scan (leakDiff predictor (k*planeRows 0) bias) (1*(k*scan.unitsPerRow))
      (intervalEnd scan (k*scan.unitsPerRow) 1) = unitsBits scan (fun _ _ _ => 0)
        (1*(k*scan.unitsPerRow)) (intervalEnd scan (k*scan.unitsPerRow) 1) := by
    refine List.flatMap_congr fun n hn => List.flatMap_congr fun c hc => ?_
    refine componentBits_leak hregular ((Nat.le_div_iff_mul_le hwidth).mpr ?_) _ hc
    have := (List.mem_range'_1.mp hn).1
    omega
  rw [codedInterval,codedInterval,hbits]

/-- Two scans that agree on the second interval and differ in its samples. -/
theorem exists_leak (hfull : FullScan scan) (hregular : Regular scan planeRows)
    (hp : 2 ≤ scan.predictor ∧ scan.predictor ≤ 7)
    (hbias : 3 ≤ scan.sample.restartPredictor ∧
      scan.sample.restartPredictor < 2^scan.sample.bitDepth) (hk : 0 < k)
    (hinterval : scan.restartInterval = some (k*scan.unitsPerRow)) (hrows : k < scan.unitRows)
    {c : ResolvedLosslessComponent} (hc : c ∈ scan.components) (ho : c.outputIndex = 0)
    (hwidth : 2 ≤ c.planeWidth) :
    ∃ intervals intervals' s s', IsScan scan k intervals ∧ IsScan scan k intervals' ∧
      1 < intervals.length ∧ intervals[1]? = intervals'[1]? ∧
      scan.decode (scanBytes 0 intervals) = .ok s ∧
      scan.decode (scanBytes 0 intervals') = .ok s' ∧ ¬Agree planeRows k 1 s s' := by
  obtain ⟨hh,hv,hplane,-⟩ := hfull.component c hc
  have hrow : c.v = planeRows 0 := ho ▸ (hregular c hc).1
  rw [hrow] at hv
  have hcolumn : 1/c.h < scan.unitsPerRow := (Nat.div_lt_iff_lt_mul hh).mpr (by omega)
  have hK : 0 < k*planeRows 0 := Nat.mul_pos hk hv
  obtain ⟨s,hs,hflat⟩ := @exists_decoded scan k hfull hk hinterval
    (fun _ _ _ => scan.sample.restartPredictor) (fun _ _ _ => 0)
    fun c _ x y => pictured_flat (by omega) hbias rfl rfl
  obtain ⟨s',hs',hleak⟩ := @exists_decoded scan k hfull hk hinterval
    (leakPicture scan.predictor (k*planeRows 0) scan.sample.restartPredictor)
    (leakDiff scan.predictor (k*planeRows 0) scan.sample.restartPredictor) fun c hc x y => by
      by_cases ho : c.outputIndex = 0
      · have hrow : c.v = planeRows 0 := ho ▸ (hregular c hc).1
        rw [← hrow,ho]
        exact pictured_leak hp hbias (hrow ▸ hK)
      · have hval : leakPicture scan.predictor (k*planeRows 0) scan.sample.restartPredictor
            c.outputIndex = fun _ _ => scan.sample.restartPredictor := by
          funext x y
          rw [leakPicture,if_pos (.inl ho)]
        exact pictured_flat (by omega) hbias hval (if_neg fun h => ho h.1)
  have hintervals : 1 < (scan.unitRows+k-1)/k := (Nat.lt_div_iff_mul_lt hk).mpr (by omega)
  refine ⟨_,_,s,s',coded_isScan scan _ _ k,coded_isScan scan _ _ k,
    by simpa [codedIntervals] using hintervals,?_,hs,hs',fun hagree => ?_⟩
  · simp only [codedIntervals,List.getElem?_map,List.getElem?_range hintervals,Option.map_some]
    rw [codedInterval_leak hregular (Nat.zero_lt_of_lt hcolumn)]
  · -- the second column of the second interval
    have hearlier : Earlier scan scan.units.length 0 1 (k*planeRows 0) := by
      refine ⟨c,hc,ho,by omega,?_⟩
      rw [hrow,Nat.mul_div_cancel _ hv,units_eq,List.length_map,List.length_range]
      have hmul := Nat.mul_le_mul_right scan.unitsPerRow (Nat.succ_le_of_lt hrows)
      rw [Nat.succ_mul] at hmul
      omega
    have hinside : k*planeRows 0/planeRows 0/k = 1 := by
      rw [Nat.mul_div_cancel _ hv,Nat.div_self hk]
    have hvalue := hagree 0 1 _ hinside
    rw [hflat _ _ _ hearlier,hleak _ _ _ hearlier,leakPicture_below 1 (le_refl _),
      Nat.sub_self] at hvalue
    exact absurd hvalue.symm (ne_of_lt (leakBelow_lt hp))

/-! ## The three kinds of loops -/

variable {loop : LosslessLoop} {P : LosslessSample} {width height : ℕ}
  {dcTables : ℕ → HuffmanTable}

/-- The planes of a supported scan are tiled by its units. -/
theorem restartScan_component (hsupports : loop.Supports width height)
    {c : ResolvedLosslessComponent}
    (hc : c ∈ (loop.restartScan P predictor width height k dcTables).components) :
    0 < c.h ∧ 0 < c.v ∧
      c.planeWidth = (loop.restartScan P predictor width height k dcTables).unitsPerRow*c.h ∧
      c.planeHeight = (loop.restartScan P predictor width height k dcTables).unitRows*c.v ∧
      ∃ i, c.dcTable = dcTables i :=
  LosslessLoop.scan_component hsupports hc

/-- The rows of units of a loop. -/
def LosslessLoop.unitRows : LosslessLoop → ℕ → ℕ
  | .gray,height => height
  | .color _,height => height
  | .sampled _ sampling,height => (height+sampling.v-1)/sampling.v

theorem restartScan_unitRows (loop : LosslessLoop) (P : LosslessSample)
    (predictor width height k : ℕ) (dcTables : ℕ → HuffmanTable) :
    (loop.restartScan P predictor width height k dcTables).unitRows = loop.unitRows height := by
  cases loop <;> rfl

/-- One column of pixels is one column of every plane. -/
theorem planeWidth_le (hwidth : width ≤ 1)
    {c : ResolvedLosslessComponent}
    (hc : c ∈ (loop.restartScan P predictor width height k dcTables).components) :
    c.planeWidth ≤ 1 := by
  cases loop with
  | gray =>
      obtain rfl := List.mem_singleton.mp hc
      exact hwidth
  | color order =>
      obtain ⟨i,-,rfl⟩ := List.mem_map.mp hc
      exact hwidth
  | sampled order sampling =>
      obtain ⟨i,-,rfl⟩ := List.mem_map.mp hc
      unfold sampledComponent
      split_ifs
      · exact hwidth
      · exact (show (width+1)/2 ≤ 1 by omega)

/-- Any predictor but the left neighbour lets the second interval depend on the first. -/
theorem not_independent (hp : 2 ≤ predictor ∧ predictor ≤ 7) (hk : 0 < k) (hwidth : 2 ≤ width)
    (hsupports : loop.Supports width height) (hrows : k < loop.unitRows height) :
    ¬Independent loop predictor width height k := by
  intro hindependent
  obtain ⟨table,haccepted,htable⟩ := exists_threeTable
  have hall := hindependent .u8 (by simp) (fun _ => table) fun _ => ⟨threeCodes,haccepted⟩
  obtain ⟨hpredictor,hinterval⟩ := restartScan_fields loop .u8 predictor width height k
    fun _ => table
  rw [← restartScan_unitsPerRow loop .u8 predictor width height k fun _ => table] at hinterval
  have hfull : FullScan (loop.restartScan .u8 predictor width height k fun _ => table) := by
    refine ⟨fun c hc => ?_,fun c hc idx => ?_⟩
    · obtain ⟨hh,hv,hw,hheight,-⟩ := restartScan_component hsupports hc
      exact ⟨hh,hv,hw,hheight⟩
    · obtain ⟨-,-,-,-,i,heq⟩ := restartScan_component hsupports hc
      rw [heq]
      exact htable idx
  have hsample : (loop.restartScan .u8 predictor width height k fun _ => table).sample = .u8 := by
    cases loop <;> rfl
  obtain ⟨c,hc,ho,hplane⟩ : ∃ c ∈ (loop.restartScan .u8 predictor width height k
      fun _ => table).components, c.outputIndex = 0 ∧ 2 ≤ c.planeWidth := by
    cases loop with
    | gray => exact ⟨_,List.mem_singleton_self _,rfl,hwidth⟩
    | color order =>
        exact ⟨_,List.mem_map_of_mem (order.mem_outputIndices.mpr (Nat.succ_pos 2)),rfl,hwidth⟩
    | sampled order sampling =>
        exact ⟨sampledComponent width height sampling (fun _ => table) 0,
          List.mem_map_of_mem (order.mem_outputIndices.mpr (Nat.succ_pos 2)),rfl,hwidth⟩
  obtain ⟨intervals,intervals',s,s',hscan,hscan',hone,hsame,hs,hs',hdiffer⟩ := exists_leak hfull
    (regular_restartScan loop .u8 predictor width height k _) (hpredictor.symm ▸ hp)
    (by rw [hsample]; decide) hk hinterval (by rwa [restartScan_unitRows]) hc ho hplane
  exact hdiffer (hall _ _ hscan hscan' 1 hone hsame s s' hs hs')

/-- The intervals of a lossless scan, `k` rows of units in each, are decoded independently of each
other exactly when the predictor is the left neighbour, the rows have one column, or there is
one interval. -/
theorem independent_iff (loop : LosslessLoop) (predictor width height k : ℕ)
    (hp : 1 ≤ predictor ∧ predictor ≤ 7) (hk : 0 < k) (hsupports : loop.Supports width height) :
    Independent loop predictor width height k ↔
      predictor = 1 ∨ width ≤ 1 ∨ loop.unitRows height ≤ k := by
  constructor
  · intro h
    by_contra hcontra
    push Not at hcontra
    exact not_independent (by omega) hk (by omega) hsupports hcontra.2.2 h
  · intro hcondition P _ dcTables _ intervals intervals' hscan hscan' j hj hsame s s' hs hs'
    obtain ⟨hpredictor,hinterval⟩ := restartScan_fields loop P predictor width height k dcTables
    rw [← restartScan_unitsPerRow loop P predictor width height k dcTables] at hinterval
    refine agree_of_isScan (regular_restartScan loop P predictor width height k dcTables) hk
      hinterval ?_ hscan hscan' hj hsame hs hs'
    rw [hpredictor,restartScan_unitRows]
    rcases hcondition with h | h | h
    · exact .inl (.inl h)
    · refine .inl (.inr fun c hc => ?_)
      exact planeWidth_le h hc
    · exact .inr h

/-- Two rows of two samples with the row above as predictor. -/
theorem gray_not_independent : ¬Independent .gray 2 2 2 1 := fun h =>
  absurd ((independent_iff .gray 2 2 2 1 (by decide) Nat.one_pos trivial).mp h) (by decide)

/-- Two such scans with the same second interval: the first interval shows in the last sample. -/
theorem gray_interval_leaks : ∃ table, HuffmanTable.fromRaw threeCodes .dc = .ok table ∧
    entropyCoded false [0x3F] ∧ entropyCoded false [0x93] ∧
    ((losslessGray .u8 2 2 2 (some 2) table).decode (scanBytes 0 [[0x3F],[0x3F]])).map
      (fun s => s 0 1 1) = .ok 128 ∧
    ((losslessGray .u8 2 2 2 (some 2) table).decode (scanBytes 0 [[0x93],[0x3F]])).map
      (fun s => s 0 1 1) = .ok 126 :=
  ⟨_,rfl,by simp [entropyCoded],by simp [entropyCoded],by decide +kernel,by decide +kernel⟩

end J2kNative.LosslessIntervals
