import J2kNative.LosslessScan
import J2kNative.ReaderLocality
import J2kNative.CountedLoops
import J2kNative.Fallible

/-!
# Restart intervals of lossless scans

A scan with restart intervals is the entropy bytes of the intervals with the
restart markers between them. Two runs that agree on the bytes of one interval
enter it with readers that are alike up to its end; what they decode there is the
same as long as no prediction reads a row above the interval.
-/
namespace J2kNative.LosslessRestart
open BitReader

/-! ## The bytes of a scan -/

/-- The code of the marker that ends interval `i`. -/
def markerAfter (i : ℕ) (later : List (List ℕ)) : ℕ :=
  if later = [] then 0xD9 else 0xD0 ||| i % 8

/-- The intervals from number `i` on, each with the marker after it; the last is the end of
the image. -/
def scanBytes : ℕ → List (List ℕ) → List ℕ
  | _,[] => []
  | i,interval::later => interval ++ 0xFF::markerAfter i later::scanBytes (i+1) later

theorem restart_code (i : ℕ) :
    (0xD0 ||| i % 8) ≠ 0 ∧ (0xD0 ||| i % 8) ≠ 0xFF ∧ (0xD0 ||| i % 8) ≠ 0xD9 := by
  have : i % 8 < 8 := Nat.mod_lt _ (by decide)
  generalize i % 8 = c at this
  revert c
  decide

theorem markerAfter_ne (i : ℕ) (later : List (List ℕ)) :
    markerAfter i later ≠ 0 ∧ markerAfter i later ≠ 0xFF := by
  unfold markerAfter
  split_ifs
  · decide
  · exact ⟨(restart_code i).1,(restart_code i).2.1⟩

/-- The reader is in interval `i`: the marker ahead is the one that ends it. -/
def InInterval (intervals : List (List ℕ)) (i : ℕ) (r : BitReader) : Prop :=
  i < intervals.length ∧ r.allowEofPadding = false ∧
    r.next = some (markerAfter i (intervals.drop (i+1)),scanBytes (i+1) (intervals.drop (i+1)))

/-- The reader is at the first byte of interval `i` and has fetched nothing. -/
def AtInterval (intervals : List (List ℕ)) (i : ℕ) (r : BitReader) : Prop :=
  r.bytes.drop r.pos = scanBytes i (intervals.drop i) ∧ r.acc = 0 ∧ r.bits = 0 ∧
    r.syntheticBits = 0 ∧ r.marker = none ∧ r.allowEofPadding = false

theorem atInterval_new (intervals : List (List ℕ)) :
    AtInterval intervals 0 (BitReader.new (scanBytes 0 intervals)) :=
  ⟨rfl,rfl,rfl,rfl,rfl,rfl⟩

variable {intervals intervals' : List (List ℕ)} {i : ℕ} {r : BitReader}

/-- What is ahead of a reader at an interval. -/
theorem AtInterval.ahead_next (h : AtInterval intervals i r) (hi : i < intervals.length)
    (hcoded : entropyCoded false (intervals.get ⟨i,hi⟩)) :
    r.ahead = (splitAhead false (intervals.get ⟨i,hi⟩)).1 ∧
      r.next = some (markerAfter i (intervals.drop (i+1)),
        scanBytes (i+1) (intervals.drop (i+1))) := by
  obtain ⟨hbytes,-,-,-,hmarker,-⟩ := h
  have hsplit := splitAhead_append (markerAfter_ne i (intervals.drop (i+1)))
    (scanBytes (i+1) (intervals.drop (i+1))) _ false hcoded
  have hdrop : intervals.drop i = intervals.get ⟨i,hi⟩::intervals.drop (i+1) :=
    List.drop_eq_getElem_cons hi
  rw [hdrop,scanBytes] at hbytes
  rw [ahead,next,hmarker,hbytes,hsplit]
  exact ⟨rfl,rfl⟩

theorem AtInterval.inInterval (h : AtInterval intervals i r) (hi : i < intervals.length)
    (hcoded : entropyCoded false (intervals.get ⟨i,hi⟩)) : InInterval intervals i r :=
  ⟨hi,h.2.2.2.2.2,(h.ahead_next hi hcoded).2⟩

theorem InInterval.kept {s : BitReader} (h : InInterval intervals i r) (hk : Kept r s) :
    InInterval intervals i s := by
  obtain ⟨hi,hpad,hnext⟩ := h
  exact ⟨hi,hk.allowEofPadding.trans hpad,hk.next.trans hnext⟩

/-- Readers at an interval with the same bytes are alike up to its end. -/
theorem alike_of_atInterval {s : BitReader} (hr : AtInterval intervals i r)
    (hs : AtInterval intervals' i s) (hi : i < intervals.length)
    (hlength : intervals.length = intervals'.length)
    (hsame : intervals[i]? = intervals'[i]?)
    (hcoded : entropyCoded false (intervals.get ⟨i,hi⟩)) : Alike r s := by
  have hi' : i < intervals'.length := hlength ▸ hi
  have hget : intervals.get ⟨i,hi⟩ = intervals'.get ⟨i,hi'⟩ := by
    rw [List.getElem?_eq_getElem hi,List.getElem?_eq_getElem hi'] at hsame
    exact Option.some.inj hsame
  obtain ⟨hahead,hnext⟩ := hr.ahead_next hi hcoded
  obtain ⟨hahead',hnext'⟩ := hs.ahead_next hi' (hget ▸ hcoded)
  obtain ⟨-,hacc,hbits,hsynthetic,hmarker,hpad⟩ := hr
  obtain ⟨-,hacc',hbits',hsynthetic',hmarker',hpad'⟩ := hs
  have hlast : intervals.drop (i+1) = [] ↔ intervals'.drop (i+1) = [] := by
    rw [List.drop_eq_nil_iff,List.drop_eq_nil_iff,hlength]
  refine ⟨by rw [hacc,hacc'],by rw [hbits,hbits'],by rw [hsynthetic,hsynthetic'],?_,
    by rw [hmarker,hmarker'],?_,hpad,hpad'⟩
  · rw [hahead,hahead',hget]
  · rw [hnext,hnext']
    simp only [Option.map_some,markerAfter,hlast]

/-! ## Restarts -/

theorem takeMarker_next {m : ℕ} {s : BitReader} (h : r.takeMarker = some (m,s)) :
    ∃ rest, r.next = some (m,rest) ∧ s.bytes.drop s.pos = rest ∧ s.marker = none ∧
      s.allowEofPadding = r.allowEofPadding := by
  unfold takeMarker at h
  cases hmarker : r.marker with
  | none => simp [hmarker] at h
  | some m' =>
      rw [hmarker,Option.map_some,Option.some.injEq,Prod.mk.injEq] at h
      obtain ⟨rfl,rfl⟩ := h
      exact ⟨_,by rw [next,hmarker],rfl,rfl,rfl⟩

/-- A restart that succeeds takes the reader from one interval to the next. -/
theorem consumeLosslessRestart_spec {index total expected value : ℕ} {s : BitReader}
    (hr : InInterval intervals i r)
    (h : consumeLosslessRestart index total expected r = .ok (value,s)) :
    (0xD0 ||| expected) = markerAfter i (intervals.drop (i+1)) ∧ value = (expected+1) &&& 7 ∧
      AtInterval intervals (i+1) s := by
  obtain ⟨hi,hpad,hnext⟩ := hr
  change consumeRestartMarker expected index total r.resetAtRestart = .ok (value,s) at h
  unfold consumeRestartMarker at h
  dsimp only at h
  generalize hprobe : (if r.resetAtRestart.marker = none ∧ r.resetAtRestart.bits ≤ 7 then
    r.resetAtRestart.refillOneByte.2 else r.resetAtRestart) = t at h
  have ht : t.next = r.next ∧ t.allowEofPadding = false := by
    have hrefill := (show Alike r.resetAtRestart r.resetAtRestart from
      ⟨rfl,rfl,rfl,rfl,rfl,rfl,hpad,hpad⟩).refillOneByte.2.2.1
    rw [← hprobe]
    split_ifs
    · exact ⟨hrefill.next,hrefill.allowEofPadding.trans hpad⟩
    · exact ⟨rfl,hpad⟩
  cases htake : t.takeMarker with
  | none =>
      rw [htake] at h
      cases h
  | some p =>
      obtain ⟨m,u⟩ := p
      rw [htake] at h
      dsimp only at h
      obtain ⟨rest,hnext',hdrop,hnone,hpad'⟩ := takeMarker_next htake
      by_cases hm : m ≠ 0xD0 ||| expected
      · rw [if_pos hm] at h
        cases h
      · rw [if_neg hm] at h
        obtain ⟨hvalue,hreader⟩ := Prod.mk.inj (Except.ok.inj h)
        rw [ht.1,hnext] at hnext'
        obtain ⟨hcode,hrest⟩ := Prod.mk.inj (Option.some.inj hnext')
        refine ⟨(not_not.mp hm).symm.trans hcode.symm,hvalue.symm,?_⟩
        rw [← hreader]
        exact ⟨hdrop.trans hrest.symm,rfl,rfl,rfl,hnone,hpad'.trans ht.2⟩

/-! ## Units -/

/-- The sampling of the scan: `v` rows of a plane for each row of units. -/
def Regular (scan : LosslessScan) (v : ℕ → ℕ) : Prop :=
  ∀ c ∈ scan.components, c.v = v c.outputIndex ∧ 0 < c.h ∧ 0 < c.v

/-- The buffers hold the same samples in interval `j`, of `k` rows of units. -/
def Agree (v : ℕ → ℕ) (k j : ℕ) (s s' : Samples) : Prop :=
  ∀ c x y, y/v c/k = j → s c x y = s' c x y

theorem Agree.set {v : ℕ → ℕ} {k j : ℕ} {s s' : Samples} (h : Agree v k j s s') (c x y : ℕ)
    (value : ℤ) : Agree v k j (s.set c x y value) (s'.set c x y value) := by
  intro d i l hrow
  unfold Samples.set
  split_ifs
  · rfl
  · exact h d i l hrow

/-- The prediction reads no row above the interval: by the left neighbour, or in the first
column below the first row. -/
theorem losslessPredict_agree {v : ℕ → ℕ} {k j c x y predictor : ℕ} {bias : ℤ} {s s' : Samples}
    (h : Agree v k j s s') (hv : 0 < v c) (hk : 0 < k) (hrow : y/v c/k = j)
    (hleft : predictor = 1 ∨ x = 0) (hfirst : x = 0 → y ≠ j*k*v c) :
    losslessPredict predictor bias x y (s c) = losslessPredict predictor bias x y (s' c) := by
  unfold losslessPredict
  by_cases hx : x = 0
  · by_cases hy : y = 0
    · simp [hx,hy]
    · have habove : (y-1)/v c/k = j := by
        have hpos : 0 < v c*k := Nat.mul_pos hv hk
        have hne := hfirst hx
        rw [Nat.div_div_eq_div_mul] at hrow ⊢
        rw [Nat.mul_assoc,Nat.mul_comm k] at hne
        have hlow := Nat.div_mul_le_self y (v c*k)
        rw [hrow] at hlow
        have hhigh := (Nat.div_lt_iff_lt_mul hpos).mp (show y/(v c*k) < j+1 by omega)
        refine Nat.div_eq_of_lt_le (by omega) (by omega)
      simp only [hx,hy,true_and,if_false,if_true]
      exact h c 0 (y-1) habove
  · by_cases hy : y = 0
    · simp only [hx,hy,false_and,if_false,if_true]
      exact h c (x-1) 0 (hy ▸ hrow)
    · simp only [hx,hy,false_and,if_false]
      rw [hleft.resolve_right hx]
      exact h c (x-1) y hrow

theorem local_fromI32 (P : LosslessSample) (value : ℤ) : Local (P.fromI32 value) :=
  Matches.ite (matches_pure rfl) (matches_throw _)

variable {scan : LosslessScan} {v : ℕ → ℕ} {k j : ℕ} {s s' : Samples}

/-- A sample predicted alike is decoded alike. -/
theorem decodePlaneSample_matches {R : Samples → Samples → Prop}
    {c : ResolvedLosslessComponent} {x y : ℕ} {first : Bool}
    (hpredict : first = true ∨
      losslessPredict scan.predictor scan.sample.restartPredictor x y (s c.outputIndex) =
        losslessPredict scan.predictor scan.sample.restartPredictor x y (s' c.outputIndex))
    (hset : ∀ value, R (s.set c.outputIndex x y value) (s'.set c.outputIndex x y value)) :
    Matches R (scan.decodePlaneSample c x y first s) (scan.decodePlaneSample c x y first s') := by
  unfold LosslessScan.decodePlaneSample
  have hpredicted : (if first then scan.sample.restartPredictor else
      losslessPredict scan.predictor scan.sample.restartPredictor x y (s c.outputIndex)) =
      if first then scan.sample.restartPredictor else
        losslessPredict scan.predictor scan.sample.restartPredictor x y (s' c.outputIndex) := by
    rcases hpredict with h | h
    · rw [h,if_pos rfl,if_pos rfl]
    · rw [h]
  rw [hpredicted]
  refine Matches.bind c.dcTable.local_decodeFastDc fun diff diff' h => ?_
  subst h
  refine Matches.bind (local_fromI32 _ _) fun sample sample' h => ?_
  subst h
  exact matches_pure (hset sample)

/-- A MCU whose samples are handled alike is decoded alike. -/
theorem decodeMcu_matches {R : Samples → Samples → Prop} {mcuX mcuY : ℕ} {first : Bool}
    (hsample : ∀ c ∈ scan.components, ∀ localX < c.h, ∀ localY < c.v, ∀ s s', R s s' →
      mcuX*c.h+localX < c.planeWidth → Matches R
        (scan.decodePlaneSample c (mcuX*c.h+localX) (mcuY*c.v+localY)
          (first && localX = 0 && localY = 0) s)
        (scan.decodePlaneSample c (mcuX*c.h+localX) (mcuY*c.v+localY)
          (first && localX = 0 && localY = 0) s')) (h : R s s') :
    Matches R (scan.decodeMcu mcuX mcuY first s) (scan.decodeMcu mcuX mcuY first s') := by
  refine Matches.foldlM (fun c hc s s' h => ?_) h
  refine Matches.foldlM (fun localY hy s s' h => ?_) h
  refine Matches.foldlM (fun localX hx s s' h => ?_) h
  by_cases hout : c.planeWidth ≤ mcuX*c.h+localX ∨ c.planeHeight ≤ mcuY*c.v+localY
  · dsimp only
    rw [if_pos hout,if_pos hout]
    exact matches_pure h
  · dsimp only
    rw [if_neg hout,if_neg hout]
    exact hsample c hc localX (List.mem_range.mp hx) localY (List.mem_range.mp hy) s s' h
      (by omega)

/-- A MCU writes only its own rows, and leaves the marker ahead. -/
theorem decodeMcu_frame (hscan : Regular scan v) (mcuX mcuY : ℕ) (first : Bool) (s : Samples) :
    Matches (fun a a' => a = a' ∧ ∀ c x y, y/v c ≠ mcuY → a c x y = s c x y)
      (scan.decodeMcu mcuX mcuY first s) (scan.decodeMcu mcuX mcuY first s) := by
  refine decodeMcu_matches (fun c hc localX hx localY hy a a' h _ => ?_) ⟨rfl,fun _ _ _ _ => rfl⟩
  obtain ⟨rfl,hframe⟩ := h
  refine decodePlaneSample_matches (.inr rfl) fun value => ⟨rfl,fun d i l hrow => ?_⟩
  obtain ⟨hcv,-,hpos⟩ := hscan c hc
  unfold Samples.set
  rw [if_neg]
  · exact hframe d i l hrow
  · rintro ⟨rfl,-,rfl⟩
    refine hrow ?_
    rw [← hcv,Nat.mul_comm,Nat.mul_add_div hpos,Nat.div_eq_of_lt hy,Nat.add_zero]

/-- A MCU of the interval is decoded alike, when the predictor reads the left neighbour or the
planes are one column wide. -/
theorem decodeMcu_agree (hscan : Regular scan v) (hk : 0 < k) (mcuX mcuY : ℕ) (first : Bool)
    (hrow : mcuY/k = j) (hfirst : mcuX = 0 → mcuY = j*k → first = true)
    (hleft : scan.predictor = 1 ∨ ∀ c ∈ scan.components, c.planeWidth ≤ 1)
    (h : Agree v k j s s') :
    Matches (Agree v k j) (scan.decodeMcu mcuX mcuY first s)
      (scan.decodeMcu mcuX mcuY first s') := by
  refine decodeMcu_matches (fun c hc localX hx localY hy s s' h hwidth => ?_) h
  obtain ⟨hcv,hch,hpos⟩ := hscan c hc
  have hdiv : (mcuY*c.v+localY)/v c.outputIndex/k = j := by
    rw [← hcv,Nat.mul_comm,Nat.mul_add_div hpos,Nat.div_eq_of_lt hy,Nat.add_zero,hrow]
  refine decodePlaneSample_matches ?_ fun value => h.set _ _ _ value
  by_cases hstart : mcuX*c.h+localX = 0 ∧ mcuY*c.v+localY = j*k*v c.outputIndex
  · -- the first sample of the interval
    left
    obtain ⟨hx0,hy0⟩ := hstart
    rw [← hcv] at hy0
    obtain ⟨hmcuY,rfl⟩ := CountedLoops.cell_inj hy hpos (hy0.trans (Nat.add_zero _).symm)
    have hlocalX : localX = 0 := by omega
    have hmcuX : mcuX = 0 := (Nat.mul_eq_zero.mp (show mcuX*c.h = 0 by omega)).resolve_right
      (by omega)
    rw [hfirst hmcuX hmcuY,hlocalX]
    rfl
  · right
    refine losslessPredict_agree h (hcv ▸ hpos) hk hdiv ?_ fun hx0 hy0 => hstart ⟨hx0,hy0⟩
    refine hleft.imp_right fun hone => ?_
    have := hone c hc
    omega

/-! ## Runs -/

/-- The units in order: unit `n` is at column `n % unitsPerRow`. -/
theorem units_eq (scan : LosslessScan) :
    scan.units = (List.range (scan.unitRows*scan.unitsPerRow)).map
      fun n => (n % scan.unitsPerRow,n/scan.unitsPerRow) := by
  unfold LosslessScan.units
  induction scan.unitRows with
  | zero => simp
  | succ rows ih =>
      rw [List.range_succ,List.flatMap_append,ih,Nat.succ_mul,List.range_add,List.map_append,
        List.map_map,List.flatMap_singleton]
      refine congrArg _ (List.map_congr_left fun x hx => ?_)
      have hlt := List.mem_range.mp hx
      simp only [Function.comp]
      rw [CountedLoops.cell_div _ hlt,CountedLoops.cell_mod _ hlt]

/-- The state after the first units of the scan. -/
def runUnits (scan : LosslessScan) (count : ℕ) (bytes : List ℕ) :
    Except JpegError ((LosslessRestartTracker × Samples) × BitReader) :=
  (scan.units.take count).foldlM scan.decodeUnit (scan.tracker,fun _ _ _ => 0)
    (BitReader.new bytes)

theorem decodeUnits_ok {count : ℕ} {bytes : List ℕ}
    (h : scan.decodeUnits count bytes = .ok s) :
    ∃ t r, runUnits scan count bytes = .ok ((t,s),r) := by
  obtain ⟨⟨⟨t,s'⟩,r⟩,hrun,h⟩ := Fallible.bind_eq_ok.mp h
  obtain rfl := Except.ok.inj h
  exact ⟨t,r,hrun⟩

theorem take_units_succ {n : ℕ} (hn : n < scan.unitRows*scan.unitsPerRow) :
    scan.units.take (n+1) =
      scan.units.take n ++ [(n % scan.unitsPerRow,n/scan.unitsPerRow)] := by
  rw [List.take_add_one,units_eq,List.getElem?_map,List.getElem?_range hn]
  rfl

/-- A run of one more unit. -/
theorem runUnits_succ {n : ℕ} {bytes : List ℕ} (hn : n < scan.unitRows*scan.unitsPerRow)
    {state : LosslessRestartTracker × Samples} {r : BitReader}
    (h : runUnits scan (n+1) bytes = .ok (state,r)) :
    ∃ state' r', runUnits scan n bytes = .ok (state',r') ∧
      scan.decodeUnit state' (n % scan.unitsPerRow,n/scan.unitsPerRow) r' = .ok (state,r) := by
  unfold runUnits at h
  rw [take_units_succ hn,List.foldlM_append] at h
  obtain ⟨⟨state',r'⟩,hrun,h⟩ := Fallible.bind_eq_ok.mp h
  refine ⟨state',r',hrun,?_⟩
  dsimp only at h
  rw [List.foldlM_cons] at h
  obtain ⟨⟨state'',r''⟩,hunit,h⟩ := Fallible.bind_eq_ok.mp h
  rw [hunit]
  exact h

theorem runUnits_step {n : ℕ} {bytes : List ℕ} (hn : n < scan.unitRows*scan.unitsPerRow)
    {state : LosslessRestartTracker × Samples} {r : BitReader}
    {result : (LosslessRestartTracker × Samples) × BitReader}
    (h : runUnits scan n bytes = .ok (state,r))
    (hunit : scan.decodeUnit state (n % scan.unitsPerRow,n/scan.unitsPerRow) r = .ok result) :
    runUnits scan (n+1) bytes = .ok result := by
  unfold runUnits at h ⊢
  rw [take_units_succ hn,List.foldlM_append]
  show (List.foldlM scan.decodeUnit _ _ _ >>= fun p => _) = _
  rw [h]
  show (scan.decodeUnit state _ r >>= fun p => _) = _
  rw [hunit]
  rfl

theorem runUnits_step_error {n : ℕ} {bytes : List ℕ} (hn : n < scan.unitRows*scan.unitsPerRow)
    {state : LosslessRestartTracker × Samples} {r : BitReader} {e : JpegError}
    (h : runUnits scan n bytes = .ok (state,r))
    (hunit : scan.decodeUnit state (n % scan.unitsPerRow,n/scan.unitsPerRow) r = .error e) :
    runUnits scan (n+1) bytes = .error e := by
  unfold runUnits at h ⊢
  rw [take_units_succ hn,List.foldlM_append]
  show (List.foldlM scan.decodeUnit _ _ _ >>= fun p => _) = _
  rw [h]
  show (scan.decodeUnit state _ r >>= fun p => _) = _
  rw [hunit]
  rfl

theorem runUnits_error {n : ℕ} {bytes : List ℕ} (hn : n < scan.unitRows*scan.unitsPerRow)
    {e : JpegError} (h : runUnits scan n bytes = .error e) :
    runUnits scan (n+1) bytes = .error e := by
  unfold runUnits at h ⊢
  rw [take_units_succ hn,List.foldlM_append]
  show (List.foldlM scan.decodeUnit _ _ _ >>= fun p => _) = _
  rw [h]
  rfl

/-- One unit: the restart that is due, then the MCU. -/
theorem decodeUnit_ok {t t' : LosslessRestartTracker} {unit : ℕ × ℕ} {r r' : BitReader}
    (h : scan.decodeUnit (t,s) unit r = .ok ((t',s'),r')) :
    ∃ u q, t.restarted (unit.2*scan.unitsPerRow+unit.1) r = .ok (u,q) ∧
      scan.decodeMcu unit.1 unit.2 u.isFirst s q = .ok (s',r') ∧ t' = u.finishUnit := by
  obtain ⟨⟨u,q⟩,hrestart,h⟩ := Fallible.bind_eq_ok.mp h
  obtain ⟨⟨a,q'⟩,hmcu,h⟩ := Fallible.bind_eq_ok.mp h
  obtain ⟨hstate,rfl⟩ := Prod.mk.inj (Except.ok.inj h)
  obtain ⟨rfl,rfl⟩ := Prod.mk.inj hstate
  exact ⟨u,q,hrestart,hmcu,rfl⟩

/-- The tracker between units, `per` units to an interval. -/
def trackerAt (scan : LosslessScan) (per n : ℕ) : LosslessRestartTracker :=
  { scan.tracker with
    unitsSinceRestart := if n = 0 then 0 else (n-1) % per+1
    expectedRst := (n-1)/per % 8 }

/-- What holds before unit `n`: the tracker counts, and the reader is in the interval of the
unit before. -/
structure Before (scan : LosslessScan) (per : ℕ) (intervals : List (List ℕ)) (n : ℕ)
    (t : LosslessRestartTracker) (r : BitReader) : Prop where
  tracker : t = trackerAt scan per n
  start : n = 0 → AtInterval intervals 0 r
  inside : 0 < n → InInterval intervals ((n-1)/per) r

/-- What holds of unit `n` after the restart that may be due. -/
structure Entered (per : ℕ) (intervals : List (List ℕ)) (n : ℕ) (u : LosslessRestartTracker)
    (r q : BitReader) : Prop where
  inside : InInterval intervals (n/per) q
  start : n % per = 0 → AtInterval intervals (n/per) q
  kept : n % per ≠ 0 → q = r
  first : u.isFirst = decide (n % per = 0)

variable {n per : ℕ} {t u : LosslessRestartTracker} {q : BitReader}

theorem entered_of_restarted (hper : 0 < per) (hinterval : scan.restartInterval = some per)
    (hcoded : ∀ i (hi : i < intervals.length), entropyCoded false (intervals.get ⟨i,hi⟩))
    (hpos : 0 < intervals.length) (hb : Before scan per intervals n t r) {index : ℕ}
    (h : t.restarted index r = .ok (u,q)) :
    Entered per intervals n u r q ∧ u.finishUnit = trackerAt scan per (n+1) := by
  have hscan : scan.tracker.restartInterval = per := by
    simp [LosslessScan.tracker,LosslessRestartTracker.new,hinterval]
  have hrestart : t.restartInterval = per := by
    rw [hb.tracker]
    exact hscan
  have hsince : t.unitsSinceRestart = if n = 0 then 0 else (n-1) % per+1 := by
    rw [hb.tracker]
    rfl
  have hexpected : t.expectedRst = (n-1)/per % 8 := by
    rw [hb.tracker]
    rfl
  unfold LosslessRestartTracker.restarted at h
  rw [hrestart] at h
  by_cases hdue : 0 < n ∧ n % per = 0
  · obtain ⟨hn,hzero⟩ := hdue
    obtain ⟨hdiv,hmod⟩ := (CountedLoops.pred_div_mod hper hn).1 hzero
    rw [if_neg (by omega),hmod] at hsince
    rw [if_pos ⟨hper,hsince⟩] at h
    obtain ⟨⟨value,q'⟩,hconsume,h⟩ := Fallible.bind_eq_ok.mp h
    obtain ⟨hu,hq⟩ := Prod.mk.inj (Except.ok.inj h)
    rw [← hu,← hq]
    obtain ⟨hcode,hvalue,hat⟩ := consumeLosslessRestart_spec (hb.inside hn) hconsume
    have hmore : (n-1)/per+1 < intervals.length := by
      by_contra hle
      rw [markerAfter,if_pos (List.drop_eq_nil_of_le (by omega)),hexpected] at hcode
      exact (restart_code _).2.2 hcode
    rw [← hdiv] at hat hmore
    refine ⟨⟨hat.inInterval hmore (hcoded _ hmore),fun _ => hat,fun hne => absurd hzero hne,?_⟩,?_⟩
    · simp [LosslessRestartTracker.isFirst,hper,hzero]
    · have hnext : n/per % 8 = value := by
        rw [hvalue,hexpected,hdiv,show (7:ℕ) = 2^3-1 by norm_num,Nat.and_two_pow_sub_one_eq_mod]
        omega
      rw [hb.tracker]
      simp only [LosslessRestartTracker.finishUnit,trackerAt,Nat.add_sub_cancel,hzero,hnext]
      simp [hscan]
  · have hnot : ¬(0 < per ∧ t.unitsSinceRestart = per) := by
      rintro ⟨-,heq⟩
      rw [hsince] at heq
      split_ifs at heq with hn
      · omega
      · have hne : n % per ≠ 0 := fun hzero => hdue ⟨Nat.pos_of_ne_zero hn,hzero⟩
        have := (CountedLoops.pred_div_mod hper (Nat.pos_of_ne_zero hn)).2 hne
        have := Nat.mod_lt n hper
        omega
    rw [if_neg hnot] at h
    obtain ⟨rfl,rfl⟩ := Prod.mk.inj (Except.ok.inj h)
    by_cases hn : n = 0
    · subst hn
      have hat := hb.start rfl
      rw [Nat.zero_div,Nat.zero_mod] at *
      refine ⟨⟨?_,fun _ => ?_,fun h => absurd rfl h,?_⟩,?_⟩
      · rw [Nat.zero_div]
        exact hat.inInterval hpos (hcoded 0 hpos)
      · rw [Nat.zero_div]
        exact hat
      · simp [LosslessRestartTracker.isFirst,hrestart,hper,hsince]
      · rw [hb.tracker]
        simp [LosslessRestartTracker.finishUnit,trackerAt]
    · have hne : n % per ≠ 0 := fun hzero => hdue ⟨Nat.pos_of_ne_zero hn,hzero⟩
      obtain ⟨hdiv,hmod⟩ := (CountedLoops.pred_div_mod hper (Nat.pos_of_ne_zero hn)).2 hne
      refine ⟨⟨?_,fun h => absurd h hne,fun _ => rfl,?_⟩,?_⟩
      · rw [hdiv]
        exact hb.inside (Nat.pos_of_ne_zero hn)
      · rw [if_neg hn] at hsince
        simp [LosslessRestartTracker.isFirst,hrestart,hper,hsince,hne]
      · rw [hb.tracker]
        simp only [LosslessRestartTracker.finishUnit,trackerAt,if_neg hn,Nat.add_sub_cancel,hmod,
          hdiv]
        simp

/-- The invariant of a run. -/
theorem before_of_run (hscan : Regular scan v) (hper : 0 < per)
    (hinterval : scan.restartInterval = some per)
    (hcoded : ∀ i (hi : i < intervals.length), entropyCoded false (intervals.get ⟨i,hi⟩))
    (hpos : 0 < intervals.length) (hn : n ≤ scan.unitRows*scan.unitsPerRow)
    (h : runUnits scan n (scanBytes 0 intervals) = .ok ((t,s),r)) :
    Before scan per intervals n t r := by
  induction n generalizing t s r with
  | zero =>
      obtain ⟨hstate,rfl⟩ := Prod.mk.inj (Except.ok.inj h)
      obtain ⟨rfl,-⟩ := Prod.mk.inj hstate
      exact ⟨by simp [trackerAt,LosslessScan.tracker,LosslessRestartTracker.new],
        fun _ => atInterval_new intervals,nofun⟩
  | succ n ih =>
      obtain ⟨⟨t',s'⟩,r',hrun,hunit⟩ := runUnits_succ (by omega) h
      have hb := ih (by omega) hrun
      obtain ⟨u,q,hrestart,hmcu,rfl⟩ := decodeUnit_ok hunit
      obtain ⟨hentered,htracker⟩ := entered_of_restarted hper hinterval hcoded hpos hb hrestart
      have hframe := decodeMcu_frame hscan (n % scan.unitsPerRow) (n/scan.unitsPerRow) u.isFirst s' q
        q ⟨rfl,rfl,rfl,rfl,rfl,rfl,hentered.inside.2.1,hentered.inside.2.1⟩
      rw [hmcu] at hframe
      refine ⟨htracker,nofun,fun _ => ?_⟩
      rw [Nat.add_sub_cancel]
      exact hentered.inside.kept hframe.2.2.1

/-- Two runs over scans with the same interval `j` agree there, when no prediction leaves the
interval. -/
theorem runs_agree (hscan : Regular scan v) (hk : 0 < k) (hwidth : 0 < scan.unitsPerRow)
    (hinterval : scan.restartInterval = some (k*scan.unitsPerRow))
    (hleft : scan.predictor = 1 ∨ ∀ c ∈ scan.components, c.planeWidth ≤ 1)
    (hcoded : ∀ i (hi : i < intervals.length), entropyCoded false (intervals.get ⟨i,hi⟩))
    (hcoded' : ∀ i (hi : i < intervals'.length), entropyCoded false (intervals'.get ⟨i,hi⟩))
    (hpos : 0 < intervals.length) (hlength : intervals.length = intervals'.length)
    (hsame : intervals[j]? = intervals'[j]?) (hn : n ≤ scan.unitRows*scan.unitsPerRow)
    {t' : LosslessRestartTracker} {r' : BitReader}
    (h : runUnits scan n (scanBytes 0 intervals) = .ok ((t,s),r))
    (h' : runUnits scan n (scanBytes 0 intervals') = .ok ((t',s'),r')) :
    Agree v k j s s' ∧ (0 < n → (n-1)/(k*scan.unitsPerRow) = j → Alike r r') := by
  have hper : 0 < k*scan.unitsPerRow := Nat.mul_pos hk hwidth
  induction n generalizing t s r t' s' r' with
  | zero =>
      obtain ⟨hstate,-⟩ := Prod.mk.inj (Except.ok.inj h)
      obtain ⟨hstate',-⟩ := Prod.mk.inj (Except.ok.inj h')
      rw [← (Prod.mk.inj hstate).2,← (Prod.mk.inj hstate').2]
      exact ⟨fun _ _ _ _ => rfl,nofun⟩
  | succ n ih =>
      obtain ⟨⟨t₀,s₀⟩,r₀,hrun,hunit⟩ := runUnits_succ (by omega) h
      obtain ⟨⟨t₁,s₁⟩,r₁,hrun',hunit'⟩ := runUnits_succ (by omega) h'
      obtain ⟨hagree,halike⟩ := ih (by omega) hrun hrun'
      obtain ⟨u,q,hrestart,hmcu,-⟩ := decodeUnit_ok hunit
      obtain ⟨u',q',hrestart',hmcu',-⟩ := decodeUnit_ok hunit'
      obtain ⟨hin,-⟩ := entered_of_restarted hper hinterval hcoded hpos
        (before_of_run hscan hper hinterval hcoded hpos (by omega) hrun) hrestart
      obtain ⟨hin',-⟩ := entered_of_restarted hper hinterval hcoded' (hlength ▸ hpos)
        (before_of_run hscan hper hinterval hcoded' (hlength ▸ hpos) (by omega) hrun') hrestart'
      have hfirst : u'.isFirst = u.isFirst := hin'.first.trans hin.first.symm
      have hrow : n/scan.unitsPerRow/k = n/(k*scan.unitsPerRow) := by
        rw [Nat.div_div_eq_div_mul,Nat.mul_comm]
      rw [Nat.add_sub_cancel]
      by_cases hj : n/(k*scan.unitsPerRow) = j
      · -- a unit of the interval
        have hreaders : Alike q q' := by
          by_cases hzero : n % (k*scan.unitsPerRow) = 0
          · obtain ⟨hi,-⟩ := hj ▸ hin.inside
            exact alike_of_atInterval (hj ▸ hin.start hzero) (hj ▸ hin'.start hzero) hi hlength
              hsame (hcoded j hi)
          · have hnpos : 0 < n := Nat.pos_of_ne_zero fun h => hzero (by rw [h,Nat.zero_mod])
            rw [hin.kept hzero,hin'.kept hzero]
            refine halike hnpos ?_
            rw [← ((CountedLoops.pred_div_mod hper hnpos).2 hzero).1]
            exact hj
        have hstep := decodeMcu_agree hscan hk (n % scan.unitsPerRow) (n/scan.unitsPerRow)
          u.isFirst (hrow.trans hj) (fun hx hy => ?_) hleft hagree q q' hreaders
        · rw [hfirst] at hmcu'
          rw [hmcu,hmcu'] at hstep
          exact ⟨hstep.1,fun _ _ => hstep.2.1⟩
        · -- the first unit of the interval comes after a restart
          rw [hin.first,decide_eq_true_eq]
          have hsplit := Nat.mod_add_div n scan.unitsPerRow
          rw [hx,hy] at hsplit
          rw [← hsplit,Nat.zero_add,Nat.mul_comm scan.unitsPerRow,Nat.mul_assoc,Nat.mul_mod_left]
      · have hout : ∀ c y, y/v c/k = j → y/v c ≠ n/scan.unitsPerRow := by
          intro c y hy heq
          rw [heq,hrow] at hy
          exact hj hy
        have hframe := decodeMcu_frame hscan (n % scan.unitsPerRow) (n/scan.unitsPerRow) u.isFirst
          s₀ q q ⟨rfl,rfl,rfl,rfl,rfl,rfl,hin.inside.2.1,hin.inside.2.1⟩
        have hframe' := decodeMcu_frame hscan (n % scan.unitsPerRow) (n/scan.unitsPerRow) u'.isFirst
          s₁ q' q' ⟨rfl,rfl,rfl,rfl,rfl,rfl,hin'.inside.2.1,hin'.inside.2.1⟩
        rw [hmcu] at hframe
        rw [hmcu'] at hframe'
        refine ⟨fun c x y hy => ?_,fun _ h => absurd h hj⟩
        rw [hframe.1.2 c x y (hout c y hy),hframe'.1.2 c x y (hout c y hy)]
        exact hagree c x y hy

end J2kNative.LosslessRestart
