import J2kNative.LosslessRestart
import J2kNative.HuffmanReading
import J2kNative.JpegEntropyBytes

/-!
# Which lossless scans have independent restart intervals

The first sample of an interval is predicted from the middle of the sample range,
the others of its first row as anywhere else, so that every predictor but the left
neighbour reads the row above, in the interval before. For every such predictor
there are two scans that agree on an interval and differ in the decoded samples.
-/
namespace J2kNative.LosslessIntervals
open BitReader LosslessRestart

/-! ## The three kinds of loops -/

inductive LosslessLoop where
  | gray
  | color (order : ScanOrder)
  | sampled (order : ScanOrder) (sampling : LosslessColorSampling)
  deriving DecidableEq, Repr

namespace LosslessLoop

/-- The rows of a plane for each row of units. -/
def rows : LosslessLoop → ℕ → ℕ
  | .gray,_ => 1
  | .color _,_ => 1
  | .sampled _ sampling,c => if c = 0 then sampling.v else 1

/-- Subsampled scans have an even width, and height where rows are subsampled too. -/
def Supports : LosslessLoop → ℕ → ℕ → Prop
  | .gray,_,_ => True
  | .color _,_,_ => True
  | .sampled _ sampling,width,height => width % 2 = 0 ∧ height % sampling.v = 0

def scan (loop : LosslessLoop) (P : LosslessSample) (predictor width height : ℕ)
    (restartInterval : Option ℕ) (dcTables : ℕ → HuffmanTable) : LosslessScan :=
  match loop with
  | .gray => losslessGray P predictor width height restartInterval (dcTables 0)
  | .color order => losslessColorComponents P predictor width height restartInterval order dcTables
  | .sampled order sampling =>
    losslessColorSampled P predictor width height sampling restartInterval order dcTables

/-- The units in a row. -/
def unitsPerRow : LosslessLoop → ℕ → ℕ
  | .gray,width => width
  | .color _,width => width
  | .sampled _ _,width => (width+1)/2

/-- The loop with a restart after every `k` rows of units. -/
def restartScan (loop : LosslessLoop) (P : LosslessSample) (predictor width height k : ℕ)
    (dcTables : ℕ → HuffmanTable) : LosslessScan :=
  loop.scan P predictor width height (some (k*loop.unitsPerRow width)) dcTables

end LosslessLoop

/-- The planes of a supported scan are tiled by its units. -/
theorem LosslessLoop.scan_component {loop : LosslessLoop} {P : LosslessSample}
    {predictor width height : ℕ} {restartInterval : Option ℕ} {dcTables : ℕ → HuffmanTable}
    (hsupports : loop.Supports width height) {c : ResolvedLosslessComponent}
    (hc : c ∈ (loop.scan P predictor width height restartInterval dcTables).components) :
    0 < c.h ∧ 0 < c.v ∧
      c.planeWidth = (loop.scan P predictor width height restartInterval dcTables).unitsPerRow*c.h ∧
      c.planeHeight = (loop.scan P predictor width height restartInterval dcTables).unitRows*c.v ∧
      ∃ i, c.dcTable = dcTables i := by
  cases loop with
  | gray =>
      obtain rfl := List.mem_singleton.mp hc
      exact ⟨Nat.one_pos,Nat.one_pos,(Nat.mul_one _).symm,(Nat.mul_one _).symm,0,rfl⟩
  | color order =>
      obtain ⟨i,-,rfl⟩ := List.mem_map.mp hc
      exact ⟨Nat.one_pos,Nat.one_pos,(Nat.mul_one _).symm,(Nat.mul_one _).symm,i,rfl⟩
  | sampled order sampling =>
      obtain ⟨heven,hrows⟩ := hsupports
      obtain ⟨i,-,rfl⟩ := List.mem_map.mp hc
      unfold sampledComponent
      split_ifs
      · refine ⟨Nat.two_pos,sampling.v_pos,?_,?_,i,rfl⟩
        · show width = (width+1)/2*2
          omega
        · show height = (height+sampling.v-1)/sampling.v*sampling.v
          cases sampling
          · simp [LosslessColorSampling.v]
          · simp only [LosslessColorSampling.v] at hrows ⊢
            omega
      · exact ⟨Nat.one_pos,Nat.one_pos,(Nat.mul_one _).symm,(Nat.mul_one _).symm,i,rfl⟩

/-- The table is one the parser accepts. -/
def Accepted (table : HuffmanTable) : Prop :=
  ∃ raw, HuffmanTable.fromRaw raw .dc = .ok table

/-- The entropy bytes of the intervals of a scan, `k` rows of units in each. -/
def IsScan (scan : LosslessScan) (k : ℕ) (intervals : List (List ℕ)) : Prop :=
  intervals.length = (scan.unitRows+k-1)/k ∧ ∀ bytes ∈ intervals, entropyCoded false bytes

/-- What is decoded in an interval is the same in all scans that agree on its bytes. -/
def Independent (loop : LosslessLoop) (predictor width height k : ℕ) : Prop :=
  ∀ P ∈ [LosslessSample.u8,LosslessSample.u16], ∀ dcTables : ℕ → HuffmanTable,
    (∀ i, Accepted (dcTables i)) →
    ∀ intervals intervals' : List (List ℕ),
      IsScan (loop.restartScan P predictor width height k dcTables) k intervals →
      IsScan (loop.restartScan P predictor width height k dcTables) k intervals' →
      ∀ j < intervals.length, intervals[j]? = intervals'[j]? → ∀ s s',
        (loop.restartScan P predictor width height k dcTables).decode (scanBytes 0 intervals) =
          .ok s →
        (loop.restartScan P predictor width height k dcTables).decode (scanBytes 0 intervals') =
          .ok s' →
        Agree loop.rows k j s s'

theorem regular_restartScan (loop : LosslessLoop) (P : LosslessSample)
    (predictor width height k : ℕ) (dcTables : ℕ → HuffmanTable) :
    Regular (loop.restartScan P predictor width height k dcTables) loop.rows := by
  intro c hc
  cases loop with
  | gray =>
      obtain rfl := List.mem_singleton.mp hc
      exact ⟨rfl,Nat.one_pos,Nat.one_pos⟩
  | color order =>
      obtain ⟨i,-,rfl⟩ := List.mem_map.mp hc
      exact ⟨rfl,Nat.one_pos,Nat.one_pos⟩
  | sampled order sampling =>
      obtain ⟨i,-,rfl⟩ := List.mem_map.mp hc
      unfold sampledComponent
      split_ifs with hi
      · exact ⟨(if_pos hi).symm,Nat.two_pos,sampling.v_pos⟩
      · exact ⟨(if_neg hi).symm,Nat.one_pos,Nat.one_pos⟩

theorem restartScan_unitsPerRow (loop : LosslessLoop) (P : LosslessSample)
    (predictor width height k : ℕ) (dcTables : ℕ → HuffmanTable) :
    (loop.restartScan P predictor width height k dcTables).unitsPerRow =
      loop.unitsPerRow width := by
  cases loop <;> rfl

theorem restartScan_fields (loop : LosslessLoop) (P : LosslessSample)
    (predictor width height k : ℕ) (dcTables : ℕ → HuffmanTable) :
    (loop.restartScan P predictor width height k dcTables).predictor = predictor ∧
      (loop.restartScan P predictor width height k dcTables).restartInterval =
        some (k*loop.unitsPerRow width) := by
  cases loop <;> exact ⟨rfl,rfl⟩

theorem IsScan.coded {scan : LosslessScan} {k : ℕ} {intervals : List (List ℕ)}
    (h : IsScan scan k intervals) (i : ℕ) (hi : i < intervals.length) :
    entropyCoded false (intervals.get ⟨i,hi⟩) := h.2 _ (List.get_mem _ _)

/-- With the left neighbour, with planes of one column, or with a single interval the intervals
are independent. -/
theorem agree_of_isScan {scan : LosslessScan} {v : ℕ → ℕ} {k : ℕ} (hregular : Regular scan v)
    (hk : 0 < k) (hinterval : scan.restartInterval = some (k*scan.unitsPerRow))
    (hleft : (scan.predictor = 1 ∨ ∀ c ∈ scan.components, c.planeWidth ≤ 1) ∨ scan.unitRows ≤ k)
    {intervals intervals' : List (List ℕ)} (hscan : IsScan scan k intervals)
    (hscan' : IsScan scan k intervals') {j : ℕ} (hj : j < intervals.length)
    (hsame : intervals[j]? = intervals'[j]?) {count : ℕ} {s s' : Samples}
    (hs : scan.decodeUnits count (scanBytes 0 intervals) = .ok s)
    (hs' : scan.decodeUnits count (scanBytes 0 intervals') = .ok s') : Agree v k j s s' := by
  have hlength : intervals.length = intervals'.length := hscan.1.trans hscan'.1.symm
  rcases hleft with hleft | hsingle
  · by_cases hwidth : scan.unitsPerRow = 0
    · have hunits : scan.units = [] := by rw [units_eq,hwidth]; rfl
      simp only [LosslessScan.decodeUnits,hunits,List.take_nil,List.foldlM_nil] at hs hs'
      rw [← Except.ok.inj hs,← Except.ok.inj hs']
      exact fun _ _ _ _ => rfl
    · obtain ⟨t,r,hrun⟩ := decodeUnits_ok hs
      obtain ⟨t',r',hrun'⟩ := decodeUnits_ok hs'
      have hlen : scan.units.length = scan.unitRows*scan.unitsPerRow := by
        rw [units_eq,List.length_map,List.length_range]
      have hcount : ∀ bytes, runUnits scan count bytes =
          runUnits scan (min count (scan.unitRows*scan.unitsPerRow)) bytes := by
        intro bytes
        rw [runUnits,runUnits,← hlen,List.take_eq_take_min]
      rw [hcount] at hrun hrun'
      exact (runs_agree hregular hk (Nat.pos_of_ne_zero hwidth) hinterval hleft hscan.coded
        hscan'.coded (by omega) hlength hsame (by omega) hrun hrun').1
  · have hone : intervals.length ≤ 1 := by
      rw [hscan.1]
      exact Nat.le_of_lt_succ ((Nat.div_lt_iff_lt_mul hk).mpr (by omega))
    obtain ⟨bytes,rfl⟩ := List.length_eq_one_iff.mp (show intervals.length = 1 by omega)
    obtain ⟨bytes',rfl⟩ := List.length_eq_one_iff.mp (show intervals'.length = 1 by omega)
    obtain rfl : j = 0 := by simpa using hj
    obtain rfl : bytes = bytes' := by simpa using hsame
    rw [hs] at hs'
    rw [Except.ok.inj hs']
    exact fun _ _ _ _ => rfl

end J2kNative.LosslessIntervals
