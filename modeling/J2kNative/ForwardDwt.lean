import J2kNative.CountedLoops
import J2kNative.Lifting

/-!
# Packed forward 5/3 wavelet transform

The encoder transforms one sample plane in place. A level filters the columns and
then the rows of the current top-left region, leaves the low-pass samples in its
first half and the high-pass samples in its second half, and hands the top-left
quadrant to the next level. The plane keeps its row stride throughout.

Samples are integers: the source works in `i64` and the claim about it assumes
that no sum overflows. The scratch line is rebuilt for every column and row and
is modelled as the line it holds.
-/
namespace J2kNative.ForwardDwt
open CountedLoops Lifting

def floorDiv2 (value : ℤ) : ℤ := value / 2

def floorDiv2PlusHalf (value : ℤ) : ℤ := (value + 1) / 2

def floorDiv4PlusHalf (value : ℤ) : ℤ := (value + 2) / 4

/-- `forward_lift_53_even_i64` on a line of `n` samples. -/
def forwardLift53Even (n : ℕ) (data : Buffer ℤ) : Buffer ℤ :=
  let data := forStep2 1 (n - 1)
    (fun i data => data.set i (data i - floorDiv2 (data (i - 1) + data (i + 1)))) data
  let data := data.set (n - 1) (data (n - 1) - data (n - 2))
  let data := data.set 0 (data 0 + floorDiv2PlusHalf (data 1))
  forStep2 2 n
    (fun i data => data.set i (data i + floorDiv4PlusHalf (data (i - 1) + data (i + 1)))) data

/-- `forward_lift_53_i64`. -/
def forwardLift53 (n : ℕ) (data : Buffer ℤ) : Buffer ℤ :=
  if n < 2 then data
  else if n % 2 = 0 then forwardLift53Even n data
  else
    let lastEven := if n % 2 = 0 then n - 2 else n - 1
    let data := forStep2 1 n (fun i data =>
      let left := data (i - 1)
      let right := if i + 1 < n then data (i + 1) else data lastEven
      data.set i (data i - floorDiv2 (left + right))) data
    forStep2 0 n (fun i data =>
      let left := if i > 0 then data (i - 1) else data 1
      let right := if i + 1 < n then data (i + 1) else left
      data.set i (data i + floorDiv4PlusHalf (left + right))) data

/-! ## Lifting passes -/

theorem High_zero {i : ℕ} : High 0 i ↔ i % 2 = 1 := by
  unfold High
  rw [Nat.zero_add]

theorem high_pass_inner (stop : ℕ) (data : Buffer ℤ) (j : ℕ) :
    forStep2 1 stop
      (fun i data => data.set i (data i - floorDiv2 (data (i - 1) + data (i + 1)))) data j =
    if 1 ≤ j ∧ j < stop ∧ (j - 1) % 2 = 0 then data j - floorDiv2 (data (j - 1) + data (j + 1))
      else data j := by
  refine forStep2_modify (v := fun i data => data i - floorDiv2 (data (i - 1) + data (i + 1)))
    data ?_ j
  intro i t h1 h2 h3 ht
  rw [ht i (fun _ => rfl), ht (i - 1) (by omega), ht (i + 1) (by omega)]

theorem low_pass_inner (stop : ℕ) (data : Buffer ℤ) (j : ℕ) :
    forStep2 2 stop
      (fun i data => data.set i (data i + floorDiv4PlusHalf (data (i - 1) + data (i + 1)))) data j =
    if 2 ≤ j ∧ j < stop ∧ (j - 2) % 2 = 0 then
      data j + floorDiv4PlusHalf (data (j - 1) + data (j + 1)) else data j := by
  refine forStep2_modify
    (v := fun i data => data i + floorDiv4PlusHalf (data (i - 1) + data (i + 1))) data ?_ j
  intro i t h1 h2 h3 ht
  rw [ht i (fun _ => rfl), ht (i - 1) (by omega), ht (i + 1) (by omega)]

/-- The unrolled ends of an even line are the mirrored lifting steps. -/
theorem forwardLift53Even_eq {n i : ℕ} (hn : 2 ≤ n) (heven : n % 2 = 0) (hi : i < n)
    (data : Buffer ℤ) : forwardLift53Even n data i = analyze 0 n data i := by
  unfold forwardLift53Even
  have h₁ := high_pass_inner (n - 1) data
  generalize forStep2 1 (n - 1)
    (fun i data => data.set i (data i - floorDiv2 (data (i - 1) + data (i + 1)))) data = d₁ at h₁ ⊢
  have h₂ : ∀ j < n, d₁.set (n - 1) (d₁ (n - 1) - d₁ (n - 2)) j =
      lift (High 0) (predictAmount n) data j := by
    intro j hj
    by_cases hodd : j % 2 = 1
    · rw [lift_of (High_zero.mpr hodd), predictAmount, left_of_pos (by omega)]
      by_cases hl : j = n - 1
      · rw [hl, Buffer.set_self, h₁, h₁, if_neg (by omega), if_neg (by omega),
          right_last (by omega), show n - 1 - 1 = n - 2 by omega]
        omega
      · rw [Buffer.set_of_ne _ _ hl, h₁, if_pos (by omega), right_inner (by omega), floorDiv2]
        omega
    · rw [lift_of_not (fun h => hodd (High_zero.mp h)), Buffer.set_of_ne _ _ (by omega), h₁,
        if_neg (by omega)]
  generalize d₁.set (n - 1) (d₁ (n - 1) - d₁ (n - 2)) = d₂ at h₂ ⊢
  have hcongr := (amounts_congr hn hi h₂).2
  unfold analyze
  rw [low_pass_inner]
  by_cases hodd : i % 2 = 1
  · rw [if_neg (by omega), Buffer.set_of_ne _ _ (by omega),
      lift_of_not (T := fun i => ¬ High 0 i) (not_not.mpr (High_zero.mpr hodd)), h₂ i hi]
  · rw [lift_of (fun h => hodd (High_zero.mp h)), ← hcongr, updateAmount, ← h₂ i hi]
    by_cases h0 : i = 0
    · subst h0
      rw [if_neg (by omega), Buffer.set_self, left_zero, floorDiv2PlusHalf]
      rw [right_inner (by omega), Nat.zero_add]
      omega
    · rw [if_pos (by omega), Buffer.set_of_ne _ _ h0, Buffer.set_of_ne _ _ (by omega),
        Buffer.set_of_ne _ _ (by omega), left_of_pos (by omega), right_inner (by omega),
        floorDiv4PlusHalf]

/-- The forward lifting of a line. -/
theorem forwardLift53_eq {n i : ℕ} (hn : 2 ≤ n) (hi : i < n) (data : Buffer ℤ) :
    forwardLift53 n data i = analyze 0 n data i := by
  unfold forwardLift53
  rw [if_neg (by omega)]
  by_cases heven : n % 2 = 0
  · rw [if_pos heven]
    exact forwardLift53Even_eq hn heven hi data
  rw [if_neg heven]
  dsimp only
  have h₁ := forStep2_modify (a := 1) (m := n) (v := fun i data =>
    data i - floorDiv2 (data (i - 1) + if i + 1 < n then data (i + 1)
      else data (if n % 2 = 0 then n - 2 else n - 1))) data ?_
  · generalize forStep2 1 n _ data = d₁ at h₁ ⊢
    have h₂ : ∀ j < n, d₁ j = lift (High 0) (predictAmount n) data j := by
      intro j hj
      rw [h₁]
      by_cases hodd : j % 2 = 1
      · rw [if_pos (by omega), if_pos (by omega), lift_of (High_zero.mpr hodd), predictAmount,
          left_of_pos (by omega), right_inner (by omega), floorDiv2]
        omega
      · rw [if_neg (by omega), lift_of_not (fun h => hodd (High_zero.mp h))]
    have h₃ := forStep2_modify (a := 0) (m := n) (v := fun i data =>
      data i + floorDiv4PlusHalf ((if i > 0 then data (i - 1) else data 1) +
        if i + 1 < n then data (i + 1) else if i > 0 then data (i - 1) else data 1)) d₁ ?_ i
    · rw [h₃]
      unfold analyze
      have hcongr := (amounts_congr hn hi h₂).2
      by_cases hodd : i % 2 = 1
      · rw [if_neg (by omega), lift_of_not (T := fun i => ¬ High 0 i) (not_not.mpr (High_zero.mpr hodd)), h₂ i hi]
      · rw [if_pos (by omega), lift_of (fun h => hodd (High_zero.mp h)), ← hcongr, updateAmount,
          ← h₂ i hi]
        by_cases h0 : i = 0
        · subst h0
          rw [if_neg (Nat.lt_irrefl 0), if_pos (by omega), left_zero, right_inner (by omega),
            floorDiv4PlusHalf]
        · rw [if_pos (by omega), left_of_pos (by omega)]
          by_cases hl : i + 1 < n
          · rw [if_pos hl, right_inner hl, floorDiv4PlusHalf]
          · rw [if_neg hl, right_last (by omega), floorDiv4PlusHalf,
              show n - 2 = i - 1 by omega]
    · intro k t _ h2 h3 ht
      rw [ht k (fun _ => rfl), ht 1 (by omega), ht (k + 1) (by omega)]
      by_cases h0 : k > 0
      · rw [if_pos h0, if_pos h0, ht (k - 1) (by omega)]
      · rw [if_neg h0, if_neg h0]
  · intro k t h1 h2 h3 ht
    rw [ht k (fun _ => rfl), ht (k - 1) (by omega), if_pos (by omega), if_pos (by omega),
      ht (k + 1) (by omega)]

/-! ## Packed levels -/

/-- `encode_dwt_level_dimensions_for_input`, one axis: the low-pass half is the larger. -/
def lowExtent (n : ℕ) : ℕ := n / 2 + n % 2

structure PackedDwtShape where
  llWidth : ℕ
  llHeight : ℕ
  numLevels : ℕ
  deriving DecidableEq, Repr

section
variable {β : Type*}

/-- A transformed line of `n` samples written back with the even samples first. -/
def storeLine (pos : ℕ → ℕ) (n : ℕ) (line : Buffer β) (coefficients : Buffer β) : Buffer β :=
  let coefficients := forRange (lowExtent n)
    (fun i coefficients => coefficients.set (pos i) (line (i * 2))) coefficients
  forRange (n / 2)
    (fun i coefficients => coefficients.set (pos (lowExtent n + i)) (line (i * 2 + 1))) coefficients

/-- The column pass of a level. -/
def transformColumns (lift : ℕ → Buffer β → Buffer β) (width currentWidth currentHeight : ℕ)
    (coefficients : Buffer β) : Buffer β :=
  forRange currentWidth (fun x coefficients =>
    let line := lift currentHeight fun y => coefficients (y * width + x)
    storeLine (fun i => i * width + x) currentHeight line coefficients) coefficients

/-- The row pass of a level. -/
def transformRows (lift : ℕ → Buffer β → Buffer β) (width currentWidth currentHeight : ℕ)
    (coefficients : Buffer β) : Buffer β :=
  forRange currentHeight (fun y coefficients =>
    let line := lift currentWidth fun x => coefficients (y * width + x)
    storeLine (fun i => y * width + i) currentWidth line coefficients) coefficients

/-- One turn of the level loop. -/
def transformLevel (lift : ℕ → Buffer β → Buffer β) (width currentWidth currentHeight : ℕ)
    (coefficients : Buffer β) : Buffer β :=
  let coefficients := if currentHeight ≥ 2 then
    transformColumns lift width currentWidth currentHeight coefficients else coefficients
  if currentWidth ≥ 2 then
    transformRows lift width currentWidth currentHeight coefficients else coefficients

/-- The level loop, with the loop variables as arguments. -/
def transformLevels (lift : ℕ → Buffer β → Buffer β) (width : ℕ) :
    ℕ → ℕ → ℕ → ℕ → Buffer β → Buffer β × PackedDwtShape
  | 0, currentWidth, currentHeight, actualLevels, coefficients =>
      (coefficients, ⟨currentWidth, currentHeight, actualLevels⟩)
  | levels + 1, currentWidth, currentHeight, actualLevels, coefficients =>
      if currentWidth < 2 ∧ currentHeight < 2 then
        (coefficients, ⟨currentWidth, currentHeight, actualLevels⟩)
      else
        transformLevels lift width levels (lowExtent currentWidth) (lowExtent currentHeight)
          (actualLevels + 1) (transformLevel lift width currentWidth currentHeight coefficients)

/-- `forward_dwt_packed_core`. -/
def forwardDwtPackedCore (lift : ℕ → Buffer β → Buffer β) (width height numLevels : ℕ)
    (coefficients : Buffer β) : Buffer β × PackedDwtShape :=
  transformLevels lift width numLevels width height 0 coefficients

end

/-- `try_forward_dwt_packed_i64` on a plane whose length matches its dimensions. -/
def tryForwardDwtPackedI64 (coefficients : Buffer ℤ) (width height numLevels : ℕ) :
    Buffer ℤ × PackedDwtShape :=
  forwardDwtPackedCore forwardLift53 width height numLevels coefficients

/-! ## Effect of a level -/

/-- Where sample `i` of a transformed line of `n` is stored. -/
def slot (n i : ℕ) : ℕ := if i % 2 = 0 then i / 2 else lowExtent n + i / 2

theorem slot_lt {n i : ℕ} (hi : i < n) : slot n i < n := by
  unfold slot lowExtent
  split_ifs <;> omega

theorem slot_even {n k : ℕ} : slot n (k * 2) = k := by
  unfold slot
  rw [if_pos (by omega)]
  omega

theorem slot_odd {n k : ℕ} : slot n (k * 2 + 1) = lowExtent n + k := by
  unfold slot
  rw [if_neg (by omega)]
  omega

section
variable {β : Type*}

theorem storeLine_spec {p : ℕ → ℕ} {n : ℕ} (line c : Buffer β)
    (hpos : ∀ i < n, ∀ k < n, p i = p k → i = k) :
    (∀ i < n, storeLine p n line c (p (slot n i)) = line i) ∧
      ∀ j, (∀ i < n, j ≠ p i) → storeLine p n line c j = c j := by
  have hlow : lowExtent n + n / 2 = n := by
    unfold lowExtent
    omega
  have h₁ := forRange_set (n := lowExtent n) (v := fun i => line (i * 2)) c
    fun i hi k hk => hpos i (by omega) k (by omega)
  have h₂ := forRange_set (n := n / 2) (p := fun i => p (lowExtent n + i))
    (v := fun i => line (i * 2 + 1))
    (forRange (lowExtent n) (fun i t => t.set (p i) (line (i * 2))) c)
    fun i hi k hk h => by have := hpos _ (by omega) _ (by omega) h; omega
  constructor
  · intro i hi
    unfold slot
    split_ifs with heven
    · have hl : i / 2 < lowExtent n := by
        unfold lowExtent
        omega
      have hk := h₂.kept (p (i / 2)) fun k hk h => by
        have := hpos _ (by omega) _ (by omega) h
        omega
      have hw := h₁.written (i / 2) hl
      rw [show i / 2 * 2 = i by omega] at hw
      exact hk.trans hw
    · have hw := h₂.written (i / 2) (by omega)
      rwa [show i / 2 * 2 + 1 = i by omega] at hw
  · intro j hj
    exact (h₂.kept j fun i hi => hj _ (by omega)).trans (h₁.kept j fun i hi => hj i (by omega))

/-- The lift of a line of `n` reads that line only. -/
def LineLocal (lift : ℕ → Buffer β → Buffer β) : Prop :=
  ∀ n x y, (∀ i < n, x i = y i) → ∀ i < n, lift n x i = lift n y i

variable {lift : ℕ → Buffer β → Buffer β} {width : ℕ}

theorem transformColumns_spec {cw : ℕ} (ch : ℕ) (hcw : cw ≤ width) (c : Buffer β) :
    (∀ x < cw, ∀ y < ch, transformColumns lift width cw ch c (slot ch y * width + x) =
      lift ch (fun y => c (y * width + x)) y) ∧
    ∀ x < width, ∀ y, cw ≤ x ∨ ch ≤ y →
      transformColumns lift width cw ch c (y * width + x) = c (y * width + x) := by
  refine forRange_induction (fun k (t : Buffer β) =>
    (∀ x < k, ∀ y < ch, t (slot ch y * width + x) = lift ch (fun y => c (y * width + x)) y) ∧
      ∀ x < width, ∀ y, k ≤ x ∨ ch ≤ y → t (y * width + x) = c (y * width + x)) ?_ ?_
  · exact ⟨fun _ h => absurd h (Nat.not_lt_zero _), fun _ _ _ _ => rfl⟩
  · intro k hk t ⟨hdone, hkept⟩
    have hline : (fun y => t (y * width + k)) = fun y => c (y * width + k) :=
      funext fun y => hkept k (by omega) y (.inl le_rfl)
    obtain ⟨hw, ho⟩ := storeLine_spec (p := fun i => i * width + k) (n := ch)
      (lift ch fun y => t (y * width + k)) t
      fun i _ j _ h => (cell_inj (by omega) (by omega) h).1
    rw [hline] at hw ho
    rw [hline]
    constructor
    · intro x hx y hy
      by_cases he : x = k
      · subst he
        exact hw y hy
      · rw [ho _ fun i _ h => he (cell_inj (by omega) (by omega) h).2]
        exact hdone x (by omega) y hy
    · intro x hx y hxy
      rw [ho _ fun i hi h => by have := cell_inj hx (by omega) h; omega]
      exact hkept x hx y (by omega)

theorem transformRows_spec {cw : ℕ} (ch : ℕ) (hcw : cw ≤ width) (hlift : LineLocal lift)
    (c : Buffer β) :
    (∀ y < ch, ∀ x < cw, transformRows lift width cw ch c (y * width + slot cw x) =
      lift cw (fun x => c (y * width + x)) x) ∧
    ∀ x < width, ∀ y, cw ≤ x ∨ ch ≤ y →
      transformRows lift width cw ch c (y * width + x) = c (y * width + x) := by
  refine forRange_induction (fun k (t : Buffer β) =>
    (∀ y < k, ∀ x < cw, t (y * width + slot cw x) = lift cw (fun x => c (y * width + x)) x) ∧
      ∀ x < width, ∀ y, cw ≤ x ∨ k ≤ y → t (y * width + x) = c (y * width + x)) ?_ ?_
  · exact ⟨fun _ h => absurd h (Nat.not_lt_zero _), fun _ _ _ _ => rfl⟩
  · intro k hk t ⟨hdone, hkept⟩
    have hline : ∀ x < cw, lift cw (fun x => t (k * width + x)) x =
        lift cw (fun x => c (k * width + x)) x :=
      hlift cw _ _ fun x hx => hkept x (by omega) k (.inr le_rfl)
    obtain ⟨hw, ho⟩ := storeLine_spec (p := fun i => k * width + i) (n := cw)
      (lift cw fun x => t (k * width + x)) t
      fun i _ j _ h => by omega
    constructor
    · intro y hy x hx
      by_cases he : y = k
      · subst he
        exact (hw x hx).trans (hline x hx)
      · have hs := slot_lt hx
        rw [ho _ fun i _ h => he (cell_inj (by omega) (by omega) h).1]
        exact hdone y (by omega) x hx
    · intro x hx y hxy
      rw [ho _ fun i hi h => by have := cell_inj hx (by omega) h; omega]
      exact hkept x hx y (by omega)

/-- A pass that the source skips on a line of one sample. -/
def passLine (lift : ℕ → Buffer β → Buffer β) (n : ℕ) (line : Buffer β) : Buffer β :=
  if n ≥ 2 then lift n line else line

theorem passLine_local (hlift : LineLocal lift) : LineLocal (passLine lift) := by
  intro n x y h i hi
  unfold passLine
  split_ifs
  · exact hlift n x y h i hi
  · exact h i hi

theorem slot_eq_self {n i : ℕ} (hn : ¬ n ≥ 2) (hi : i < n) : slot n i = i := by
  unfold slot
  rw [if_pos (by omega)]
  omega

/-- A level filters columns, then rows, and separates the samples by parity. -/
theorem transformLevel_spec {cw : ℕ} (ch : ℕ) (hcw : cw ≤ width) (hlift : LineLocal lift)
    (c : Buffer β) :
    (∀ y < ch, ∀ x < cw,
      transformLevel lift width cw ch c (slot ch y * width + slot cw x) =
        passLine lift cw (fun x => passLine lift ch (fun y => c (y * width + x)) y) x) ∧
    ∀ x < width, ∀ y, cw ≤ x ∨ ch ≤ y →
      transformLevel lift width cw ch c (y * width + x) = c (y * width + x) := by
  unfold transformLevel
  have hcols : ∃ t : Buffer β, t = (if ch ≥ 2 then transformColumns lift width cw ch c else c) ∧
      (∀ x < cw, ∀ y < ch, t (slot ch y * width + x) =
        passLine lift ch (fun y => c (y * width + x)) y) ∧
      ∀ x < width, ∀ y, cw ≤ x ∨ ch ≤ y → t (y * width + x) = c (y * width + x) := by
    refine ⟨_, rfl, ?_⟩
    unfold passLine
    split_ifs with hch
    · exact transformColumns_spec ch hcw c
    · exact ⟨fun x _ y hy => by rw [slot_eq_self hch hy], fun _ _ _ _ => rfl⟩
  obtain ⟨t, ht, hdone, hkept⟩ := hcols
  rw [← ht]
  have hrows : (∀ y < ch, ∀ x < cw,
      (if cw ≥ 2 then transformRows lift width cw ch t else t) (y * width + slot cw x) =
        passLine lift cw (fun x => t (y * width + x)) x) ∧
      ∀ x < width, ∀ y, cw ≤ x ∨ ch ≤ y →
        (if cw ≥ 2 then transformRows lift width cw ch t else t) (y * width + x) =
          t (y * width + x) := by
    unfold passLine
    split_ifs with hcw'
    · exact transformRows_spec ch hcw hlift t
    · exact ⟨fun y _ x hx => by rw [slot_eq_self hcw' hx], fun _ _ _ _ => rfl⟩
  constructor
  · intro y hy x hx
    rw [hrows.1 _ (slot_lt hy) x hx]
    exact passLine_local hlift cw _ _ (fun x hx => hdone x hx y hy) x hx
  · intro x hx y hxy
    rw [hrows.2 x hx y hxy, hkept x hx y hxy]

end

theorem forwardLift53_local : LineLocal forwardLift53 := by
  intro n x y h i hi
  by_cases hn : n < 2
  · unfold forwardLift53
    rw [if_pos hn, if_pos hn]
    exact h i hi
  · rw [forwardLift53_eq (by omega) hi, forwardLift53_eq (by omega) hi]
    exact analyze_congr 0 (by omega) hi h

/-! ## Packed geometry -/

structure PackedSubbandRect where
  offset : ℕ
  width : ℕ
  height : ℕ
  rowStride : ℕ
  deriving DecidableEq, Repr

structure PackedDwtLevelRects where
  hl : PackedSubbandRect
  lh : PackedSubbandRect
  hh : PackedSubbandRect
  lowWidth : ℕ
  lowHeight : ℕ
  highWidth : ℕ
  highHeight : ℕ
  deriving DecidableEq, Repr

structure PackedDwtGeometry where
  planeWidth : ℕ
  planeHeight : ℕ
  shape : PackedDwtShape
  deriving DecidableEq, Repr

namespace PackedDwtGeometry

/-- `rect`; an empty band has offset zero. -/
def rect (g : PackedDwtGeometry) (x y width height : ℕ) : PackedSubbandRect :=
  if width = 0 ∨ height = 0 then ⟨0, width, height, g.planeWidth⟩
  else ⟨y * g.planeWidth + x, width, height, g.planeWidth⟩

def ll (g : PackedDwtGeometry) : PackedSubbandRect := g.rect 0 0 g.shape.llWidth g.shape.llHeight

/-- `level`: the detail bands of a resolution, the lowest resolution first. -/
def level (g : PackedDwtGeometry) (resolutionIndex : ℕ) : PackedDwtLevelRects :=
  let forwardLevel := g.shape.numLevels - resolutionIndex - 1
  let currentWidth := lowExtent^[forwardLevel] g.planeWidth
  let currentHeight := lowExtent^[forwardLevel] g.planeHeight
  let lowWidth := lowExtent currentWidth
  let lowHeight := lowExtent currentHeight
  let highWidth := currentWidth / 2
  let highHeight := currentHeight / 2
  ⟨g.rect lowWidth 0 highWidth lowHeight, g.rect 0 lowHeight lowWidth highHeight,
    g.rect lowWidth lowHeight highWidth highHeight, lowWidth, lowHeight, highWidth, highHeight⟩

end PackedDwtGeometry

/-- The rows of a packed band one after the other, as `PackedSubbandView::row` yields them. -/
def subBand (coefficients : Buffer ℤ) (rect : PackedSubbandRect) : Buffer ℤ := fun i =>
  coefficients (rect.offset + i / rect.width * rect.rowStride + i % rect.width)

end J2kNative.ForwardDwt
