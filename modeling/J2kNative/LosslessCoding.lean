import J2kNative.HuffmanDecoding
import J2kNative.Lockstep
import J2kNative.LosslessLeak
import Mathlib.Algebra.Order.Ring.Int
import Mathlib.Data.Nat.Size

/-!
# Lossless scans coded as the standard says

A sample is coded by its difference from the prediction, reduced modulo 2^16: the
code of its category in the table, then its magnitude; the category 16 has none.
The decoder takes the categories up to 15 and checks every sum, so a scan of such
samples comes back when no difference is too large to be sent unreduced.
-/
namespace J2kNative.LosslessCoding

open BitReader LosslessIntervals LosslessRestart

/-! ## Differences -/

/-- The difference modulo 2^16, from -32767 to 32768. -/
def moduloDiff (d : ℤ) : ℤ := if d % 2^16 ≤ 2^15 then d % 2^16 else d % 2^16-2^16

def categoryOf (d : ℤ) : ℕ := d.natAbs.size

/-- The bits after the category; there are none for 32768. -/
def magnitudeBits (d : ℤ) : List ℕ :=
  if categoryOf d = 16 then []
  else codeBits (if 0 ≤ d then d else d+2^categoryOf d-1).toNat (categoryOf d)

/-- A difference in the codes of a table. -/
def Coded (table : HuffmanTable) (d : ℤ) (w : List ℕ) : Prop :=
  ∃ raw codes, BuiltFrom raw .dc codes table ∧ ∃ p code len,
    CodeAt raw codes p (categoryOf d) code len ∧ w = codeBits code len ++ magnitudeBits d

theorem moduloDiff_cases (d : ℤ) : ∃ k : ℤ, moduloDiff d = d-2^16*k ∧
    -2^15 < moduloDiff d ∧ moduloDiff d ≤ 2^15 := by
  have hdiv := Int.mul_ediv_add_emod d (2^16)
  unfold moduloDiff
  split_ifs with h
  · exact ⟨d/2^16,by omega,by omega,h⟩
  · exact ⟨d/2^16+1,by omega,by omega,by omega⟩

theorem moduloDiff_of_small {d : ℤ} (h : -2^15 < d ∧ d < 2^15) : moduloDiff d = d := by
  obtain ⟨k,hk,hlow,hhigh⟩ := moduloDiff_cases d
  omega

theorem categoryOf_le {d : ℤ} (h : -2^15 < d ∧ d < 2^15) : categoryOf d ≤ 15 :=
  Nat.size_le.mpr (by omega)

/-- The magnitude of a category below 16 gives the difference back. -/
theorem magnitudeOf_magnitudeBits {d : ℤ} (h : -2^15 < d ∧ d < 2^15) :
    (magnitudeBits d).length = categoryOf d ∧ magnitudeOf (magnitudeBits d) = d := by
  have hle := categoryOf_le h
  have hbits : magnitudeBits d =
      codeBits (if 0 ≤ d then d else d+2^categoryOf d-1).toNat (categoryOf d) := if_neg (by omega)
  have hlength : (magnitudeBits d).length = categoryOf d := by rw [hbits,length_codeBits]
  refine ⟨hlength,?_⟩
  unfold magnitudeOf
  rw [hlength]
  by_cases hzero : categoryOf d = 0
  · rw [if_pos hzero]
    have : d.natAbs = 0 := Nat.size_eq_zero.mp hzero
    omega
  rw [if_neg hzero,hbits,bitValue_codeBits]
  have hupper : d.natAbs < 2^categoryOf d := Nat.lt_size_self _
  have hlower : 2^(categoryOf d-1) ≤ d.natAbs :=
    Nat.lt_size.mp (show categoryOf d-1 < d.natAbs.size from Nat.sub_one_lt hzero)
  have hsplit : 2^categoryOf d = 2*2^(categoryOf d-1) := by
    rw [← pow_succ',Nat.sub_add_cancel (Nat.pos_of_ne_zero hzero)]
  have hcast : ((2^categoryOf d : ℕ) : ℤ) = (2 : ℤ)^categoryOf d := Nat.cast_pow 2 _
  unfold extend
  generalize 2^(categoryOf d-1) = half at hlower hsplit ⊢
  generalize 2^categoryOf d = whole at hupper hsplit hcast ⊢
  rw [← hcast]
  have hfits : (if 0 ≤ d then d else d+whole-1).toNat < whole := by
    split_ifs with hsign <;> omega
  rw [Nat.mod_eq_of_lt hfits]
  split_ifs with hlt hsign hsign <;> omega

/-- Whether the decoder takes the difference as it is. -/
def Small (d : ℤ) : Prop := -2^15 < d ∧ d < 2^15

section
variable {table : HuffmanTable} {d : ℤ} {w u : List ℕ} {r : BitReader}

theorem decodeFastDc_small (h : Coded table d w) (hd : Small d) (hr : Reads r (w ++ u))
    (hnext : r.next.isSome) :
    ∃ r', table.decodeFastDc r = .ok (d,r') ∧ Reads r' u ∧ Kept r r' := by
  obtain ⟨raw,codes,hbuilt,p,code,len,hcode,rfl⟩ := h
  obtain ⟨hlength,hvalue⟩ := magnitudeOf_magnitudeBits hd
  rw [← hlength] at hcode
  have hdecode := decodeFastDc_code hbuilt hcode (by rw [hlength]; exact categoryOf_le hd) hr
    (fills_of_next hnext)
  rw [hvalue] at hdecode
  exact hdecode

theorem decodeFastDc_large (h : Coded table (2^15) w) (hr : Reads r (w ++ u))
    (hnext : r.next.isSome) :
    table.decodeFastDc r = .error (huffmanFailure .invalidSymbol) := by
  obtain ⟨raw,codes,hbuilt,p,code,len,hcode,rfl⟩ := h
  have hcategory : categoryOf (2^15) = 16 := by decide
  rw [hcategory] at hcode
  rw [List.append_assoc] at hr
  exact decodeFastDc_invalid hbuilt hcode (by decide) hr (fills_of_next hnext)

/-! ## One sample -/

/-- A step over coded bits: it decodes them, and what it leaves is as wanted, or it fails where
the bits are not good. -/
def Decodes {α : Type} (good : Prop) (m : Read α) (r : BitReader) (u : List ℕ) (I : α → Prop) :
    Prop :=
  (good ∧ ∃ a r', m r = .ok (a,r') ∧ Reads r' u ∧ Kept r r' ∧ I a) ∨ (¬good ∧ ∃ e, m r = .error e)

theorem Decodes.mono {α : Type} {good good' : Prop} {m : Read α} {I I' : α → Prop}
    (h : Decodes good m r u I) (hgood : good ↔ good') (hI : ∀ a, I a → I' a) :
    Decodes good' m r u I' := by
  rcases h with ⟨hg,a,r',hrun,hr,hk,ha⟩ | ⟨hg,hfail⟩
  · exact .inl ⟨hgood.mp hg,a,r',hrun,hr,hk,hI a ha⟩
  · exact .inr ⟨fun hg' => hg (hgood.mpr hg'),hfail⟩

/-- A loop over coded parts. -/
theorem foldlM_decodes {γ : Type} {f : Samples → γ → Read Samples} {bits : γ → List ℕ}
    {good : γ → Prop} (l : List γ) (I : ℕ → Samples → Prop)
    (hstep : ∀ i c, l[i]? = some c → ∀ s r u, I i s → Reads r (bits c ++ u) → r.next.isSome →
      Decodes (good c) (f s c) r u (I (i+1)))
    {s : Samples} (h : I 0 s) (hr : Reads r (l.flatMap bits ++ u)) (hnext : r.next.isSome) :
    Decodes (∀ c ∈ l, good c) (l.foldlM f s) r u (I l.length) := by
  induction l generalizing s r I with
  | nil => exact .inl ⟨nofun,s,r,rfl,hr,⟨rfl,rfl⟩,h⟩
  | cons c l ih =>
      rw [List.flatMap_cons,List.append_assoc] at hr
      rw [List.foldlM_cons]
      rcases hstep 0 c rfl s r _ h hr hnext with ⟨hg,s₁,r₁,hfirst,hr₁,hk₁,h₁⟩ | ⟨hg,e,hfail⟩
      · have hrun : (f s c >>= fun s => l.foldlM f s) r = l.foldlM f s₁ r₁ := run_bind_ok hfirst
        rcases ih (fun i => I (i+1)) (fun i c hc => hstep (i+1) c hc) h₁ hr₁ (hk₁.next ▸ hnext) with
          ⟨hgs,s₂,r₂,hrest,hr₂,hk₂,h₂⟩ | ⟨hgs,e,hfail⟩
        · exact .inl ⟨List.forall_mem_cons.mpr ⟨hg,hgs⟩,s₂,r₂,hrun.trans hrest,hr₂,hk₁.trans hk₂,h₂⟩
        · exact .inr ⟨fun hall => hgs (List.forall_mem_cons.mp hall).2,e,hrun.trans hfail⟩
      · exact .inr ⟨fun hall => hg (List.forall_mem_cons.mp hall).1,e,run_bind_error hfail⟩

variable {scan : LosslessScan} {val : ℕ → ℕ → ℕ → ℤ} {s : Samples} {x y : ℕ}

/-- A coded sample comes back where its difference is small, and is refused elsewhere: as the
category 16, or because the sum is off by a multiple of 2^16. -/
theorem decodePlaneSample_coded (hdepth : scan.sample.bitDepth ≤ 16)
    {c : ResolvedLosslessComponent} {first : Bool} {predicted v : ℤ}
    (hpredicted : (if first then scan.sample.restartPredictor else
      losslessPredict scan.predictor scan.sample.restartPredictor x y (s c.outputIndex)) =
        predicted)
    (hrange : 0 ≤ v ∧ v < 2^scan.sample.bitDepth)
    (hcoded : Coded c.dcTable (moduloDiff (v-predicted)) w) (hr : Reads r (w ++ u))
    (hnext : r.next.isSome) :
    Decodes (Small (v-predicted)) (scan.decodePlaneSample c x y first s) r u
      (· = s.set c.outputIndex x y v) := by
  have hpow : (2 : ℤ)^scan.sample.bitDepth ≤ 2^16 := pow_le_pow_right₀ (by decide) hdepth
  obtain ⟨k,hk,hlow,hhigh⟩ := moduloDiff_cases (v-predicted)
  unfold LosslessScan.decodePlaneSample
  rw [hpredicted]
  by_cases hlarge : moduloDiff (v-predicted) = 2^15
  · refine .inr ⟨fun hsmall => ?_,_,run_bind_error
      (decodeFastDc_large (hlarge ▸ hcoded) hr hnext)⟩
    rw [moduloDiff_of_small hsmall] at hlarge
    exact absurd hsmall.2 (by omega)
  obtain ⟨r',hdecode,hr',hkept⟩ := decodeFastDc_small hcoded
    ⟨hlow,lt_of_le_of_ne hhigh hlarge⟩ hr hnext
  by_cases hsmall : Small (v-predicted)
  · refine .inl ⟨hsmall,_,r',(run_bind_ok hdecode).trans ?_,hr',hkept,rfl⟩
    rw [moduloDiff_of_small hsmall,add_sub_cancel]
    refine run_bind_ok ?_
    unfold LosslessSample.fromI32
    rw [if_pos hrange]
    rfl
  · have hout : ¬(0 ≤ predicted+moduloDiff (v-predicted) ∧
        predicted+moduloDiff (v-predicted) < 2^scan.sample.bitDepth) := by
      have hne : k ≠ 0 := by
        rintro rfl
        exact hsmall ⟨by omega,by omega⟩
      omega
    refine .inr ⟨hsmall,huffmanFailure .invalidSymbol,(run_bind_ok hdecode).trans
      (run_bind_error ?_)⟩
    unfold LosslessSample.fromI32
    rw [if_neg hout]
    rfl

/-! ## Units -/

/-- The restart interval in units, zero where there are no restarts. -/
def period (scan : LosslessScan) : ℕ := scan.restartInterval.getD 0

/-- The prediction of a sample of the picture; the first one of an interval is predicted from the
middle of the range. -/
def predictedAt (scan : LosslessScan) (val : ℕ → ℕ → ℕ → ℤ) (c : ResolvedLosslessComponent)
    (x y : ℕ) : ℤ :=
  if (0 < period scan ∧ (y/c.v*scan.unitsPerRow+x/c.h) % period scan = 0) ∧
      x % c.h = 0 ∧ y % c.v = 0 then scan.sample.restartPredictor
  else losslessPredict scan.predictor scan.sample.restartPredictor x y (val c.outputIndex)

def GoodAt (scan : LosslessScan) (val : ℕ → ℕ → ℕ → ℤ) (c : ResolvedLosslessComponent)
    (x y : ℕ) : Prop :=
  Small (val c.outputIndex x y-predictedAt scan val c x y)

/-- Pictures of a scan whose planes the units tile, with the bits that code their samples. -/
structure CodedPictures (scan : LosslessScan) (val : ℕ → ℕ → ℕ → ℤ)
    (bits : ℕ → ℕ → ℕ → List ℕ) : Prop where
  planes : ∀ c ∈ scan.components, 0 < c.h ∧ 0 < c.v ∧
    c.planeWidth = scan.unitsPerRow*c.h ∧ c.planeHeight = scan.unitRows*c.v
  depth : scan.sample.bitDepth ≤ 16
  range : ∀ c ∈ scan.components, ∀ x < c.planeWidth, ∀ y < c.planeHeight,
    0 ≤ val c.outputIndex x y ∧ val c.outputIndex x y < 2^scan.sample.bitDepth
  coded : ∀ c ∈ scan.components, ∀ x < c.planeWidth, ∀ y < c.planeHeight,
    Coded c.dcTable (moduloDiff (val c.outputIndex x y-predictedAt scan val c x y))
      (bits c.outputIndex x y)

variable {bits : ℕ → ℕ → ℕ → List ℕ} {n : ℕ}

/-- A position of a MCU lies in the plane. -/
theorem CodedPictures.inside (hscan : CodedPictures scan val bits) {c : ResolvedLosslessComponent}
    (hc : c ∈ scan.components) {X Y localX localY : ℕ} (hX : X < scan.unitsPerRow)
    (hY : Y < scan.unitRows) (hx : localX < c.h) (hy : localY < c.v) :
    X*c.h+localX < c.planeWidth ∧ Y*c.v+localY < c.planeHeight := by
  obtain ⟨hh,hv,hwidth,hheight⟩ := hscan.planes c hc
  rw [hwidth,hheight]
  exact ⟨(Nat.div_lt_iff_lt_mul hh).mp (by rw [(local_div_mod hx).1]; exact hX),
    (Nat.div_lt_iff_lt_mul hv).mp (by rw [(local_div_mod hy).1]; exact hY)⟩

/-- One sample of a MCU. -/
theorem decodeMcuSample_coded (hscan : CodedPictures scan val bits) {X Y localX localY : ℕ}
    (hX : X < scan.unitsPerRow) (hY : Y < scan.unitRows) {c : ResolvedLosslessComponent}
    (hc : c ∈ scan.components) (hx : localX < c.h) (hy : localY < c.v) {first : Bool}
    (hfirst : first = true ↔ 0 < period scan ∧ (Y*scan.unitsPerRow+X) % period scan = 0)
    {D : ℕ → ℕ → ℕ → Prop} (hD : ∀ o x y, Earlier scan (Y*scan.unitsPerRow+X) o x y → D o x y)
    (hs : Covers val (fun o x y => D o x y ∨ InMcu c X Y localY localX o x y) s)
    (h : Reads r (bits c.outputIndex (X*c.h+localX) (Y*c.v+localY) ++ u))
    (hnext : r.next.isSome) :
    Decodes (GoodAt scan val c (X*c.h+localX) (Y*c.v+localY))
      (scan.decodePlaneSample c (X*c.h+localX) (Y*c.v+localY)
        (first && localX = 0 && localY = 0) s) r u
      (Covers val fun o x y => D o x y ∨ InMcu c X Y localY (localX+1) o x y) := by
  obtain ⟨hxlt,hylt⟩ := hscan.inside hc hX hY hx hy
  have hknown : ∀ i ≤ X*c.h+localX, ∀ l ≤ Y*c.v+localY,
      ¬(i = X*c.h+localX ∧ l = Y*c.v+localY) → s c.outputIndex i l = val c.outputIndex i l := by
    intro i hi l hl hne
    exact hs _ _ _ ((earlier_or_inMcu hc hx hy hX (hscan.planes c hc).2.2.1 hi hl hne).imp_left
      (hD _ _ _))
  have hpredict : losslessPredict scan.predictor scan.sample.restartPredictor
      (X*c.h+localX) (Y*c.v+localY) (s c.outputIndex) =
      losslessPredict scan.predictor scan.sample.restartPredictor
        (X*c.h+localX) (Y*c.v+localY) (val c.outputIndex) :=
    losslessPredict_congr _ _ (fun _ => hknown _ (by omega) _ (by omega) (by omega))
      (fun _ => hknown _ (by omega) _ (by omega) (by omega))
      fun _ _ => hknown _ (by omega) _ (by omega) (by omega)
  have hpredicted : (if (first && localX = 0 && localY = 0) = true then
      scan.sample.restartPredictor else losslessPredict scan.predictor
        scan.sample.restartPredictor (X*c.h+localX) (Y*c.v+localY) (s c.outputIndex)) =
      predictedAt scan val c (X*c.h+localX) (Y*c.v+localY) := by
    unfold predictedAt
    rw [hpredict,(local_div_mod hx).1,(local_div_mod hx).2,(local_div_mod hy).1,
      (local_div_mod hy).2]
    simp only [Bool.and_eq_true,decide_eq_true_eq,hfirst,and_assoc]
  refine (decodePlaneSample_coded hscan.depth hpredicted (hscan.range c hc _ hxlt _ hylt)
    (hscan.coded c hc _ hxlt _ hylt) h hnext).mono Iff.rfl ?_
  rintro s' rfl
  refine (hs.set _ _ _).mono fun o x y hpos => ?_
  rcases hpos with hpos | ⟨ho,hxX,hyY,hlocal⟩
  · exact .inl (.inl hpos)
  · by_cases hnew : y % c.v = localY ∧ x % c.h = localX
    · right
      have hxsplit := Nat.div_add_mod x c.h
      have hysplit := Nat.div_add_mod y c.v
      rw [hxX,hnew.2,Nat.mul_comm] at hxsplit
      rw [hyY,hnew.1,Nat.mul_comm] at hysplit
      exact ⟨ho,hxsplit.symm,hysplit.symm⟩
    · exact .inl (.inr ⟨ho,hxX,hyY,by omega⟩)

/-- The bits of a component in a MCU. -/
def mcuBits (bits : ℕ → ℕ → ℕ → List ℕ) (X Y : ℕ) (c : ResolvedLosslessComponent) : List ℕ :=
  (List.range c.v).flatMap fun localY => (List.range c.h).flatMap fun localX =>
    bits c.outputIndex (X*c.h+localX) (Y*c.v+localY)

/-- The samples of a component in a MCU. -/
theorem decodeMcuComponent_coded (hscan : CodedPictures scan val bits) {X Y : ℕ}
    (hX : X < scan.unitsPerRow) (hY : Y < scan.unitRows) {c : ResolvedLosslessComponent}
    (hc : c ∈ scan.components) {first : Bool}
    (hfirst : first = true ↔ 0 < period scan ∧ (Y*scan.unitsPerRow+X) % period scan = 0)
    {D : ℕ → ℕ → ℕ → Prop} (hD : ∀ o x y, Earlier scan (Y*scan.unitsPerRow+X) o x y → D o x y)
    (hs : Covers val D s) (h : Reads r (mcuBits bits X Y c ++ u)) (hnext : r.next.isSome) :
    Decodes (∀ localY ∈ List.range c.v, ∀ localX ∈ List.range c.h,
        GoodAt scan val c (X*c.h+localX) (Y*c.v+localY))
      (scan.decodeMcuComponent X Y first s c) r u
      (Covers val fun o x y => D o x y ∨ InMcu c X Y c.v 0 o x y) := by
  obtain ⟨hh,hv,-,-⟩ := hscan.planes c hc
  have hrow : ∀ localY < c.v, ∀ s r u,
      Covers val (fun o x y => D o x y ∨ InMcu c X Y localY 0 o x y) s →
      Reads r ((List.range c.h).flatMap (fun localX =>
        bits c.outputIndex (X*c.h+localX) (Y*c.v+localY)) ++ u) → r.next.isSome →
      Decodes (∀ localX ∈ List.range c.h, GoodAt scan val c (X*c.h+localX) (Y*c.v+localY))
        ((List.range c.h).foldlM (fun s localX =>
          let x := X*c.h+localX
          let y := Y*c.v+localY
          if c.planeWidth ≤ x ∨ c.planeHeight ≤ y then pure s
          else scan.decodePlaneSample c x y (first && localX = 0 && localY = 0) s) s) r u
        (Covers val fun o x y => D o x y ∨ InMcu c X Y (localY+1) 0 o x y) := by
    intro localY hy s r u hs hr hnext
    refine (foldlM_decodes (List.range c.h)
      (fun localX => Covers val fun o x y => D o x y ∨ InMcu c X Y localY localX o x y)
      (fun localX a hget s r u hs hr hnext => ?_) hs hr hnext).mono Iff.rfl ?_
    · obtain ⟨rfl,hx⟩ := getElem?_range_eq hget
      obtain ⟨hxlt,hylt⟩ := hscan.inside hc hX hY hx hy
      dsimp only
      rw [if_neg (by omega)]
      exact decodeMcuSample_coded hscan hX hY hc hx hy hfirst hD hs hr hnext
    · intro s' hcover
      refine hcover.mono fun o x y hpos => hpos.imp_right ?_
      rintro ⟨ho,hxX,hyY,hlocal⟩
      have := Nat.mod_lt x hh
      refine ⟨ho,hxX,hyY,?_⟩
      rw [List.length_range]
      omega
  refine (foldlM_decodes (List.range c.v)
    (fun localY => Covers val fun o x y => D o x y ∨ InMcu c X Y localY 0 o x y)
    (fun localY a hget s r u hs hr hnext => ?_)
    (hs.mono fun o x y hpos => hpos.resolve_right ?_) h hnext).mono Iff.rfl ?_
  · obtain ⟨rfl,hy⟩ := getElem?_range_eq hget
    exact hrow localY hy s r u hs hr hnext
  · rintro ⟨-,-,-,hlocal⟩
    omega
  · intro s' hcover
    rw [List.length_range] at hcover
    exact hcover

def GoodUnit (scan : LosslessScan) (val : ℕ → ℕ → ℕ → ℤ) (X Y : ℕ) : Prop :=
  ∀ c ∈ scan.components, ∀ localY ∈ List.range c.v, ∀ localX ∈ List.range c.h,
    GoodAt scan val c (X*c.h+localX) (Y*c.v+localY)

/-- One unit: the components in order. -/
theorem decodeMcu_coded (hscan : CodedPictures scan val bits) {X Y : ℕ}
    (hX : X < scan.unitsPerRow) (hY : Y < scan.unitRows) {first : Bool}
    (hfirst : first = true ↔ 0 < period scan ∧ (Y*scan.unitsPerRow+X) % period scan = 0)
    (hs : Covers val (Earlier scan (Y*scan.unitsPerRow+X)) s)
    (h : Reads r (scan.components.flatMap (mcuBits bits X Y) ++ u)) (hnext : r.next.isSome) :
    Decodes (GoodUnit scan val X Y) (scan.decodeMcu X Y first s) r u
      (Covers val (Earlier scan (Y*scan.unitsPerRow+X+1))) := by
  refine (foldlM_decodes scan.components
    (fun i => Covers val fun o x y => Earlier scan (Y*scan.unitsPerRow+X) o x y ∨
      ∃ j < i, ∃ c, scan.components[j]? = some c ∧ InMcu c X Y c.v 0 o x y)
    (fun i c hget s r u hs hr hnext => ?_)
    (hs.mono fun o x y hpos => hpos.resolve_right ?_) h hnext).mono Iff.rfl ?_
  · refine (decodeMcuComponent_coded hscan hX hY (List.mem_of_getElem? hget) hfirst
      (fun o x y he => .inl he) hs hr hnext).mono Iff.rfl fun s' hcover => ?_
    refine hcover.mono fun o x y hpos => ?_
    rcases hpos with hpos | ⟨j,hj,c',hc',hpos⟩
    · exact .inl (.inl hpos)
    · by_cases heq : j = i
      · subst heq
        rw [hget] at hc'
        obtain rfl := Option.some.inj hc'
        exact .inr hpos
      · exact .inl (.inr ⟨j,by omega,c',hc',hpos⟩)
  · rintro ⟨j,hj,-⟩
    omega
  · intro s' hcover
    refine hcover.mono fun o x y hpos => ?_
    obtain ⟨c,hc,ho,hwidth,hlt⟩ := hpos
    obtain ⟨hh,hv,hplane,-⟩ := hscan.planes c hc
    by_cases hnew : y/c.v*scan.unitsPerRow+x/c.h < Y*scan.unitsPerRow+X
    · exact .inl ⟨c,hc,ho,hwidth,hnew⟩
    · obtain ⟨j,hj,hget⟩ := List.mem_iff_getElem.mp hc
      have hcolumn : x/c.h < scan.unitsPerRow :=
        (Nat.div_lt_iff_lt_mul hh).mpr (hplane ▸ hwidth)
      obtain ⟨hyY,hxX⟩ := CountedLoops.cell_inj hcolumn hX (show y/c.v*scan.unitsPerRow+x/c.h =
        Y*scan.unitsPerRow+X by omega)
      exact .inr ⟨j,hj,c,List.getElem?_eq_some_iff.mpr ⟨hj,hget⟩,ho.symm,hxX,hyY,
        .inl (Nat.mod_lt y hv)⟩

/-! ## Scans -/

/-- The number of units. -/
def totalUnits (scan : LosslessScan) : ℕ := scan.unitRows*scan.unitsPerRow

def unitCode (scan : LosslessScan) (bits : ℕ → ℕ → ℕ → List ℕ) (n : ℕ) : List ℕ :=
  scan.components.flatMap (mcuBits bits (n % scan.unitsPerRow) (n/scan.unitsPerRow))

/-- The bits of the units from `a` to `b`. -/
def unitsCode (scan : LosslessScan) (bits : ℕ → ℕ → ℕ → List ℕ) (a b : ℕ) : List ℕ :=
  (List.range' a (b-a)).flatMap (unitCode scan bits)

/-- The units of an interval; without restarts the scan is one interval. -/
def intervalUnits (scan : LosslessScan) : ℕ :=
  if period scan = 0 then totalUnits scan else period scan

/-- The bytes of the intervals, each filled up with ones. -/
def intervalBytes (scan : LosslessScan) (bits : ℕ → ℕ → ℕ → List ℕ) : List (List ℕ) :=
  (List.range ((totalUnits scan+intervalUnits scan-1)/intervalUnits scan)).map fun i =>
    (((Emission.bits (unitsCode scan bits (i*intervalUnits scan)
      (intervalEnd scan (intervalUnits scan) i))).andThen Emission.align) 0 0).1

/-- The entropy bytes of a coded scan, with the restart markers and the end of the image. -/
def entropyBytes (scan : LosslessScan) (bits : ℕ → ℕ → ℕ → List ℕ) : List ℕ :=
  scanBytes 0 (intervalBytes scan bits)

theorem Coded.le_one (h : Coded table d w) : ∀ b ∈ w, b ≤ 1 := by
  obtain ⟨raw,codes,-,p,code,len,-,rfl⟩ := h
  intro b hb
  rcases List.mem_append.mp hb with hb | hb
  · exact codeBits_le hb
  · unfold magnitudeBits at hb
    by_cases hlast : categoryOf d = 16
    · rw [if_pos hlast] at hb
      exact absurd hb List.not_mem_nil
    · rw [if_neg hlast] at hb
      exact codeBits_le hb

theorem CodedPictures.unitCode_le (hscan : CodedPictures scan val bits) (hn : n < totalUnits scan) :
    ∀ b ∈ unitCode scan bits n, b ≤ 1 := by
  intro b hb
  have hwidth : 0 < scan.unitsPerRow := Nat.pos_of_ne_zero fun h => by
    rw [totalUnits,h,Nat.mul_zero] at hn
    omega
  obtain ⟨c,hc,hb⟩ := List.mem_flatMap.mp hb
  obtain ⟨localY,hy,hb⟩ := List.mem_flatMap.mp hb
  obtain ⟨localX,hx,hb⟩ := List.mem_flatMap.mp hb
  obtain ⟨hxlt,hylt⟩ := hscan.inside hc (Nat.mod_lt n hwidth)
    ((Nat.div_lt_iff_lt_mul hwidth).mpr hn) (List.mem_range.mp hx) (List.mem_range.mp hy)
  exact (hscan.coded c hc _ hxlt _ hylt).le_one b hb

theorem unitsCode_succ {a b : ℕ} (h : a < b) :
    unitsCode scan bits a b = unitCode scan bits a ++ unitsCode scan bits (a+1) b := by
  unfold unitsCode
  rw [show b-a = b-(a+1)+1 by omega,List.range'_succ,List.flatMap_cons]

/-- What the bytes of an interval hold. -/
theorem CodedPictures.carries (hscan : CodedPictures scan val bits) (i : ℕ) :
    ∃ data padding, Carries (((Emission.bits (unitsCode scan bits (i*intervalUnits scan)
        (intervalEnd scan (intervalUnits scan) i))).andThen Emission.align) 0 0).1 data ∧
      padding < 8 ∧ bytesBits data = unitsCode scan bits (i*intervalUnits scan)
        (intervalEnd scan (intervalUnits scan) i) ++ List.replicate padding 1 := by
  apply carries_bits
  intro b hb
  obtain ⟨n,hn,hb⟩ := List.mem_flatMap.mp hb
  have hend : intervalEnd scan (intervalUnits scan) i ≤ totalUnits scan := Nat.min_le_right _ _
  have hrange := List.mem_range'_1.mp hn
  exact hscan.unitCode_le (by omega) b hb

variable {i : ℕ}

theorem intervalBytes_get (hi : i < (intervalBytes scan bits).length) :
    (intervalBytes scan bits).get ⟨i,hi⟩ =
      (((Emission.bits (unitsCode scan bits (i*intervalUnits scan)
        (intervalEnd scan (intervalUnits scan) i))).andThen Emission.align) 0 0).1 := by
  simp [intervalBytes]

/-- A reader at an interval has the bits of its units ahead. -/
theorem CodedPictures.reads (hscan : CodedPictures scan val bits)
    (hi : i < (intervalBytes scan bits).length) (h : AtInterval (intervalBytes scan bits) i r) :
    ∃ padding < 8, Reads r (unitsCode scan bits (i*intervalUnits scan)
      (intervalEnd scan (intervalUnits scan) i) ++ List.replicate padding 1) := by
  obtain ⟨data,padding,hdata,hpadding,hbits⟩ := hscan.carries i
  exact ⟨padding,hpadding,reads_carried hi (by rw [intervalBytes_get hi]; exact hdata) hbits h⟩

theorem CodedPictures.interval_coded (hscan : CodedPictures scan val bits)
    (hi : i < (intervalBytes scan bits).length) :
    entropyCoded false ((intervalBytes scan bits).get ⟨i,hi⟩) := by
  obtain ⟨data,-,hdata,-,-⟩ := hscan.carries i
  have h := hdata.coded []
  rw [List.append_nil] at h
  rw [intervalBytes_get hi]
  exact h

/-- The intervals cover the units. -/
theorem interval_lt (hn : n < totalUnits scan) :
    n/intervalUnits scan < (intervalBytes scan bits).length := by
  have hpos : 0 < intervalUnits scan := by
    unfold intervalUnits
    split_ifs <;> omega
  rw [intervalBytes,List.length_map,List.length_range]
  refine Nat.lt_of_lt_of_le (Nat.lt_succ_self _) ?_
  rw [Nat.le_div_iff_mul_le hpos,Nat.succ_mul]
  have := Nat.div_mul_le_self n (intervalUnits scan)
  omega

/-- What a run over the units keeps: before each unit its bits come next, and what they leave is
kept for the unit after. -/
def Feeds (scan : LosslessScan) (bits : ℕ → ℕ → ℕ → List ℕ)
    (I : ℕ → LosslessRestartTracker → BitReader → Prop) : Prop :=
  ∀ n < totalUnits scan, ∀ t r index, I n t r → ∃ v q tail, t.restarted index r = .ok (v,q) ∧
    (v.isFirst = true ↔ 0 < period scan ∧ n % period scan = 0) ∧ q.next.isSome ∧
    Reads q (unitCode scan bits n ++ tail) ∧
    ∀ q', Reads q' tail → Kept q q' → I (n+1) v.finishUnit q'

/-- The first units decode to the pictures, or there is a sample among them that does not. -/
theorem run_decodes (hscan : CodedPictures scan val bits)
    {I : ℕ → LosslessRestartTracker → BitReader → Prop} (hfeeds : Feeds scan bits I)
    {bytes : List ℕ} (hzero : I 0 scan.tracker (BitReader.new bytes)) {count : ℕ}
    (hcount : count ≤ totalUnits scan) :
    ((∀ k < count, GoodUnit scan val (k % scan.unitsPerRow) (k/scan.unitsPerRow)) ∧
      ∃ t s r, runUnits scan count bytes = .ok ((t,s),r) ∧ Covers val (Earlier scan count) s ∧
        I count t r) ∨
    ((¬∀ k < count, GoodUnit scan val (k % scan.unitsPerRow) (k/scan.unitsPerRow)) ∧
      ∃ e, runUnits scan count bytes = .error e) := by
  induction count with
  | zero =>
      refine .inl ⟨nofun,scan.tracker,fun _ _ _ => 0,_,rfl,?_,hzero⟩
      rintro o x y ⟨c,-,-,-,hlt⟩
      exact absurd hlt (Nat.not_lt_zero _)
  | succ n ih =>
      have hn : n < totalUnits scan := hcount
      rcases ih (Nat.le_of_lt hn) with ⟨hgood,t,s,r,hrun,hknown,hI⟩ | ⟨hbad,e,hrun⟩
      · have hwidth : 0 < scan.unitsPerRow := Nat.pos_of_ne_zero fun h => by
          rw [totalUnits,h,Nat.mul_zero] at hn
          omega
        have hsplit : n/scan.unitsPerRow*scan.unitsPerRow+n % scan.unitsPerRow = n := by
          rw [Nat.mul_comm]
          exact Nat.div_add_mod n _
        obtain ⟨v,q,tail,hrestart,hfirst,hnext,hreads,hleave⟩ := hfeeds n hn t r
          (n/scan.unitsPerRow*scan.unitsPerRow+n % scan.unitsPerRow) hI
        rcases decodeMcu_coded hscan (Nat.mod_lt n hwidth)
          ((Nat.div_lt_iff_lt_mul hwidth).mpr hn) (hsplit.symm ▸ hfirst) (hsplit.symm ▸ hknown)
          hreads hnext with ⟨hunit,s',r',hmcu,hr',hk,hknown'⟩ | ⟨hunit,e,hmcu⟩
        · left
          refine ⟨fun k hk => ?_,v.finishUnit,s',r',runUnits_step hn hrun ?_,?_,hleave r' hr' hk⟩
          · rcases Nat.lt_succ_iff_lt_or_eq.mp hk with hk | rfl
            · exact hgood k hk
            · exact hunit
          · exact (run_bind_ok hrestart).trans (run_bind_ok hmcu)
          · rw [hsplit] at hknown'
            exact hknown'
        · right
          refine ⟨fun hall => hunit (hall n (Nat.lt_succ_self n)),e,runUnits_step_error hn hrun ?_⟩
          exact (run_bind_ok hrestart).trans (run_bind_error hmcu)
      · exact .inr ⟨fun hall => hbad fun k hk => hall k (Nat.lt_succ_of_lt hk),e,
          runUnits_error hn hrun⟩

/-- Between the units of a scan with restarts. -/
structure Restarting (scan : LosslessScan) (bits : ℕ → ℕ → ℕ → List ℕ) (n : ℕ)
    (t : LosslessRestartTracker) (r : BitReader) : Prop where
  before : Before scan (period scan) (intervalBytes scan bits) n t r
  reads : 0 < n → ∃ padding < 8, Reads r (unitsCode scan bits n
    (intervalEnd scan (period scan) ((n-1)/period scan)) ++ List.replicate padding 1)

theorem feeds_restarting (hscan : CodedPictures scan val bits) (hper : 0 < period scan) :
    Feeds scan bits (Restarting scan bits) := by
  intro n hn t r index h
  have hunits : intervalUnits scan = period scan := if_neg (Nat.ne_of_gt hper)
  have hinterval : scan.restartInterval = some (period scan) := by
    unfold period at hper ⊢
    cases hcase : scan.restartInterval with
    | none => rw [hcase] at hper; exact absurd hper (Nat.lt_irrefl 0)
    | some per => rfl
  have hinside : n/period scan < (intervalBytes scan bits).length := hunits ▸ interval_lt hn
  have hend : n < intervalEnd scan (period scan) (n/period scan) :=
    Nat.lt_min.mpr ⟨(Nat.div_lt_iff_lt_mul hper).mp (Nat.lt_succ_self _),hn⟩
  have hused : 0 < n → n % period scan = 0 → r.ahead = [] := fun hnpos hzero => by
    obtain ⟨hdiv,-⟩ := (CountedLoops.pred_div_mod hper hnpos).1 hzero
    obtain ⟨padding,hpadding,hreads⟩ := h.reads hnpos
    have hlast : intervalEnd scan (period scan) ((n-1)/period scan) = n := by
      rw [intervalEnd,← hdiv,Nat.div_mul_cancel (Nat.dvd_of_mod_eq_zero hzero)]
      exact Nat.min_eq_left (Nat.le_of_lt hn)
    refine ahead_eq_nil_of_short hreads ?_
    simpa [hlast,unitsCode] using hpadding
  obtain ⟨v,q,hrun⟩ := exists_restarted hper hinterval hinside h.before hused index
  obtain ⟨hin,htracker⟩ := entered_of_restarted hper hinterval
    (fun i hi => hscan.interval_coded hi) (Nat.zero_lt_of_lt hinside) h.before hrun
  obtain ⟨padding,hpadding,hreads⟩ : ∃ padding < 8, Reads q (unitsCode scan bits n
      (intervalEnd scan (period scan) (n/period scan)) ++ List.replicate padding 1) := by
    by_cases hzero : n % period scan = 0
    · obtain ⟨padding,hpadding,hreads⟩ := hscan.reads hinside (hin.start hzero)
      rw [hunits,Nat.div_mul_cancel (Nat.dvd_of_mod_eq_zero hzero)] at hreads
      exact ⟨padding,hpadding,hreads⟩
    · have hnpos : 0 < n := Nat.pos_of_ne_zero fun h => hzero (by rw [h,Nat.zero_mod])
      obtain ⟨hdiv,-⟩ := (CountedLoops.pred_div_mod hper hnpos).2 hzero
      rw [hin.kept hzero,hdiv]
      exact h.reads hnpos
  rw [unitsCode_succ hend,List.append_assoc] at hreads
  refine ⟨v,q,_,hrun,?_,?_,hreads,fun q' hq' hk => ⟨⟨htracker,
    fun h => absurd h (Nat.succ_ne_zero n),fun _ => ?_⟩,fun _ => ?_⟩⟩
  · rw [hin.first,decide_eq_true_eq]
    exact (and_iff_right hper).symm
  · rw [hin.inside.2.2]
    rfl
  · rw [Nat.add_sub_cancel]
    exact hin.inside.kept hk
  · rw [Nat.add_sub_cancel]
    exact ⟨padding,hpadding,hq'⟩

/-- Between the units of a scan without restarts. -/
structure Plain (scan : LosslessScan) (bits : ℕ → ℕ → ℕ → List ℕ) (n : ℕ)
    (t : LosslessRestartTracker) (r : BitReader) : Prop where
  tracker : t.restartInterval = 0
  next : r.next.isSome
  reads : ∃ padding, Reads r (unitsCode scan bits n (totalUnits scan) ++
    List.replicate padding 1)

theorem feeds_plain (hper : period scan = 0) : Feeds scan bits (Plain scan bits) := by
  intro n hn t r index h
  obtain ⟨padding,hreads⟩ := h.reads
  rw [unitsCode_succ hn,List.append_assoc] at hreads
  refine ⟨t,r,_,?_,?_,h.next,hreads,fun q' hq' hk => ⟨h.tracker,hk.next ▸ h.next,padding,hq'⟩⟩
  · unfold LosslessRestartTracker.restarted
    rw [h.tracker]
    rfl
  · unfold LosslessRestartTracker.isFirst
    rw [h.tracker,hper]
    simp

/-- A coded scan decodes to its pictures when all samples are good, and fails otherwise. -/
theorem decode_coded (hscan : CodedPictures scan val bits) (hpos : 0 < totalUnits scan) :
    ((∀ k < totalUnits scan, GoodUnit scan val (k % scan.unitsPerRow) (k/scan.unitsPerRow)) ∧
      ∃ t s r, runUnits scan (totalUnits scan) (entropyBytes scan bits) = .ok ((t,s),r) ∧
        Covers val (Earlier scan (totalUnits scan)) s) ∨
    ((¬∀ k < totalUnits scan, GoodUnit scan val (k % scan.unitsPerRow) (k/scan.unitsPerRow)) ∧
      ∃ e, runUnits scan (totalUnits scan) (entropyBytes scan bits) = .error e) := by
  have hstart := atInterval_new (intervalBytes scan bits)
  have hfirst : 0 < (intervalBytes scan bits).length := by
    have h : 0/intervalUnits scan < (intervalBytes scan bits).length := interval_lt hpos
    rw [Nat.zero_div] at h
    exact h
  have hrun : ∀ I, Feeds scan bits I →
      I 0 scan.tracker (BitReader.new (entropyBytes scan bits)) → _ :=
    fun I hfeeds hzero => run_decodes hscan hfeeds hzero (le_refl (totalUnits scan))
  by_cases hper : period scan = 0
  · obtain ⟨padding,-,hreads⟩ := hscan.reads hfirst hstart
    have hunits : intervalUnits scan = totalUnits scan := if_pos hper
    have hend : intervalEnd scan (totalUnits scan) 0 = totalUnits scan := by
      rw [intervalEnd,Nat.zero_add,Nat.one_mul]
      exact Nat.min_self _
    rw [hunits,Nat.zero_mul,hend] at hreads
    have hnext := (hstart.inInterval hfirst (hscan.interval_coded hfirst)).2.2
    refine (hrun (Plain scan bits) (feeds_plain hper) ⟨hper,?_,padding,hreads⟩).imp_left ?_
    · rw [entropyBytes,hnext]
      rfl
    · rintro ⟨hgood,t,s,r,h,hknown,-⟩
      exact ⟨hgood,t,s,r,h,hknown⟩
  · refine (hrun (Restarting scan bits) (feeds_restarting hscan (Nat.pos_of_ne_zero hper))
      ⟨⟨?_,fun _ => hstart,fun h => absurd h (Nat.lt_irrefl 0)⟩,
        fun h => absurd h (Nat.lt_irrefl 0)⟩).imp_left ?_
    · simp [trackerAt,LosslessScan.tracker,LosslessRestartTracker.new]
    · rintro ⟨hgood,t,s,r,h,hknown,-⟩
      exact ⟨hgood,t,s,r,h,hknown⟩

end

/-! ## Scans -/

/-- A lossless scan of up to 16 bits with its pictures and the bits that code them. -/
structure CodedScan where
  loop : LosslessLoop
  sample : LosslessSample
  predictor : ℕ
  width : ℕ
  height : ℕ
  restartInterval : Option ℕ
  tables : ℕ → HuffmanTable
  val : ℕ → ℕ → ℕ → ℤ
  bits : ℕ → ℕ → ℕ → List ℕ
  sample_mem : sample = .u8 ∨ sample = .u16
  predictor_mem : 1 ≤ predictor ∧ predictor ≤ 7
  width_pos : 0 < width
  height_pos : 0 < height
  supports : loop.Supports width height
  range : ∀ c ∈ (loop.scan sample predictor width height restartInterval tables).components,
    ∀ x < c.planeWidth, ∀ y < c.planeHeight,
      0 ≤ val c.outputIndex x y ∧ val c.outputIndex x y < 2^sample.bitDepth
  coded : ∀ c ∈ (loop.scan sample predictor width height restartInterval tables).components,
    ∀ x < c.planeWidth, ∀ y < c.planeHeight, Coded c.dcTable (moduloDiff (val c.outputIndex x y-
      predictedAt (loop.scan sample predictor width height restartInterval tables) val c x y))
      (bits c.outputIndex x y)

namespace CodedScan
variable (coded : CodedScan)

def scan : LosslessScan :=
  coded.loop.scan coded.sample coded.predictor coded.width coded.height coded.restartInterval
    coded.tables

/-- What the decoder makes of the coded scan. -/
def decoded : Except JpegError Samples :=
  coded.scan.decode (entropyBytes coded.scan coded.bits)

/-- The positions of all planes. -/
def Everywhere (P : ResolvedLosslessComponent → ℕ → ℕ → Prop) : Prop :=
  ∀ c ∈ coded.scan.components, ∀ x < c.planeWidth, ∀ y < c.planeHeight, P c x y

/-- The coded samples come back. -/
def Faithful : Prop :=
  ∃ s, coded.decoded = .ok s ∧
    coded.Everywhere fun c x y => s c.outputIndex x y = coded.val c.outputIndex x y

theorem sample_eq : coded.scan.sample = coded.sample := by
  unfold scan
  cases coded.loop <;> rfl

theorem pictures : CodedPictures coded.scan coded.val coded.bits where
  planes := fun c hc => by
    obtain ⟨hh,hv,hwidth,hheight,-⟩ := LosslessLoop.scan_component coded.supports hc
    exact ⟨hh,hv,hwidth,hheight⟩
  depth := by
    rw [sample_eq]
    rcases coded.sample_mem with h | h <;> rw [h] <;> decide
  range := by
    rw [sample_eq]
    exact coded.range
  coded := coded.coded

theorem totalUnits_pos : 0 < totalUnits coded.scan := by
  have hwidth := coded.width_pos
  have hheight := coded.height_pos
  unfold totalUnits scan
  cases coded.loop with
  | gray => exact Nat.mul_pos hheight hwidth
  | color order => exact Nat.mul_pos hheight hwidth
  | sampled order sampling =>
      have hv := sampling.v_pos
      exact Nat.mul_pos (Nat.div_pos (by omega) hv) (Nat.div_pos (by omega) Nat.two_pos)

variable {coded}

/-- The unit of a position. -/
theorem unit_of_position {c : ResolvedLosslessComponent} (hc : c ∈ coded.scan.components) {x y : ℕ}
    (hx : x < c.planeWidth) (hy : y < c.planeHeight) :
    x/c.h < coded.scan.unitsPerRow ∧
      y/c.v*coded.scan.unitsPerRow+x/c.h < totalUnits coded.scan := by
  obtain ⟨hh,hv,hwidth,hheight⟩ := coded.pictures.planes c hc
  rw [hwidth] at hx
  rw [hheight] at hy
  have hcolumn := (Nat.div_lt_iff_lt_mul hh).mpr hx
  have hrow := Nat.mul_le_mul_right coded.scan.unitsPerRow
    (Nat.succ_le_of_lt ((Nat.div_lt_iff_lt_mul hv).mpr hy))
  rw [Nat.succ_mul] at hrow
  exact ⟨hcolumn,by unfold totalUnits; omega⟩

theorem good_iff : (∀ k < totalUnits coded.scan, GoodUnit coded.scan coded.val
      (k % coded.scan.unitsPerRow) (k/coded.scan.unitsPerRow)) ↔
    coded.Everywhere (GoodAt coded.scan coded.val) := by
  constructor
  · intro hall c hc x hx y hy
    obtain ⟨hh,hv,-,-⟩ := coded.pictures.planes c hc
    obtain ⟨hcolumn,hunit⟩ := unit_of_position hc hx hy
    have hgood := hall _ hunit c hc (y % c.v) (List.mem_range.mpr (Nat.mod_lt y hv)) (x % c.h)
      (List.mem_range.mpr (Nat.mod_lt x hh))
    rw [CountedLoops.cell_div _ hcolumn,CountedLoops.cell_mod _ hcolumn,Nat.mul_comm,
      Nat.div_add_mod,Nat.mul_comm,Nat.div_add_mod] at hgood
    exact hgood
  · intro hall k hk c hc localY hy localX hx
    have hwidth : 0 < coded.scan.unitsPerRow := Nat.pos_of_ne_zero fun h => by
      rw [totalUnits,h,Nat.mul_zero] at hk
      omega
    obtain ⟨hxlt,hylt⟩ := coded.pictures.inside hc (Nat.mod_lt k hwidth)
      ((Nat.div_lt_iff_lt_mul hwidth).mpr hk) (List.mem_range.mp hx) (List.mem_range.mp hy)
    exact hall c hc _ hxlt _ hylt

end CodedScan

/-- The samples come back if and only if every one of them is less than 2^15 away from its
prediction. -/
theorem faithful_iff (coded : CodedScan) : coded.Faithful ↔ coded.Everywhere fun c x y =>
    -2^15 < coded.val c.outputIndex x y-predictedAt coded.scan coded.val c x y ∧
      coded.val c.outputIndex x y-predictedAt coded.scan coded.val c x y < 2^15 := by
  have hlength : coded.scan.units.length = totalUnits coded.scan := by
    rw [units_eq,List.length_map,List.length_range]
    rfl
  change _ ↔ coded.Everywhere (GoodAt coded.scan coded.val)
  rw [← CodedScan.good_iff]
  unfold CodedScan.Faithful CodedScan.decoded LosslessScan.decode
  rw [hlength]
  rcases decode_coded coded.pictures coded.totalUnits_pos with
    ⟨hgood,t,s,r,hrun,hknown⟩ | ⟨hbad,e,hrun⟩
  · refine iff_of_true ⟨s,?_,fun c hc x hx y hy => ?_⟩ hgood
    · show (runUnits coded.scan (totalUnits coded.scan) _ >>= fun p => _) = _
      rw [hrun]
      rfl
    · exact hknown _ _ _ ⟨c,hc,rfl,hx,(CodedScan.unit_of_position hc hx hy).2⟩
  · refine iff_of_false ?_ hbad
    rintro ⟨s,hdecode,-⟩
    obtain ⟨t,r,hrun'⟩ := decodeUnits_ok hdecode
    rw [hrun] at hrun'
    cases hrun'

/-! ## A sample far from its prediction -/

theorem length_sixteenOnly : [1,0,0,0,0,0,0,0,0,0,0,0,0,0,0,0].length = 16 := rfl

/-- The code 0, of the category 16. -/
def sixteenOnly : RawHuffmanTable where
  bits := [1,0,0,0,0,0,0,0,0,0,0,0,0,0,0,0]
  values := [16]
  bits_length := length_sixteenOnly
  values_lt := by decide

theorem coded_sixteen {table : HuffmanTable} (h : HuffmanTable.fromRaw sixteenOnly .dc = .ok table) :
    Coded table (2^15) [0] := by
  obtain ⟨codes,hbuilt⟩ := exists_builtFrom h
  have hassigned : Except.ok [0] = Except.ok codes := hbuilt.canonical.assigned
  obtain rfl := Except.ok.inj hassigned
  have hcategory : categoryOf (2^15) = 16 := by decide
  refine ⟨sixteenOnly,[0],hbuilt,0,0,1,?_,?_⟩
  · rw [hcategory]
    exact ⟨rfl,rfl,rfl⟩
  · rw [magnitudeBits,if_pos hcategory]
    rfl

theorem predictor_blackSample : 1 ≤ 1 ∧ 1 ≤ 7 := by decide

/-- One black sample, predicted from the middle of the range. -/
def blackSample (table : HuffmanTable) (h : HuffmanTable.fromRaw sixteenOnly .dc = .ok table) :
    CodedScan where
  loop := .gray
  sample := .u16
  predictor := 1
  width := 1
  height := 1
  restartInterval := none
  tables := fun _ => table
  val := fun _ _ _ => 0
  bits := fun _ _ _ => [0]
  sample_mem := Or.inr rfl
  predictor_mem := predictor_blackSample
  width_pos := Nat.one_pos
  height_pos := Nat.one_pos
  supports := trivial
  range := fun _ _ _ _ _ _ => ⟨le_refl 0,by decide⟩
  coded := fun c hc x hx y hy => by
    obtain rfl := List.mem_singleton.mp hc
    obtain rfl := Nat.lt_one_iff.mp hx
    obtain rfl := Nat.lt_one_iff.mp hy
    exact coded_sixteen h

/-- The difference -32768 is sent as the category 16, and refused. -/
theorem black_sample_refused : ∃ table, ∃ h : HuffmanTable.fromRaw sixteenOnly .dc = .ok table,
    entropyBytes (blackSample table h).scan (blackSample table h).bits = [0x7F,0xFF,0xD9] ∧
    (blackSample table h).decoded = .error (huffmanFailure .invalidSymbol) ∧
    ¬(blackSample table h).Faithful := by
  obtain ⟨table,h,hbytes,hdecoded⟩ : ∃ table, ∃ h : HuffmanTable.fromRaw sixteenOnly .dc = .ok table,
      entropyBytes (blackSample table h).scan (blackSample table h).bits = [0x7F,0xFF,0xD9] ∧
      (blackSample table h).decoded = .error (huffmanFailure .invalidSymbol) :=
    ⟨_,rfl,rfl,rfl⟩
  refine ⟨table,h,hbytes,hdecoded,?_⟩
  rintro ⟨s,hs,-⟩
  rw [hdecoded] at hs
  exact nomatch hs

end J2kNative.LosslessCoding
