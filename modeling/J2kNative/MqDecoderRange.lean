import J2kNative.MqRoundTrip

/-!
# MQ decoder on arbitrary data

Every register operation of the decoder that can fail on machine integers, once
more with its check: a subtraction needs its operand to be small enough and a
shift its amount below 32. On any bytes and from any valid labels the checks pass
and the checked decoder takes the steps of the unchecked one, with the batched
renormalization as with the loop that shifts one bit at a time.
-/
namespace J2kNative.MqDecoderRange
open MqStates MqInterval MqDecoder

def checkedSub (x y : ℕ) : Option ℕ := if y ≤ x then some (x - y) else none

/-- A shift of a 32-bit register. -/
def checkedShl (x n : ℕ) : Option ℕ := if n < 32 then some (x <<< n % 2 ^ 32) else none

theorem checkedSub_of_le {x y : ℕ} (h : y ≤ x) : checkedSub x y = some (x - y) := if_pos h

theorem checkedShl_of_lt {n : ℕ} (x : ℕ) (h : n < 32) : checkedShl x n = some (x <<< n % 2 ^ 32) :=
  if_pos h

/-- `initialize`. -/
def checkedNew (data : List ℕ) : Option ArithmeticDecoder := do
  let d : ArithmeticDecoder := ⟨data,0,0,0,0⟩
  let d := { d with c := (d.currentByte ^^^ 0xFF) <<< 16 }
  let d := d.readByte
  let c ← checkedShl d.c 7
  let shiftCount ← checkedSub d.shiftCount 7
  some { d with c, shiftCount, a := 0x8000 }

/-- `renormalize`; without fuel the loop has to be done. -/
def checkedRenormalize : ℕ → ArithmeticDecoder → Option ArithmeticDecoder
  | 0, d => if d.a &&& 0x8000 = 0 then none else some d
  | fuel + 1, d =>
      if d.a &&& 0x8000 = 0 then do
        let d := if d.shiftCount = 0 then d.readByte else d
        let shiftsNeeded ← checkedSub (leadingZeros d.a) 16
        let batch := min shiftsNeeded d.shiftCount
        let a ← checkedShl d.a batch
        let c ← checkedShl d.c batch
        let shiftCount ← checkedSub d.shiftCount batch
        checkedRenormalize fuel { d with a, c, shiftCount }
      else some d

/-- The RENORMD loop of the standard, which shifts first and asks then. -/
def renormd : ℕ → ArithmeticDecoder → Option ArithmeticDecoder
  | 0, _ => none
  | fuel + 1, d => do
      let d := if d.shiftCount = 0 then d.readByte else d
      let a ← checkedShl d.a 1
      let c ← checkedShl d.c 1
      let shiftCount ← checkedSub d.shiftCount 1
      let d := { d with a, c, shiftCount }
      if d.a &&& 0x8000 ≠ 0 then some d else renormd fuel d

/-- `decode` with a procedure for the renormalization. -/
def checkedDecode (renormalize : ArithmeticDecoder → Option ArithmeticDecoder)
    (d : ArithmeticDecoder) (ctx : Context) : Option (ℕ × ArithmeticDecoder × Context) := do
  let state := packedDecoderState ctx
  let qe := state &&& 0xFFFF
  let mps := if (state >>> 16) &&& 1 ≠ 0 then 1 else 0
  let a ← checkedSub d.a qe
  let d := { d with a }
  if d.c >>> 16 < d.a ∧ d.a &&& 0x8000 ≠ 0 then some (mps,d,ctx)
  else
    let isLps := if d.c >>> 16 ≥ d.a then 1 else 0
    let lpsMask := wrappingSub 0 isLps
    let shifted ← checkedShl d.a 16
    let c ← checkedSub d.c (shifted &&& lpsMask)
    let d := { d with c }
    let cond := if d.a < qe then 1 else 0
    let d := { d with a := (d.a &&& (lpsMask ^^^ 0xFFFFFFFF)) ||| (qe &&& lpsMask) }
    let pickNlps := cond ^^^ isLps
    let bit := mps ^^^ pickNlps
    let pickMask := if pickNlps ≠ 0 then 0xFF else 0
    let nextMps := (state >>> 24) % 256
    let nextLps := (state >>> 32) % 256
    let ctx := nextMps ^^^ ((nextMps ^^^ nextLps) &&& pickMask)
    let d ← renormalize d
    some (bit,d,ctx)

/-! ## Registers in their range -/

structure InRange (d : ArithmeticDecoder) : Prop where
  low : 0x8000 ≤ d.a
  high : d.a ≤ 0xFFFF

theorem checkedNew_eq (data : List ℕ) : checkedNew data = some (.new data) := by
  unfold checkedNew ArithmeticDecoder.new
  dsimp only
  rw [checkedShl_of_lt _ (by decide)]
  dsimp only [Option.bind_eq_bind,Option.bind_some]
  rw [checkedSub_of_le (by
    rcases readByte_shiftCount
      ⟨data,(ArithmeticDecoder.currentByte ⟨data,0,0,0,0⟩ ^^^ 0xFF) <<< 16,0,0,0⟩ with h | h <;>
    omega)]
  rfl

theorem inRange_new (data : List ℕ) : InRange (.new data) :=
  ⟨Nat.le_refl 0x8000,(by decide : 0x8000 ≤ 0xFFFF)⟩

theorem refill_eq (d : ArithmeticDecoder) :
    (if d.shiftCount = 0 then d.readByte else d) = refill d := rfl

/-- A batch passes its checks, and the loop goes on behind it. -/
theorem checkedRenormalize_succ {fuel : ℕ} {d : ArithmeticDecoder} (h : 0 < d.a)
    (ha : d.a < 0x8000) : checkedRenormalize (fuel + 1) d =
      checkedRenormalize fuel (MqDecoder.shiftBy (min (shortfall d.a) (refill d).shiftCount) (refill d)) := by
  have hlz := leadingZeros_eq h ha
  have hs := shortfall_pos h ha
  have hle : shortfall d.a ≤ 15 := Nat.sub_le _ _
  conv_lhs => unfold checkedRenormalize
  rw [if_pos ((and_half_eq_zero (by omega)).mpr ha)]
  rw [refill_eq]
  simp only [refill_a]
  rw [checkedSub_of_le (by omega),hlz]
  dsimp only [Option.bind_eq_bind,Option.bind_some]
  rw [checkedShl_of_lt _ (by omega),checkedShl_of_lt _ (by omega),
    checkedSub_of_le (Nat.min_le_right _ _),MqDecoder.shiftBy,refill_a]
  rfl

theorem checkedRenormalize_eq (fuel : ℕ) {d : ArithmeticDecoder} (h : 0 < d.a)
    (ha : d.a < 0x10000) (hf : shortfall d.a ≤ fuel) :
    checkedRenormalize fuel d = some (renormalizeOnce^[shortfall d.a] d) := by
  induction fuel generalizing d with
  | zero =>
      have hge : ¬ d.a < 0x8000 := fun hlt => by
        have := shortfall_pos h hlt
        omega
      rw [Nat.le_zero.mp hf]
      exact if_neg fun h0 => hge ((and_half_eq_zero ha).mp h0)
  | succ fuel ih =>
      by_cases hlt : d.a < 0x8000
      · have hs := shortfall_pos h hlt
        have hr := refill_pos d
        rw [checkedRenormalize_succ h hlt]
        obtain ⟨n,hn⟩ : ∃ n, min (shortfall d.a) (refill d).shiftCount = n + 1 :=
          ⟨_,(Nat.succ_pred_eq_of_pos (by omega)).symm⟩
        rw [hn]
        obtain ⟨hm,hsub⟩ := mul_two_pow_lt h hlt (n := n + 1) (by omega)
        have hae : (MqDecoder.shiftBy (n + 1) (refill d)).a = d.a * 2 ^ (n + 1) := by
          simp only [MqDecoder.shiftBy,refill_a,Nat.shiftLeft_eq]
          exact Nat.mod_eq_of_lt (by omega)
        rw [ih (by rw [hae]; exact Nat.mul_pos h (Nat.two_pow_pos _)) (by rw [hae]; exact hm)
          (by rw [hae,hsub]; omega),hae,hsub,← iterate_once n (by omega),
          ← Function.iterate_add_apply]
        congr 3
        omega
      · unfold checkedRenormalize
        rw [if_neg (fun h0 => hlt ((and_half_eq_zero ha).mp h0)),
          shortfall_eq_zero (Nat.not_lt.mp hlt)]
        rfl

/-- The loop of the standard, from a register that needs it. -/
theorem renormd_eq (fuel : ℕ) {d : ArithmeticDecoder} (h : 0 < d.a) (ha : d.a < 0x8000)
    (hf : shortfall d.a ≤ fuel) : renormd fuel d = some (renormalizeOnce^[shortfall d.a] d) := by
  induction fuel generalizing d with
  | zero =>
      have := shortfall_pos h ha
      omega
  | succ fuel ih =>
      have hs := shortfall_pos h ha
      have hr := refill_pos d
      obtain ⟨hm,hsub⟩ := mul_two_pow_lt h ha (n := 1) hs
      have hae : (renormalizeOnce d).a = d.a * 2 ^ 1 := by
        simp only [renormalizeOnce,MqDecoder.shiftBy,refill_a,Nat.shiftLeft_eq]
        exact Nat.mod_eq_of_lt (by omega)
      have hturn : renormd (fuel + 1) d = if (renormalizeOnce d).a &&& 0x8000 ≠ 0 then
          some (renormalizeOnce d) else renormd fuel (renormalizeOnce d) := by
        conv_lhs => unfold renormd
        rw [refill_eq]
        dsimp only
        rw [checkedShl_of_lt _ (by decide),checkedShl_of_lt _ (by decide),checkedSub_of_le hr]
        rfl
      obtain ⟨n,hn⟩ : ∃ n, shortfall d.a = n + 1 := ⟨_,(Nat.succ_pred_eq_of_pos hs).symm⟩
      rw [hturn,hn,Function.iterate_succ_apply]
      rw [← hae] at hm hsub
      split_ifs with hb
      · have hge : 0x8000 ≤ (renormalizeOnce d).a :=
          Nat.not_lt.mp fun hlt => hb ((and_half_eq_zero hm).mpr hlt)
        rw [shortfall_eq_zero hge] at hsub
        obtain rfl : n = 0 := by omega
        rfl
      · have hlt := (and_half_eq_zero hm).mp (not_not.mp hb)
        rw [ih (by omega) hlt (by omega),hsub,hn,Nat.add_sub_cancel]

/-- A renormalization that does what the decoder's does, where there is something to do. -/
def Renormalizes (renormalize : ArithmeticDecoder → Option ArithmeticDecoder) : Prop :=
  ∀ d : ArithmeticDecoder, 0 < d.a → d.a < 0x8000 → renormalize d = some d.renormalize

theorem renormalize_eq {d : ArithmeticDecoder} (h : 0 < d.a) (ha : d.a < 0x10000) :
    d.renormalize = renormalizeOnce^[shortfall d.a] d :=
  renormalizeLoop_eq 15 h ha (Nat.sub_le _ _)

theorem renormalizes_batched : Renormalizes (checkedRenormalize 15) := fun d h ha => by
  rw [renormalize_eq h (by omega)]
  exact checkedRenormalize_eq 15 h (by omega) (Nat.sub_le _ _)

theorem renormalizes_single : Renormalizes (renormd 15) := fun d h ha => by
  rw [renormalize_eq h (by omega)]
  exact renormd_eq 15 h ha (Nat.sub_le _ _)

/-- The length of the interval, once it is back at bit 15. -/
theorem renormalize_inRange {d : ArithmeticDecoder} (h : 0 < d.a) (ha : d.a < 0x10000) :
    InRange d.renormalize := by
  have hturns : ∀ n {d : ArithmeticDecoder}, 0 < d.a → d.a < 0x10000 → shortfall d.a = n →
      InRange (renormalizeOnce^[n] d) := by
    intro n
    induction n with
    | zero =>
        intro d h ha hn
        refine ⟨Nat.not_lt.mp fun hlt => ?_,by rw [Function.iterate_zero_apply]; omega⟩
        have := shortfall_pos h hlt
        omega
    | succ n ih =>
        intro d h ha hn
        have hlt := lt_of_shortfall_pos (a := d.a) (by omega)
        obtain ⟨hm,hsub⟩ := mul_two_pow_lt h hlt (n := 1) (by omega)
        have hae : (renormalizeOnce d).a = d.a * 2 ^ 1 := by
          simp only [renormalizeOnce,MqDecoder.shiftBy,refill_a,Nat.shiftLeft_eq]
          exact Nat.mod_eq_of_lt (by omega)
        rw [Function.iterate_succ_apply]
        exact ih (by omega) (by omega) (by rw [hae]; omega)
  rw [renormalize_eq h ha]
  exact hturns _ h ha rfl

/-! ## Symbols -/

theorem low_mask (x isLps : ℕ) :
    x &&& wrappingSub 0 isLps ≤ x ∧ (isLps = 0 → x &&& wrappingSub 0 isLps = 0) := by
  refine ⟨Nat.and_le_left,fun h0 => ?_⟩
  rw [h0]
  exact Nat.and_zero x

/-- The masks keep one of the two lengths. -/
theorem masked_length {a qe isLps : ℕ} (h : isLps = 0 ∨ isLps = 1) (ha : a < 0x10000)
    (hq : qe < 0x10000) :
    a &&& (wrappingSub 0 isLps ^^^ 0xFFFFFFFF) ||| (qe &&& wrappingSub 0 isLps) =
      if isLps = 0 then a else qe := by
  have hand (x : ℕ) (hx : x < 0x10000) : x &&& 0xFFFFFFFF = x := by
    rw [show (0xFFFFFFFF : ℕ) = 2 ^ 32 - 1 from rfl,Nat.and_two_pow_sub_one_eq_mod]
    exact Nat.mod_eq_of_lt (by omega)
  rcases h with rfl | rfl
  · rw [show wrappingSub 0 0 = 0 from rfl,Nat.zero_xor,Nat.and_zero,Nat.or_zero,hand a ha]
    rfl
  · rw [show wrappingSub 0 1 = 0xFFFFFFFF from rfl,Nat.xor_self,Nat.and_zero,Nat.zero_or,hand qe hq]
    rfl

/-- On registers in range every check of a decoded symbol passes. -/
theorem checkedDecode_eq {renormalize : ArithmeticDecoder → Option ArithmeticDecoder}
    (hrenormalize : Renormalizes renormalize) {d : ArithmeticDecoder} {ctx : Context}
    (h : InRange d) (hc : ctx.Valid) :
    checkedDecode renormalize d ctx = some (d.decode ctx) ∧ InRange (d.decode ctx).2.1 := by
  have hu := packed_spec hc
  have hr := row_bounds hc
  have hpos := hr.qe_pos
  have hq := hr.qe_le
  have hlow := h.low
  have hhigh := h.high
  unfold checkedDecode ArithmeticDecoder.decode
  simp only [hu.qe]
  rw [checkedSub_of_le (by omega)]
  dsimp only [Option.bind_eq_bind,Option.bind_some]
  have hsub : 0 < d.a - (qeEntry ctx.index).qe ∧ d.a - (qeEntry ctx.index).qe < 0x10000 := by omega
  generalize (qeEntry ctx.index).qe = q at *
  generalize d.a - q = x at *
  by_cases hfast : d.c >>> 16 < x ∧ x &&& 0x8000 ≠ 0
  · rw [if_pos hfast,if_pos hfast]
    refine ⟨rfl,Nat.not_lt.mp fun hlt => hfast.2 ((and_half_eq_zero hsub.2).mpr hlt),?_⟩
    dsimp only
    omega
  · rw [if_neg hfast,if_neg hfast,checkedShl_of_lt _ (by decide)]
    dsimp only [Option.bind_some]
    have hbit : (if d.c >>> 16 ≥ x then 1 else 0 : ℕ) = 0 ∨
        (if d.c >>> 16 ≥ x then 1 else 0 : ℕ) = 1 := by
      split_ifs
      · exact .inr rfl
      · exact .inl rfl
    have hlps : (if d.c >>> 16 ≥ x then 1 else 0 : ℕ) = 0 ↔ d.c >>> 16 < x := by
      split_ifs with hge
      · exact ⟨fun h0 => h0.elim,fun hlt => absurd hge (Nat.not_le.mpr hlt)⟩
      · exact ⟨fun _ => Nat.not_le.mp hge,fun _ => rfl⟩
    have hx : x <<< 16 % 2 ^ 32 = x * 2 ^ 16 := by
      rw [Nat.shiftLeft_eq]
      exact Nat.mod_eq_of_lt (by omega)
    have hshift := Nat.shiftRight_eq_div_pow d.c 16
    generalize (if d.c >>> 16 ≥ x then 1 else 0 : ℕ) = isLps at *
    obtain ⟨hle,hzero⟩ := low_mask (x <<< 16 % 2 ^ 32) isLps
    rw [checkedSub_of_le (by
      rcases hbit with hmps | hlps'
      · rw [hzero hmps]
        exact Nat.zero_le _
      · have : ¬ d.c >>> 16 < x := fun hlt => by
          have := hlps.mpr hlt
          omega
        omega)]
    dsimp only [Option.bind_some]
    rw [masked_length hbit hsub.2 (by omega)]
    -- the interval is short here, whichever of its parts was taken
    have hshort : 0 < (if isLps = 0 then x else q) ∧ (if isLps = 0 then x else q) < 0x8000 := by
      split_ifs with hmps
      · exact ⟨hsub.1,(and_half_eq_zero hsub.2).mp
          (not_not.mp fun hne => hfast ⟨hlps.mp hmps,hne⟩)⟩
      · omega
    rw [hrenormalize _ hshort.1 hshort.2]
    exact ⟨rfl,renormalize_inRange hshort.1 (by dsimp only; omega)⟩

theorem nextLabel_valid {ctx : Context} (a bit : ℕ) (hc : ctx.Valid) :
    (nextLabel a bit ctx).Valid := by
  unfold nextLabel
  split_ifs
  · exact hc
  · exact (row_bounds hc).afterMps
  · exact (row_bounds hc).afterLps

/-- One of the two symbols takes the part of the interval in which the code register lies. -/
theorem exists_symbol (a : ℕ) (upper : Prop) [Decidable upper] {ctx : Context} (hc : ctx.Valid) :
    ∃ bit < 2, takesUpper a bit ctx = decide upper := by
  have hmps := (row_bounds hc).mps_lt
  unfold takesUpper
  by_cases hsame : decide upper = decide (a - (qeEntry ctx.index).qe < (qeEntry ctx.index).qe)
  · refine ⟨1 - ctx.mps,by omega,?_⟩
    rw [decide_eq_false (by omega : ¬ 1 - ctx.mps = ctx.mps),Bool.false_bne,hsame]
  · refine ⟨ctx.mps,hmps,?_⟩
    rw [decide_eq_true rfl,Bool.true_bne,Bool.eq_not.mpr hsame]

theorem decode_label {d : ArithmeticDecoder} {ctx : Context} (h : InRange d) (hc : ctx.Valid) :
    (d.decode ctx).2.2.Valid := by
  have hhigh := h.high
  obtain ⟨bit,hbit,htakes⟩ :=
    exists_symbol d.a (d.c / 2 ^ 16 < d.a - (qeEntry ctx.index).qe) hc
  rw [decode_eq (by omega) hc hbit htakes]
  exact nextLabel_valid _ _ hc

/-! ## Runs -/

section
variable {κ : Type} [DecidableEq κ]

/-- Registers and labels after a sequence of symbols. -/
def checkedRun (renormalize : ArithmeticDecoder → Option ArithmeticDecoder) :
    ArithmeticDecoder → (κ → Context) → List κ → Option (ArithmeticDecoder × (κ → Context))
  | d, ctxs, [] => some (d,ctxs)
  | d, ctxs, label :: labels => do
      let (_,d,ctx) ← checkedDecode renormalize d (ctxs label)
      checkedRun renormalize d (Function.update ctxs label ctx) labels

def run : ArithmeticDecoder → (κ → Context) → List κ → ArithmeticDecoder × (κ → Context)
  | d, ctxs, [] => (d,ctxs)
  | d, ctxs, label :: labels =>
      let (_,d,ctx) := d.decode (ctxs label)
      run d (Function.update ctxs label ctx) labels

theorem checkedRun_eq {renormalize : ArithmeticDecoder → Option ArithmeticDecoder}
    (hrenormalize : Renormalizes renormalize) {d : ArithmeticDecoder} {ctxs : κ → Context}
    (h : InRange d) (hc : ∀ l, (ctxs l).Valid) (labels : List κ) :
    checkedRun renormalize d ctxs labels = some (run d ctxs labels) ∧
      InRange (run d ctxs labels).1 ∧ ∀ l, ((run d ctxs labels).2 l).Valid := by
  induction labels generalizing d ctxs with
  | nil => exact ⟨rfl,h,hc⟩
  | cons label labels ih =>
      obtain ⟨hdecode,hrange⟩ := checkedDecode_eq hrenormalize h (hc label)
      obtain ⟨hrun,htail⟩ := ih hrange (MqRoundTrip.update_valid hc label (decode_label h (hc label)))
      refine ⟨?_,htail⟩
      unfold checkedRun
      rw [hdecode]
      exact hrun

/-- After any symbols of any bytes the interval length is in range and every label names a row
of the table; no check of the decoder fails on the way, and the loop that shifts one bit at a
time leaves the registers and labels of the batched one. -/
theorem decoder_stays_in_range (data : List ℕ) (ctxs : κ → Context) (labels : List κ)
    (hc : ∀ l, (ctxs l).Valid) :
    checkedNew data = some (.new data) ∧
      checkedRun (checkedRenormalize 15) (.new data) ctxs labels =
        some (run (.new data) ctxs labels) ∧
      checkedRun (renormd 15) (.new data) ctxs labels = some (run (.new data) ctxs labels) ∧
      InRange (run (.new data) ctxs labels).1 ∧
      ∀ l, ((run (.new data) ctxs labels).2 l).Valid := by
  obtain ⟨hbatched,hrange,hlabels⟩ :=
    checkedRun_eq renormalizes_batched (inRange_new data) hc labels
  exact ⟨checkedNew_eq data,hbatched,
    (checkedRun_eq renormalizes_single (inRange_new data) hc labels).1,hrange,hlabels⟩

theorem decoder_stays_in_range_two_bytes :
    InRange (run (.new [0x84,0xFF]) (fun label : Bool => if label then 174 else 4)
      [true,false,true,true]).1 :=
  (decoder_stays_in_range [0x84,0xFF] (fun label : Bool => if label then 174 else 4)
    [true,false,true,true] (by decide)).2.2.2.1

end

end J2kNative.MqDecoderRange
