import J2kNative.ProgressiveScan

/-!
# Approximation positions and coefficient values

A coefficient that a scan coded at position `al` is a multiple of `2^al`, and a
coefficient no scan coded is zero. The transition table of the scan script is
what keeps this: a refinement scan finds coefficients last coded one position
higher, so the bit it may set is clear.
-/
namespace J2kNative

open Fallible Interruptible BlockDecoder TileGeometry

variable {ρ τ : Type}

def Coefficient.Aligned (c : Coefficient) : Prop :=
  match c.coded with
  | none => c.value = 0
  | some al => 2^al ∣ c.value.toNat

/-- No refinement met a coefficient whose bit was already set. -/
def MetClear (refined : List (BitVec 32 × ℕ)) : Prop :=
  ∀ p ∈ refined, p.1 &&& 1#32 <<< p.2 = 0

section Bits
variable {v : BitVec 32} {al : ℕ}

theorem pow_dvd_shiftLeft (h : al ≤ 32) : 2^al ∣ (v <<< al).toNat := by
  rw [BitVec.toNat_shiftLeft,Nat.shiftLeft_eq]
  exact (Nat.dvd_mod_iff (pow_dvd_pow 2 h)).mpr (Dvd.intro_left _ rfl)

theorem toNat_bit (h : al < 32) : (1#32 <<< al).toNat = 2^al := by
  rw [BitVec.toNat_shiftLeft,Nat.shiftLeft_eq,BitVec.toNat_ofNat]
  rw [show 1 % 2^32 * 2^al = 2^al by omega,Nat.mod_eq_of_lt (Nat.pow_lt_pow_right (by decide) h)]

theorem and_bit_eq_zero (h : 2^(al+1) ∣ v.toNat) : v &&& 1#32 <<< al = 0 := by
  obtain ⟨c,hc⟩ := h
  have hbit : v.toNat.testBit al = false := by
    rw [hc,Nat.testBit_two_pow_mul]
    simp
  apply BitVec.eq_of_toNat_eq
  by_cases hal : al < 32
  · rw [BitVec.toNat_and,toNat_bit hal]
    apply Nat.eq_of_testBit_eq
    intro i
    rw [Nat.testBit_and,Nat.testBit_two_pow]
    by_cases hi : al = i
    · subst hi
      simp [hbit]
    · simp [hi]
  · rw [BitVec.toNat_and,BitVec.toNat_shiftLeft,Nat.shiftLeft_eq]
    rw [Nat.mod_eq_zero_of_dvd (Dvd.dvd.mul_left (pow_dvd_pow 2 (by omega)) _)]
    simp

theorem pow_dvd_of_succ (h : 2^(al+1) ∣ v.toNat) : 2^al ∣ v.toNat :=
  (pow_dvd_pow 2 (Nat.le_succ al)).trans h

theorem pow_dvd_bit (h : al < 32) : 2^al ∣ (1#32 <<< al).toNat := by
  rw [toNat_bit h]

theorem pow_dvd_neg_bit (h : al < 32) : 2^al ∣ (-(1#32 <<< al)).toNat := by
  rw [BitVec.toNat_neg,toNat_bit h]
  exact (Nat.dvd_mod_iff (pow_dvd_pow 2 h.le)).mpr
    (Nat.dvd_sub (pow_dvd_pow 2 h.le) dvd_rfl)

theorem pow_dvd_add_bit (h : al < 32) (hv : 2^(al+1) ∣ v.toNat) :
    2^al ∣ (v+1#32 <<< al).toNat := by
  rw [BitVec.toNat_add,toNat_bit h]
  exact (Nat.dvd_mod_iff (pow_dvd_pow 2 h.le)).mpr (Nat.dvd_add (pow_dvd_of_succ hv) dvd_rfl)

theorem pow_dvd_sub_bit (h : al < 32) (hv : 2^(al+1) ∣ v.toNat) :
    2^al ∣ (v-1#32 <<< al).toNat := by
  rw [BitVec.toNat_sub,toNat_bit h]
  exact (Nat.dvd_mod_iff (pow_dvd_pow 2 h.le)).mpr
    (Nat.dvd_add (Nat.dvd_sub (pow_dvd_pow 2 h.le) dvd_rfl) (pow_dvd_of_succ hv))

theorem pow_dvd_or_bit (h : al < 32) (hv : 2^(al+1) ∣ v.toNat) :
    2^al ∣ (v ||| 1#32 <<< al).toNat := by
  rw [← BitVec.add_eq_or_of_and_eq_zero _ _ (and_bit_eq_zero hv)]
  exact pow_dvd_add_bit h hv

end Bits

theorem natural_eq {k : ℕ} (h : k < 64) : natural k = zigzag.get ⟨k,h⟩ := by
  rw [natural,List.getD_eq_getElem?_getD,List.getElem?_eq_getElem h]
  rfl

theorem natural_inj {i j : ℕ} (hi : i < 64) (hj : j < 64) (h : natural i = natural j) : i = j := by
  rw [natural_eq hi,natural_eq hj] at h
  have hnodup : zigzag.Nodup := by decide
  exact congrArg Fin.val (hnodup.injective_get h)

theorem exists_natural {i : ℕ} (h : i < 64) : ∃ k < 64, natural k = i := by
  have hmem : i ∈ zigzag := by
    have hall : ∀ i < 64, i ∈ zigzag := by decide
    exact hall i h
  obtain ⟨k,hk,rfl⟩ := List.getElem_of_mem hmem
  exact ⟨k,hk,natural_eq hk⟩

/-! ## One block -/

/-- Within a visit of a scan at `al` to a block: marks stay as `b0` has them, values are
aligned to them, and refinements met clear bits. -/
structure VisitInv (b0 : DctBlock) (s : BlockState ρ) : Prop where
  coded : ∀ k < 64, (s.block (natural k)).coded = (b0 (natural k)).coded
  aligned : ∀ k < 64, (s.block (natural k)).Aligned
  clear : MetClear s.refined

/-- The positions of the band from `k` on still await their refinement. -/
structure Awaiting (b0 : DctBlock) (se al k : ℕ) (s : BlockState ρ) : Prop
    extends VisitInv b0 s where
  pending : ∀ j, k ≤ j → j ≤ se → 2^(al+1) ∣ (s.block (natural j)).value.toNat

variable {E : EntropyReader ρ τ} {scan : PreparedProgressiveScan τ}
  {scanComponent : PreparedProgressiveScanComponent τ} {b0 : DctBlock}

theorem ends_ask {α : Type} {f : ρ → Except JpegError (α × ρ)} {P R : BlockState ρ → Prop}
    (hP : ∀ s r, P s → P { s with reader := r }) (hR : ∀ s, P s → R s) :
    Ends P (ask f) (fun _ s => P s) R := by
  intro s hs
  unfold ask
  cases f s.reader with
  | ok p => exact hP s p.2 hs
  | error e => exact hR s hs

theorem VisitInv.setReader {s : BlockState ρ} (h : VisitInv b0 s) (r : ρ) :
    VisitInv b0 { s with reader := r } := ⟨h.coded,h.aligned,h.clear⟩

theorem VisitInv.setRun {s : BlockState ρ} (h : VisitInv b0 s) (run : ℕ) :
    VisitInv b0 { s with eobRun := run } := ⟨h.coded,h.aligned,h.clear⟩

theorem Awaiting.mono {se al k l : ℕ} {s : BlockState ρ} (h : Awaiting b0 se al k s)
    (hkl : k ≤ l) : Awaiting b0 se al l s :=
  ⟨h.toVisitInv,fun j hj => h.pending j (hkl.trans hj)⟩

/-- A value of the scan's position stored at a marked place of the band. -/
theorem VisitInv.store {s : BlockState ρ} (h : VisitInv b0 s) {al k : ℕ} {value : BitVec 32}
    (hk : k < 64) (hmark : (b0 (natural k)).coded = some al) (hv : 2^al ∣ value.toNat) :
    VisitInv b0 { s with
      block := Function.update s.block (natural k) ⟨value,(s.block (natural k)).coded⟩ } := by
  refine ⟨fun j hj => ?_,fun j hj => ?_,h.clear⟩
  · by_cases hjk : natural j = natural k
    · simp only [hjk,Function.update_self]
      exact h.coded k hk
    · simp only [Function.update_of_ne hjk]
      exact h.coded j hj
  · by_cases hjk : natural j = natural k
    · simp only [hjk,Function.update_self,Coefficient.Aligned,h.coded k hk,hmark]
      exact hv
    · simp only [Function.update_of_ne hjk]
      exact h.aligned j hj

theorem ends_store {al k : ℕ} {value : BitVec 32} {P R : BlockState ρ → Prop}
    (hP : ∀ s, P s → VisitInv b0 s) (hk : k < 64)
    (hmark : (b0 (natural k)).coded = some al) (hv : 2^al ∣ value.toNat) :
    Ends P (store (natural k) value) (fun _ => VisitInv b0) R :=
  ends_change fun s hs => (hP s hs).store hk hmark hv

theorem Awaiting.store {s : BlockState ρ} {se al k : ℕ} {value : BitVec 32}
    (h : Awaiting b0 se al k s) (hse : se < 64) (hk : k ≤ se)
    (hmark : (b0 (natural k)).coded = some al) (hv : 2^al ∣ value.toNat) :
    Awaiting b0 se al (k+1) { s with
      block := Function.update s.block (natural k) ⟨value,(s.block (natural k)).coded⟩ } := by
  refine ⟨h.toVisitInv.store (by omega) hmark hv,fun j hj hjse => ?_⟩
  have hne : natural j ≠ natural k := by
    intro heq
    have := natural_inj (by omega) (by omega) heq
    omega
  simp only [Function.update_of_ne hne]
  exact h.pending j (by omega) hjse

theorem ends_decodeEobRun {P R : BlockState ρ → Prop} {runBits : ℕ}
    (hP : ∀ s r, P s → P { s with reader := r }) (hR : ∀ s, P s → R s) :
    Ends P (decodeEobRun E runBits) (fun _ s => P s) R := by
  unfold decodeEobRun
  split
  · exact (ends_ask hP hR).bind fun _ => ends_pure fun s hs => hs
  · exact ends_pure fun s hs => hs

theorem ends_tableOf {P R : BlockState ρ → Prop} {id : Option τ} (hR : ∀ s, P s → R s) :
    Ends P (tableOf id) (fun _ s => P s) R := by
  unfold tableOf
  split
  · exact ends_pure fun s hs => hs
  · exact ends_fail hR

/-! ### Initial scans -/

theorem ends_firstAcLoop {table : τ} (hse : scan.se < 64) (hal : scan.al ≤ 32)
    (hmark : ∀ k, scan.ss ≤ k → k ≤ scan.se → (b0 (natural k)).coded = some scan.al)
    {k : ℕ} (hk : scan.ss ≤ k) :
    Ends (VisitInv b0) (firstAcLoop E scan table k) (fun _ => VisitInv b0) (VisitInv b0) := by
  induction hn : scan.se+1-k using Nat.strong_induction_on generalizing k with
  | _ n ih =>
      rw [firstAcLoop]
      by_cases hkse : k ≤ scan.se
      · rw [dif_pos hkse]
        refine (ends_ask (fun s r h => h.setReader r) fun s h => h).bind fun symbol => ?_
        split_ifs with h0 h15 hover
        · exact ih _ (by omega) (by omega) rfl
        · exact (ends_decodeEobRun (fun s r h => h.setReader r) fun s h => h).bind fun run =>
            ends_change fun s h => h.setRun run
        · exact ends_fail fun s h => h
        · refine (ends_ask (fun s r h => h.setReader r) fun s h => h).bind fun value => ?_
          refine (ends_store (fun s h => h) (by omega) (hmark _ (by omega) (by omega))
            (pow_dvd_shiftLeft hal)).bind fun _ => ?_
          exact ih _ (by omega) (by omega) rfl
      · rw [dif_neg hkse]
        exact ends_pure fun s h => h

theorem ends_decodeFirst (hse : scan.se < 64) (hal : scan.al ≤ 32)
    (hmark : ∀ k, scan.ss ≤ k → k ≤ scan.se → (b0 (natural k)).coded = some scan.al) :
    Ends (VisitInv b0) (decodeProgressiveBlockFirst E scan scanComponent)
      (fun _ => VisitInv b0) (VisitInv b0) := by
  unfold decodeProgressiveBlockFirst
  split_ifs with hss
  · refine (ends_tableOf fun s h => h).bind fun table => ?_
    refine (ends_ask (fun s r h => h.setReader r) fun s h => h).bind fun ssss => ?_
    split_ifs
    · exact ends_fail fun s h => h
    · refine (ends_ask (fun s r h => h.setReader r) fun s h => h).bind fun diff => ?_
      refine Ends.bind (ends_change fun s h => ⟨h.coded,h.aligned,h.clear⟩ :
        Ends _ _ (fun _ => VisitInv b0) _) fun _ => ?_
      refine Ends.bind (ends_read fun s h => h : Ends _ _ (fun _ => VisitInv b0) _) fun s => ?_
      exact ends_store (fun s h => h) (k := 0) (by omega) (hmark 0 (by omega) (by omega))
        (pow_dvd_shiftLeft hal)
  · refine (ends_tableOf fun s h => h).bind fun table => ?_
    refine Ends.bind (ends_read fun s h => h : Ends _ _ (fun _ => VisitInv b0) _) fun s => ?_
    split_ifs
    · exact ends_change fun s h => h.setRun _
    · exact ends_firstAcLoop hse hal hmark le_rfl

/-! ### Refinement scans -/

theorem Awaiting.setReader {se al k : ℕ} {s : BlockState ρ} (h : Awaiting b0 se al k s) (r : ρ) :
    Awaiting b0 se al k { s with reader := r } := ⟨h.toVisitInv.setReader r,h.pending⟩

theorem Awaiting.setRun {se al k : ℕ} {s : BlockState ρ} (h : Awaiting b0 se al k s) (run : ℕ) :
    Awaiting b0 se al k { s with eobRun := run } := ⟨h.toVisitInv.setRun run,h.pending⟩

theorem Awaiting.meet {se al k : ℕ} {s : BlockState ρ} (h : Awaiting b0 se al k s)
    {value : BitVec 32} (hv : 2^(al+1) ∣ value.toNat) :
    Awaiting b0 se al k { s with refined := s.refined ++ [(value,al)] } := by
  refine ⟨⟨h.coded,h.aligned,fun p hp => ?_⟩,h.pending⟩
  rcases List.mem_append.mp hp with hp | hp
  · exact h.clear p hp
  · rw [List.mem_singleton.mp hp]
    exact and_bit_eq_zero hv

theorem ends_correct {al k correction : ℕ} {coeff : BitVec 32} (hse : scan.se < 64)
    (hal : al < 32) (hkse : k ≤ scan.se) (hmark : (b0 (natural k)).coded = some al) :
    Ends (fun t => coeff = (t.block (natural k)).value ∧ Awaiting b0 scan.se al k t)
      (correct al k correction coeff : BlockDecoder ρ Unit)
      (fun _ => Awaiting b0 scan.se al (k+1)) (VisitInv b0) := by
  unfold correct
  split_ifs
  · refine ends_change fun t h => h.2.store hse hkse hmark ?_
    rw [h.1]
    exact pow_dvd_add_bit hal (h.2.pending k le_rfl hkse)
  · refine ends_change fun t h => h.2.store hse hkse hmark ?_
    rw [h.1]
    exact pow_dvd_sub_bit hal (h.2.pending k le_rfl hkse)
  · exact ends_pure fun t h => h.2.mono (by omega)

theorem ends_refineNonZeroes {al zeroRunLength k : ℕ} (hse : scan.se < 64) (hal : al < 32)
    (hmark : ∀ k, scan.ss ≤ k → k ≤ scan.se → (b0 (natural k)).coded = some al)
    (hk : scan.ss ≤ k) :
    Ends (Awaiting b0 scan.se al k) (refineNonZeroes E scan.se al zeroRunLength k)
      (fun stopped => Awaiting b0 scan.se al (stopped.1+1)) (VisitInv b0) := by
  induction hn : scan.se+1-k using Nat.strong_induction_on generalizing k zeroRunLength with
  | _ n ih =>
      rw [refineNonZeroes]
      by_cases hkse : k ≤ scan.se
      · rw [dif_pos hkse]
        refine Ends.bind (ends_read fun s h => ⟨rfl,h⟩ :
          Ends _ _ (fun a s => a = s ∧ Awaiting b0 scan.se al k s) _) fun s => ?_
        dsimp only
        split_ifs with hzero hrun
        · exact ends_pure fun t h => h.2.mono (Nat.le_succ k)
        · refine Ends.bind ((ih _ (by omega) (by omega : scan.ss ≤ k+1) rfl).imp
            (fun t h => h.2.mono (by omega)) fun a t h => h) fun stopped => ?_
          exact ends_pure fun t h => h
        · refine Ends.bind (ends_change fun t h => ?_ :
            Ends _ _ (fun _ t => (s.block (natural k)).value = (t.block (natural k)).value ∧
              Awaiting b0 scan.se al k t) _) fun _ => ?_
          · obtain ⟨rfl,h⟩ := h
            exact ⟨rfl,h.meet (h.pending k le_rfl hkse)⟩
          refine Ends.bind (ends_ask (fun t r h => ⟨h.1,h.2.setReader r⟩)
            fun t h => h.2.toVisitInv) fun correction => ?_
          refine (ends_correct hse hal hkse (hmark k hk hkse)).bind fun _ => ?_
          refine Ends.bind (ih _ (by omega) (by omega : scan.ss ≤ k+1) rfl) fun stopped => ?_
          exact ends_pure fun t h => h
      · rw [dif_neg hkse]
        exact ends_pure fun t h =>
          ⟨h.toVisitInv,fun j hj hjse => absurd hjse (Nat.not_le.mpr hj)⟩

theorem ends_refineSymbol {al symbol : ℕ} (hal : al < 32) {P R : BlockState ρ → Prop}
    (hP : ∀ s r, P s → P { s with reader := r }) (hrun : ∀ s run, P s → P { s with eobRun := run })
    (hR : ∀ s, P s → R s) :
    Ends P (refineSymbol E al symbol) (fun r s => P s ∧ 2^al ∣ r.1.toNat) R := by
  unfold refineSymbol
  split_ifs
  · exact ends_pure fun s h => ⟨h,by simp⟩
  · refine (ends_decodeEobRun hP hR).bind fun run => ?_
    refine Ends.bind (ends_change fun s h => hrun s run h : Ends _ _ (fun _ => P) _) fun _ => ?_
    exact ends_pure fun s h => ⟨h,by simp⟩
  · refine (ends_ask hP hR).bind fun sign => ends_pure fun s h => ⟨h,?_⟩
    dsimp only
    split_ifs
    · exact pow_dvd_bit hal
    · exact pow_dvd_neg_bit hal
  · exact ends_fail hR

theorem ends_storeAnnounced {value : BitVec 32} {k : ℕ} (hse : scan.se < 64)
    (hk : scan.ss ≤ k)
    (hmark : ∀ k, scan.ss ≤ k → k ≤ scan.se → (b0 (natural k)).coded = some scan.al) :
    Ends (fun s => Awaiting b0 scan.se scan.al (k+1) s ∧ 2^scan.al ∣ value.toNat)
      (storeAnnounced scan value k : BlockDecoder ρ Unit)
      (fun _ => Awaiting b0 scan.se scan.al (k+1)) (VisitInv b0) := by
  unfold storeAnnounced
  split_ifs with hv hover
  · exact ends_fail fun s h => h.1.toVisitInv
  · refine ends_change fun s h => ?_
    refine ⟨h.1.toVisitInv.store (by omega) (hmark k hk (by omega)) h.2,fun j hj hjse => ?_⟩
    have hne : natural j ≠ natural k := fun heq => by
      have := natural_inj (by omega) (by omega) heq
      omega
    simp only [Function.update_of_ne hne]
    exact h.1.pending j hj hjse
  · exact ends_pure fun s h => h.1

theorem ends_refineAcLoop {table : τ} (hse : scan.se < 64) (hal : scan.al < 32)
    (hmark : ∀ k, scan.ss ≤ k → k ≤ scan.se → (b0 (natural k)).coded = some scan.al)
    {k : ℕ} (hk : scan.ss ≤ k) :
    Ends (Awaiting b0 scan.se scan.al k) (refineAcLoop E scan table k) (fun _ => VisitInv b0)
      (VisitInv b0) := by
  induction hn : scan.se+1-k using Nat.strong_induction_on generalizing k with
  | _ n ih =>
      rw [refineAcLoop]
      by_cases hkse : k ≤ scan.se
      · rw [dif_pos hkse]
        refine Ends.bind (ends_ask (fun s r h => h.setReader r) fun s h => h.toVisitInv)
          fun symbol => ?_
        refine Ends.bind (ends_refineSymbol hal (fun s r h => h.setReader r)
          (fun s run h => h.setRun run) fun s h => h.toVisitInv) fun announced => ?_
        refine Ends.bind (?_ : Ends _ _ (fun stopped s =>
          Awaiting b0 scan.se scan.al (stopped.1+1) s ∧ 2^scan.al ∣ announced.1.toNat) _)
          fun stopped => ?_
        · by_cases hv : 2^scan.al ∣ announced.1.toNat
          · exact (ends_refineNonZeroes hse hal hmark hk).imp (fun s h => h.1)
              fun a s h => ⟨h,hv⟩
          · exact fun s h => absurd h.2 hv
        have hstopped := stopped.2
        exact (ends_storeAnnounced hse (by omega) hmark).bind fun _ =>
          ih _ (by omega) (by omega) rfl
      · rw [dif_neg hkse]
        exact ends_pure fun s h => h.toVisitInv

theorem ends_decodeRefine (hse : scan.se < 64) (hal : scan.al < 32)
    (hmark : ∀ k, scan.ss ≤ k → k ≤ scan.se → (b0 (natural k)).coded = some scan.al) :
    Ends (Awaiting b0 scan.se scan.al scan.ss) (decodeProgressiveBlockRefine E scan scanComponent)
      (fun _ => VisitInv b0) (VisitInv b0) := by
  unfold decodeProgressiveBlockRefine
  split_ifs with hss
  · refine Ends.bind (ends_ask (fun s r h => h.setReader r) fun s h => h.toVisitInv) fun bit => ?_
    refine Ends.bind (ends_read fun s h => ⟨rfl,h⟩ :
      Ends _ _ (fun a s => a = s ∧ Awaiting b0 scan.se scan.al scan.ss s) _) fun s => ?_
    have hdc {t : BlockState ρ} (h : Awaiting b0 scan.se scan.al scan.ss t) :
        2^(scan.al+1) ∣ (t.block 0).value.toNat := h.pending 0 (by omega) (by omega)
    refine Ends.bind (ends_change fun t h => ?_ :
      Ends _ _ (fun _ t => s.block 0 = t.block 0 ∧ Awaiting b0 scan.se scan.al scan.ss t) _)
      fun _ => ?_
    · obtain ⟨rfl,h⟩ := h
      exact ⟨rfl,h.meet (hdc h)⟩
    split_ifs
    · refine ends_change fun t h => ?_
      rw [h.1]
      exact h.2.toVisitInv.store (k := 0) (by omega) (hmark 0 (by omega) (by omega))
        (pow_dvd_or_bit hal (hdc h.2))
    · exact ends_pure fun t h => h.2.toVisitInv
  · refine Ends.bind (ends_tableOf fun s h => h.toVisitInv) fun table => ?_
    refine Ends.bind (ends_read fun s h => h :
      Ends _ _ (fun _ => Awaiting b0 scan.se scan.al scan.ss) _) fun s => ?_
    split_ifs
    · refine Ends.bind (ends_change fun t h => h.setRun _ :
        Ends _ _ (fun _ => Awaiting b0 scan.se scan.al scan.ss) _) fun _ => ?_
      exact Ends.bind (ends_refineNonZeroes hse hal hmark le_rfl) fun stopped =>
        ends_pure fun t h => h.toVisitInv
    · exact ends_refineAcLoop hse hal hmark le_rfl

end J2kNative
