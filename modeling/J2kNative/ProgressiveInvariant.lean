import J2kNative.ProgressiveApproximation

/-!
# The approximation invariant of a progressive frame

The transition table after each scan header bounds the positions at which the
coefficients of that scan were coded. During a scan every block is visited at
most once, so the blocks still to come obey the table of the scan before.
-/
namespace J2kNative

open Fallible Interruptible TileGeometry

variable {ρ τ T : Type}

/-- A coefficient coded no lower than the position the table gives. -/
def Coefficient.Within (c : Coefficient) (position : ℕ) : Prop :=
  c.Aligned ∧ ∀ al, c.coded = some al → position ≠ uninitialized ∧ position ≤ al

/-- The block of a component by its index. -/
def CoefficientState.blockAt (s : CoefficientState) (p : ℕ × ℕ) : Option DctBlock :=
  s.coeffs[p.1]?.bind fun blocks => blocks[p.2]?

structure CoefficientState.Holds (t : ℕ → ℕ → ℕ) (s : CoefficientState) : Prop where
  within : ∀ p block, s.blockAt p = some block → ∀ k < 64, (block (natural k)).Within (t p.1 k)
  clear : MetClear s.refined

/-- A prepared scan that takes the transition table from `t` to `t'`. -/
structure ScanFits (plan : PreparedProgressivePlan τ) (scan : PreparedProgressiveScan τ)
    (t t' : ℕ → ℕ → ℕ) : Prop where
  se_le : scan.se ≤ 63
  al_le : scan.al ≤ 13
  continues : scan.ah = 0 ∨ scan.ah = scan.al+1
  before : ∀ sc ∈ scan.components, ∀ k, scan.ss ≤ k → k ≤ scan.se →
    (scan.ah = 0 ∧ t sc.componentIndex k = uninitialized) ∨
      (scan.ah ≠ 0 ∧ t sc.componentIndex k ≠ uninitialized ∧ t sc.componentIndex k = scan.ah)
  after : ∀ c k, t' c k = if (∃ sc ∈ scan.components, sc.componentIndex = c) ∧
    scan.ss ≤ k ∧ k ≤ scan.se then scan.al else t c k
  unique : (scan.components.map PreparedProgressiveScanComponent.componentIndex).Nodup
  grid : ∀ sc ∈ scan.components, ∀ component, plan.components[sc.componentIndex]? = some component →
    component.blockCols = plan.mcuCols*component.h

section Scan
variable {E : EntropyReader ρ τ} {plan : PreparedProgressivePlan τ}
  {scan : PreparedProgressiveScan τ} {t t' : ℕ → ℕ → ℕ}

theorem ScanFits.after_band (fits : ScanFits plan scan t t')
    {sc : PreparedProgressiveScanComponent τ} (hsc : sc ∈ scan.components) {k : ℕ}
    (hss : scan.ss ≤ k) (hse : k ≤ scan.se) : t' sc.componentIndex k = scan.al := by
  rw [fits.after,if_pos ⟨⟨sc,hsc,rfl⟩,hss,hse⟩]

theorem ScanFits.after_other (fits : ScanFits plan scan t t') {c k : ℕ}
    (h : ¬(scan.ss ≤ k ∧ k ≤ scan.se)) : t' c k = t c k := by
  rw [fits.after,if_neg fun hc => h hc.2]

theorem ScanFits.mono (fits : ScanFits plan scan t t') {x : Coefficient} {c k : ℕ}
    (h : x.Within (t c k)) : x.Within (t' c k) := by
  refine ⟨h.1,fun al hal => ?_⟩
  obtain ⟨hne,hle⟩ := h.2 al hal
  rw [fits.after]
  split_ifs with hc
  · obtain ⟨⟨sc,hsc,rfl⟩,hss,hse⟩ := hc
    have hal := fits.al_le
    have := fits.continues
    rcases fits.before sc hsc k hss hse with ⟨-,hu⟩ | ⟨hah,-,ht⟩
    · exact absurd hu hne
    · refine ⟨?_,by omega⟩
      rw [uninitialized]
      omega
  · exact ⟨hne,hle⟩

/-- Before its visit a coefficient of the band is a multiple of the position one higher. -/
theorem ScanFits.pending (fits : ScanFits plan scan t t')
    {sc : PreparedProgressiveScanComponent τ} (hsc : sc ∈ scan.components) {k : ℕ}
    (hss : scan.ss ≤ k) (hse : k ≤ scan.se) {x : Coefficient}
    (h : x.Within (t sc.componentIndex k)) : 2^(scan.al+1) ∣ x.value.toNat := by
  have haligned := h.1
  unfold Coefficient.Aligned at haligned
  cases hc : x.coded with
  | none =>
      rw [hc] at haligned
      rw [show x.value = 0 from haligned]
      exact dvd_zero _
  | some al =>
      rw [hc] at haligned
      obtain ⟨hne,hle⟩ := h.2 al hc
      have := fits.continues
      rcases fits.before sc hsc k hss hse with ⟨-,hu⟩ | ⟨hah,-,ht⟩
      · exact absurd hu hne
      · exact (pow_dvd_pow 2 (by omega)).trans haligned

theorem mark_natural (hse : scan.se ≤ 63) (block : DctBlock) {k : ℕ} (hk : k < 64) :
    scan.mark block (natural k) = if scan.ss ≤ k ∧ k ≤ scan.se then
      ⟨(block (natural k)).value,some scan.al⟩ else block (natural k) := by
  unfold PreparedProgressiveScan.mark
  refine if_congr ?_ rfl rfl
  rw [List.any_eq_true]
  constructor
  · rintro ⟨j,hj,heq⟩
    rw [List.mem_range'_1] at hj
    have hjk := natural_inj (by omega) hk (beq_iff_eq.mp heq)
    omega
  · rintro ⟨hss,hse'⟩
    exact ⟨k,List.mem_range'_1.mpr (by omega),by simp⟩

/-- The state of a scan that has still to visit the blocks of `rest`. -/
structure Remaining (t t' : ℕ → ℕ → ℕ) (rest : List (ℕ × ℕ)) (s : CoefficientState) : Prop
    extends s.Holds t' where
  nodup : rest.Nodup
  old : ∀ p ∈ rest, ∀ block, s.blockAt p = some block →
    ∀ k < 64, (block (natural k)).Within (t p.1 k)

def ProgressiveBlockTarget.pair (target : ProgressiveBlockTarget τ) : ℕ × ℕ :=
  (target.scanComponent.componentIndex,target.blockIndex)

theorem blockAt_leave {target : ProgressiveBlockTarget τ} {s : ScanState ρ} {u : BlockState ρ}
    {p : ℕ × ℕ} {block : DctBlock}
    (h : (target.leave s u).toCoefficientState.blockAt p = some block) :
    (p = target.pair ∧ block = u.block) ∨
      (p ≠ target.pair ∧ s.toCoefficientState.blockAt p = some block) := by
  obtain ⟨c,b⟩ := p
  obtain ⟨blocks,hblocks,hblock⟩ := Option.bind_eq_some_iff.mp h
  dsimp only at hblocks hblock
  have hmod : (target.leave s u).coeffs = s.coeffs.modify target.scanComponent.componentIndex
    fun blocks => blocks.set target.blockIndex u.block := rfl
  rw [hmod,List.getElem?_modify] at hblocks
  by_cases hc : target.scanComponent.componentIndex = c
  · subst hc
    obtain ⟨old,hold,hset⟩ := Option.map_eq_some_iff.mp hblocks
    rw [if_pos rfl] at hset
    subst hset
    rw [List.getElem?_set] at hblock
    by_cases hb : target.blockIndex = b
    · subst hb
      rw [if_pos rfl] at hblock
      split_ifs at hblock
      cases hblock
      exact .inl ⟨rfl,rfl⟩
    · rw [if_neg hb] at hblock
      exact .inr ⟨fun h => hb (congrArg Prod.snd h).symm,
        Option.bind_eq_some_iff.mpr ⟨old,hold,hblock⟩⟩
  · obtain ⟨old,hold,hset⟩ := Option.map_eq_some_iff.mp hblocks
    rw [if_neg hc] at hset
    subst hset
    exact .inr ⟨fun h => hc (congrArg Prod.fst h).symm,
      Option.bind_eq_some_iff.mpr ⟨_,hold,hblock⟩⟩

/-- One visit to a block that the scan has not visited yet. -/
theorem ends_decodeBlockAt (fits : ScanFits plan scan t t') {target : ProgressiveBlockTarget τ}
    (hsc : target.scanComponent ∈ scan.components) {rest : List (ℕ × ℕ)} :
    Ends (fun s : ScanState ρ => Remaining t t' (target.pair::rest) s.toCoefficientState)
      (decodeProgressiveBlockAt E scan target)
      (fun _ s => Remaining t t' rest s.toCoefficientState)
      (fun s => s.toCoefficientState.Holds t') := by
  unfold decodeProgressiveBlockAt
  refine Ends.bind (ends_read fun s h => ⟨rfl,h⟩ : Ends _ _ (fun (a : ScanState ρ) s =>
    a = s ∧ Remaining t t' (target.pair::rest) s.toCoefficientState) _) fun a => ?_
  cases hfind : target.find a.coeffs with
  | none => exact ends_fail fun s h => h.2.toHolds
  | some block =>
      refine ends_within fun s hs => ?_
      obtain ⟨rfl,h⟩ := hs
      have hse := fits.se_le
      have hold (k : ℕ) (hk : k < 64) :
          (block (natural k)).Within (t target.scanComponent.componentIndex k) :=
        h.old target.pair (by simp) block hfind k hk
      have hpending (k : ℕ) (hss : scan.ss ≤ k) (hk : k ≤ scan.se) :
          2^(scan.al+1) ∣ (block (natural k)).value.toNat :=
        fits.pending hsc hss hk (hold k (by omega))
      have hmark (k : ℕ) (hss : scan.ss ≤ k) (hk : k ≤ scan.se) :
          (scan.mark block (natural k)).coded = some scan.al := by
        rw [mark_natural hse block (by omega),if_pos ⟨hss,hk⟩]
      have hstart : VisitInv (scan.mark block) (target.enter scan block a) := by
        refine ⟨fun k hk => rfl,fun k hk => ?_,h.clear⟩
        show (scan.mark block (natural k)).Aligned
        rw [mark_natural hse block hk]
        split_ifs with hband
        · exact pow_dvd_of_succ (hpending k hband.1 hband.2)
        · exact (hold k hk).1
      have hleave (u : BlockState ρ) (hu : VisitInv (scan.mark block) u) :
          Remaining t t' rest (target.leave a u).toCoefficientState := by
        refine ⟨⟨fun p block' hb k hk => ?_,hu.clear⟩,
          (List.nodup_cons.mp h.nodup).2,fun p hp block' hb k hk => ?_⟩
        · rcases blockAt_leave hb with ⟨rfl,rfl⟩ | ⟨hne,hb⟩
          · refine ⟨hu.aligned k hk,fun al hal => ?_⟩
            rw [hu.coded k hk,mark_natural hse block hk] at hal
            split_ifs at hal with hband
            · have hle := fits.al_le
              cases hal
              rw [show t' target.pair.1 k = scan.al from fits.after_band hsc hband.1 hband.2]
              exact ⟨by rw [uninitialized]; omega,le_rfl⟩
            · rw [show t' target.pair.1 k = t target.pair.1 k from fits.after_other hband]
              exact (hold k hk).2 al hal
          · exact h.within p block' hb k hk
        · rcases blockAt_leave hb with ⟨rfl,-⟩ | ⟨hne,hb⟩
          · exact absurd hp (List.nodup_cons.mp h.nodup).1
          · exact h.old p (by simp [hp]) block' hb k hk
      split_ifs with hah
      · have hvisit := @ends_decodeFirst _ _ E _ target.scanComponent _
          (by omega) (by have := fits.al_le; omega) hmark
        intro u hu
        subst hu
        have hrun := hvisit _ hstart
        split at hrun
        · exact hleave _ hrun
        · exact (hleave _ hrun).toHolds
      · have hvisit := @ends_decodeRefine _ _ E _ target.scanComponent _
          (by omega) (by have := fits.al_le; omega) hmark
        intro u hu
        subst hu
        have hrun := hvisit _ ⟨hstart,fun j hj hjse => by
          show 2^(scan.al+1) ∣ (scan.mark block (natural j)).value.toNat
          rw [mark_natural hse block (by omega),if_pos ⟨hj,hjse⟩]
          exact hpending j hj hjse⟩
        split at hrun
        · exact hleave _ hrun
        · exact (hleave _ hrun).toHolds

/-! ## The blocks of a scan -/

/-- The blocks of one interleaved component in one MCU. -/
def componentBlocks (plan : PreparedProgressivePlan τ) (mcuIndex : ℕ)
    (sc : PreparedProgressiveScanComponent τ) : List (ℕ × ℕ) :=
  match plan.components[sc.componentIndex]? with
  | none => []
  | some component =>
    (List.range component.v).flatMap fun row => (List.range component.h).map fun col =>
      (sc.componentIndex,(mcuIndex/plan.mcuCols*component.v+row)*component.blockCols+
        (mcuIndex % plan.mcuCols*component.h+col))

def mcuBlocks (plan : PreparedProgressivePlan τ) (scan : PreparedProgressiveScan τ)
    (mcuIndex : ℕ) : List (ℕ × ℕ) :=
  if 1 < scan.components.length then scan.components.flatMap (componentBlocks plan mcuIndex)
  else match plan.singleComponent scan with
    | .error _ => []
    | .ok single =>
      let codedCols := progressiveCodedBlockCols single.2
      [(single.1.componentIndex,mcuIndex/codedCols*single.2.blockCols+mcuIndex % codedCols)]

theorem component_ok {sc : PreparedProgressiveScanComponent τ}
    {component : PreparedProgressiveComponentPlan} (h : plan.component sc = .ok component) :
    plan.components[sc.componentIndex]? = some component := by
  unfold PreparedProgressivePlan.component at h
  split at h
  · next hc =>
      cases h
      exact hc
  · cases h

theorem singleComponent_ok
    {single : PreparedProgressiveScanComponent τ × PreparedProgressiveComponentPlan}
    (h : plan.singleComponent scan = .ok single) :
    single.1 ∈ scan.components ∧ plan.components[single.1.componentIndex]? = some single.2 := by
  unfold PreparedProgressivePlan.singleComponent at h
  split at h
  · cases h
  · next sc rest hcomponents =>
      obtain ⟨component,hc,h⟩ := bind_eq_ok.mp h
      cases h
      exact ⟨by simp [hcomponents],component_ok hc⟩

/-- The blocks of one component of an MCU, visited row by row. -/
theorem ends_componentBlocks (fits : ScanFits plan scan t t')
    {sc : PreparedProgressiveScanComponent τ} (hsc : sc ∈ scan.components)
    {component : PreparedProgressiveComponentPlan}
    (hcomponent : plan.components[sc.componentIndex]? = some component) {mcuIndex : ℕ}
    {rest : List (ℕ × ℕ)} :
    Ends (fun s : ScanState ρ =>
        Remaining t t' (componentBlocks plan mcuIndex sc ++ rest) s.toCoefficientState)
      ((List.range component.v).forM fun row => (List.range component.h).forM fun col =>
        decodeProgressiveBlockAt E scan ⟨component,sc,
          mcuIndex % plan.mcuCols*component.h+col,mcuIndex/plan.mcuCols*component.v+row⟩)
      (fun _ s => Remaining t t' rest s.toCoefficientState)
      (fun s => s.toCoefficientState.Holds t') := by
  unfold componentBlocks
  rw [hcomponent]
  dsimp only
  refine ends_forM (P := fun rows (s : ScanState ρ) => Remaining t t'
    (rows.flatMap (fun row => (List.range component.h).map fun col =>
      (sc.componentIndex,(mcuIndex/plan.mcuCols*component.v+row)*component.blockCols+
        (mcuIndex % plan.mcuCols*component.h+col))) ++ rest) s.toCoefficientState) ?_
  intro row rows
  simp only [List.flatMap_cons,List.append_assoc]
  refine ends_forM (P := fun cols (s : ScanState ρ) => Remaining t t'
    (cols.map (fun col =>
      (sc.componentIndex,(mcuIndex/plan.mcuCols*component.v+row)*component.blockCols+
        (mcuIndex % plan.mcuCols*component.h+col))) ++ (rows.flatMap (fun row =>
        (List.range component.h).map fun col =>
      (sc.componentIndex,(mcuIndex/plan.mcuCols*component.v+row)*component.blockCols+
        (mcuIndex % plan.mcuCols*component.h+col))) ++ rest)) s.toCoefficientState) ?_
  intro col cols
  rw [List.map_cons,List.cons_append]
  exact @ends_decodeBlockAt _ _ _ _ _ _ _ fits ⟨component,sc,
    mcuIndex % plan.mcuCols*component.h+col,mcuIndex/plan.mcuCols*component.v+row⟩ hsc _

theorem ends_decodeMcu (fits : ScanFits plan scan t t') {mcuIndex : ℕ} {rest : List (ℕ × ℕ)} :
    Ends (fun s : ScanState ρ =>
        Remaining t t' (mcuBlocks plan scan mcuIndex ++ rest) s.toCoefficientState)
      (decodeProgressiveMcu E plan scan mcuIndex)
      (fun _ s => Remaining t t' rest s.toCoefficientState)
      (fun s => s.toCoefficientState.Holds t') := by
  unfold decodeProgressiveMcu mcuBlocks
  by_cases hmany : 1 < scan.components.length
  · rw [if_pos hmany,if_pos hmany]
    have hloop := ends_forM (ε := JpegError) (R := fun s => s.toCoefficientState.Holds t')
      (l := scan.components)
      (P := fun components (s : ScanState ρ) => (∀ sc ∈ components, sc ∈ scan.components) ∧
        Remaining t t' (components.flatMap (componentBlocks plan mcuIndex) ++ rest)
          s.toCoefficientState)
      (g := fun scanComponent => do
        let component ← lift (plan.component scanComponent)
        (List.range component.v).forM fun row => (List.range component.h).forM fun col =>
          decodeProgressiveBlockAt E scan ⟨component,scanComponent,
            mcuIndex % plan.mcuCols*component.h+col,mcuIndex/plan.mcuCols*component.v+row⟩) ?_
    · exact hloop.imp (fun s h => ⟨fun _ h => h,h⟩) fun _ s h => h.2
    intro sc components
    by_cases hmem : ∀ c ∈ sc::components, c ∈ scan.components
    · refine Ends.bind (ends_lift (fun s h => h.2.toHolds) (fun a s ha h => ⟨ha,h.2⟩ :
        ∀ a s, plan.component sc = .ok a → _ → plan.component sc = .ok a ∧ Remaining t t'
          ((sc::components).flatMap (componentBlocks plan mcuIndex) ++ rest)
          s.toCoefficientState)) fun component => ?_
      by_cases hc : plan.component sc = .ok component
      · refine (ends_componentBlocks fits (hmem sc (by simp)) (component_ok hc)).imp
          (fun s h => ?_) fun _ s h => ⟨fun c h => hmem c (by simp [h]),h⟩
        have h := h.2
        rwa [List.flatMap_cons,List.append_assoc] at h
      · exact fun s h => absurd h.1 hc
    · exact fun s h => absurd h.1 hmem
  · rw [if_neg hmany,if_neg hmany]
    cases hsingle : plan.singleComponent scan with
    | error e => exact fun s h => h.toHolds
    | ok single =>
        obtain ⟨hsc,-⟩ := singleComponent_ok hsingle
        exact @ends_decodeBlockAt _ _ _ _ _ _ _ fits ⟨single.2,single.1,
          mcuIndex % progressiveCodedBlockCols single.2,
          mcuIndex/progressiveCodedBlockCols single.2⟩ hsc _

/-! ## No block twice -/

theorem grid_index {cols h v m row col : ℕ} (hcols : 0 < cols) (hrow : row < v) (hcol : col < h) :
    ((m/cols*v+row)*(cols*h)+(m % cols*h+col))/(cols*h)/v = m/cols ∧
      ((m/cols*v+row)*(cols*h)+(m % cols*h+col))/(cols*h) % v = row ∧
      ((m/cols*v+row)*(cols*h)+(m % cols*h+col)) % (cols*h)/h = m % cols ∧
      ((m/cols*v+row)*(cols*h)+(m % cols*h+col)) % (cols*h) % h = col := by
  have hlt : m % cols*h+col < cols*h := by
    calc m % cols*h+col < m % cols*h+h := by omega
      _ = (m % cols+1)*h := (Nat.succ_mul ..).symm
      _ ≤ cols*h := Nat.mul_le_mul_right h (Nat.mod_lt m hcols)
  have hpos : 0 < cols*h := by omega
  rw [Nat.mul_comm (m/cols*v+row),Nat.mul_add_div hpos,Nat.div_eq_of_lt hlt,Nat.mul_add_mod,
    Nat.mod_eq_of_lt hlt,Nat.add_zero,Nat.mul_comm (m/cols),Nat.mul_comm (m % cols)]
  rw [Nat.mul_add_div (by omega),Nat.div_eq_of_lt hrow,Nat.mul_add_mod,Nat.mod_eq_of_lt hrow,
    Nat.mul_add_div (by omega),Nat.div_eq_of_lt hcol,Nat.mul_add_mod,Nat.mod_eq_of_lt hcol]
  simp

theorem mem_componentBlocks {sc : PreparedProgressiveScanComponent τ} {m : ℕ} {p : ℕ × ℕ}
    (hgrid : ∀ component, plan.components[sc.componentIndex]? = some component →
      component.blockCols = plan.mcuCols*component.h)
    (h : p ∈ componentBlocks plan m sc) : p.1 = sc.componentIndex ∧
      ∃ component, plan.components[sc.componentIndex]? = some component ∧
        ∃ row < component.v, ∃ col < component.h,
          p.2 = (m/plan.mcuCols*component.v+row)*(plan.mcuCols*component.h)+
            (m % plan.mcuCols*component.h+col) := by
  unfold componentBlocks at h
  split at h
  · cases h
  · next component hcomponent =>
      obtain ⟨row,hrow,h⟩ := List.mem_flatMap.mp h
      obtain ⟨col,hcol,rfl⟩ := List.mem_map.mp h
      refine ⟨rfl,component,hcomponent,row,List.mem_range.mp hrow,col,List.mem_range.mp hcol,?_⟩
      rw [hgrid component hcomponent]

theorem nodup_componentBlocks {sc : PreparedProgressiveScanComponent τ} {m : ℕ}
    (hcols : 0 < plan.mcuCols)
    (hgrid : ∀ component, plan.components[sc.componentIndex]? = some component →
      component.blockCols = plan.mcuCols*component.h) :
    (componentBlocks plan m sc).Nodup := by
  unfold componentBlocks
  split
  · exact List.nodup_nil
  · next component hcomponent =>
      rw [hgrid component hcomponent,List.nodup_flatMap]
      constructor
      · intro row hrow
        refine List.Nodup.map_on ?_ List.nodup_range
        intro a ha b hb heq
        have hrow := List.mem_range.mp hrow
        have hA := (grid_index (m := m) hcols hrow (List.mem_range.mp ha)).2.2.2
        have hB := (grid_index (m := m) hcols hrow (List.mem_range.mp hb)).2.2.2
        rw [← hA,(Prod.mk.inj heq).2,hB]
      · refine List.Pairwise.imp_of_mem ?_ List.nodup_range
        intro a b ha hb hne
        refine List.disjoint_left.mpr ?_
        intro p hpa hpb
        obtain ⟨i,hi,rfl⟩ := List.mem_map.mp hpa
        obtain ⟨j,hj,heq⟩ := List.mem_map.mp hpb
        have hA := (grid_index (m := m) hcols (List.mem_range.mp ha) (List.mem_range.mp hi)).2.1
        have hB := (grid_index (m := m) hcols (List.mem_range.mp hb) (List.mem_range.mp hj)).2.1
        apply hne
        rw [← hA,← (Prod.mk.inj heq).2,hB]

/-- The scan visits no block twice. -/
theorem nodup_blocks (fits : ScanFits plan scan t t') {total : ℕ}
    (htotal : scanMcuCount plan scan = .ok total) :
    ((List.range total).flatMap (mcuBlocks plan scan)).Nodup := by
  unfold scanMcuCount at htotal
  by_cases hmany : 1 < scan.components.length
  · rw [if_pos hmany] at htotal
    have htotal : total ≤ plan.mcuCols*plan.mcuRows := by
      cases htotal
      exact min_le_left ..
    have hblocks : mcuBlocks plan scan =
        fun m => scan.components.flatMap (componentBlocks plan m) := by
      funext m
      rw [mcuBlocks,if_pos hmany]
    rw [hblocks,List.nodup_flatMap]
    have hcols {m : ℕ} (hm : m ∈ List.range total) : 0 < plan.mcuCols := by
      rcases Nat.eq_zero_or_pos plan.mcuCols with h | h
      · rw [h,Nat.zero_mul] at htotal
        rw [List.mem_range] at hm
        omega
      · exact h
    constructor
    · intro m hm
      rw [List.nodup_flatMap]
      refine ⟨fun sc hsc => nodup_componentBlocks (hcols hm) (fits.grid sc hsc),?_⟩
      refine List.Pairwise.imp_of_mem ?_ (List.pairwise_map.mp fits.unique)
      intro a b ha hb hne
      refine List.disjoint_left.mpr ?_
      intro p hpa hpb
      have hA := (mem_componentBlocks (fits.grid a ha) hpa).1
      have hB := (mem_componentBlocks (fits.grid b hb) hpb).1
      exact hne (hA.symm.trans hB)
    · refine List.Pairwise.imp_of_mem ?_ List.nodup_range
      intro m n hm hn hne
      refine List.disjoint_left.mpr ?_
      intro p hpm hpn
      obtain ⟨a,ha,hpm⟩ := List.mem_flatMap.mp hpm
      obtain ⟨b,hb,hpn⟩ := List.mem_flatMap.mp hpn
      obtain ⟨ha1,component,hc,i,hi,j,hj,hA⟩ := mem_componentBlocks (fits.grid a ha) hpm
      obtain ⟨hb1,component',hc',i',hi',j',hj',hB⟩ := mem_componentBlocks (fits.grid b hb) hpn
      rw [← ha1,hb1,hc'] at hc
      cases hc
      have hM := grid_index (m := m) (hcols hm) hi hj
      have hN := grid_index (m := n) (hcols hm) hi' hj'
      rw [← hA] at hM
      rw [← hB] at hN
      apply hne
      rw [← Nat.div_add_mod m plan.mcuCols,← hM.1,← hM.2.2.1,hN.1,hN.2.2.1,Nat.div_add_mod]
  · rw [if_neg hmany] at htotal
    obtain ⟨single,hsingle,htotal⟩ := bind_eq_ok.mp htotal
    have htotal : total ≤ progressiveCodedBlockCols single.2*progressiveCodedBlockRows single.2 := by
      cases htotal
      exact min_le_left ..
    have hle : progressiveCodedBlockCols single.2 ≤ single.2.blockCols := min_le_right ..
    have hblocks : mcuBlocks plan scan = fun m => [(single.1.componentIndex,
        m/progressiveCodedBlockCols single.2*single.2.blockCols+
          m % progressiveCodedBlockCols single.2)] := by
      funext m
      rw [mcuBlocks,if_neg hmany,hsingle]
    rw [hblocks,List.nodup_flatMap]
    refine ⟨fun m hm => List.nodup_singleton _,?_⟩
    refine List.Pairwise.imp_of_mem ?_ List.nodup_range
    intro m n hm hn hne
    have hpos : 0 < progressiveCodedBlockCols single.2 := by
      rcases Nat.eq_zero_or_pos (progressiveCodedBlockCols single.2) with h | h
      · rw [h,Nat.zero_mul] at htotal
        rw [List.mem_range] at hm
        omega
      · exact h
    generalize progressiveCodedBlockCols single.2 = cols at *
    refine List.disjoint_singleton.mpr ?_
    rw [List.mem_singleton]
    intro heq
    have hrow (k : ℕ) : (k/cols*single.2.blockCols+k % cols)/single.2.blockCols = k/cols ∧
        (k/cols*single.2.blockCols+k % cols) % single.2.blockCols = k % cols := by
      have hlt := (Nat.mod_lt k hpos).trans_le hle
      rw [Nat.mul_comm,Nat.mul_add_div (by omega),Nat.div_eq_of_lt hlt,Nat.mul_add_mod,
        Nat.mod_eq_of_lt hlt]
      exact ⟨rfl,rfl⟩
    apply hne
    have hdiv : m/cols = n/cols := by rw [← (hrow m).1,← (Prod.mk.inj heq).2,(hrow n).1]
    have hmod : m % cols = n % cols := by rw [← (hrow m).2,← (Prod.mk.inj heq).2,(hrow n).2]
    rw [← Nat.div_add_mod m cols,hdiv,hmod,Nat.div_add_mod]

/-! ## Scans and frames -/

theorem ends_restartIfDue {P R : ScanState ρ → Prop} {mcuIndex total : ℕ}
    (hP : ∀ s u : ScanState ρ, u.toCoefficientState = s.toCoefficientState → P s → P u)
    (hR : ∀ s, P s → R s) :
    Ends P (restartIfDue E scan mcuIndex total) (fun _ s => P s) R := by
  unfold restartIfDue
  refine Ends.bind (ends_read fun s h => h : Ends _ _ (fun _ => P) _) fun s => ?_
  split_ifs
  · intro u hu
    unfold consumeRestart
    cases E.consumeRestartMarker u.expectedRst mcuIndex total u.reader with
    | ok r => exact hP u _ rfl hu
    | error e => exact hR u hu
  · exact ends_pure fun u h => h

theorem ends_decodeStep (fits : ScanFits plan scan t t') {mcuIndex total : ℕ}
    {rest : List (ℕ × ℕ)} :
    Ends (fun s : ScanState ρ =>
        Remaining t t' (mcuBlocks plan scan mcuIndex ++ rest) s.toCoefficientState)
      (decodeProgressiveStep E plan scan total mcuIndex)
      (fun _ s => Remaining t t' rest s.toCoefficientState)
      (fun s => s.toCoefficientState.Holds t') := by
  refine Ends.bind (ends_restartIfDue (fun s u h hs => by rwa [h]) fun s h => h.toHolds) fun _ => ?_
  exact (ends_decodeMcu fits).bind fun _ => ends_change fun s h => h

/-- One scan takes the invariant of the table before it to the table after it. -/
theorem ends_decodeScan (fits : ScanFits plan scan t t') :
    Ends (fun s => s.Holds t) (decodeProgressiveScan E plan scan) (fun _ s => s.Holds t')
      (fun s => s.Holds t') := by
  have hmono (s : CoefficientState) (h : s.Holds t) : s.Holds t' :=
    ⟨fun p block hb k hk => fits.mono (h.within p block hb k hk),h.clear⟩
  unfold decodeProgressiveScan
  refine Ends.bind (ends_lift hmono fun a s _ h => h : Ends _ _ (fun _ s => s.Holds t) _)
    fun reader => ?_
  refine ends_within fun s hs => ?_
  cases htotal : scanMcuCount plan scan with
  | error e =>
      intro u hu
      subst hu
      exact hmono s hs
  | ok total =>
      have hloop := ends_forM (ε := JpegError)
        (R := fun u : ScanState ρ => u.toCoefficientState.Holds t')
        (P := fun ms (u : ScanState ρ) =>
          Remaining t t' (ms.flatMap (mcuBlocks plan scan)) u.toCoefficientState)
        (g := decodeProgressiveStep E plan scan total) (l := List.range total) fun m ms => by
          rw [List.flatMap_cons]
          exact ends_decodeStep fits
      refine Ends.imp (P := fun u : ScanState ρ => Remaining t t'
        ((List.range total).flatMap (mcuBlocks plan scan)) u.toCoefficientState)
        (Q := fun _ (u : ScanState ρ) => u.toCoefficientState.Holds t')
        ?_ (fun u hu => ?_) fun _ u hu => hu
      · refine Ends.bind (ends_lift (x := (.ok total : Except JpegError ℕ)) (fun u h => h.toHolds)
          (fun a u ha h => ⟨Except.ok.inj ha,h⟩ : ∀ a (u : ScanState ρ), _ → _ → total = a ∧ Remaining t t'
            ((List.range total).flatMap (mcuBlocks plan scan)) u.toCoefficientState))
          fun a => ?_
        by_cases ha : total = a
        · subst ha
          refine (hloop.imp (fun u h => h.2) fun _ u h => h).bind fun _ => ?_
          unfold finishProgressiveScan
          refine Ends.bind (ends_read fun u h => h.toHolds :
            Ends _ _ (fun _ (u : ScanState ρ) => u.toCoefficientState.Holds t') _) fun u => ?_
          split_ifs
          · exact ends_fail fun u h => h
          · exact ends_lift (fun u h => h) fun a u _ h => h
        · exact fun u h => absurd h.1 ha
      · subst hu
        exact ⟨hmono s hs,nodup_blocks fits htotal,fun p hp block hb k hk =>
          hs.within p block hb k hk⟩

end Scan

section Frame
variable {sof : ParsedSof} {resolve : T → ℕ → ℕ → ℕ → Except JpegError τ}

theorem prepareComponent_blockCols {index : ℕ} {component : PreparedProgressiveComponentPlan}
    (h : prepareComponent sof index = .ok component) :
    component.blockCols = divCeil sof.width (8*sof.maxH)*component.h := by
  unfold prepareComponent at h
  split at h
  · cases h
  · cases h
    rfl

theorem prepareScanComponents_spec {parsed : ParsedProgressiveScan T}
    {components : List (PreparedProgressiveScanComponent τ)}
    (h : prepareScanComponents sof.componentIds resolve parsed = .ok components) :
    List.Forall₂ (fun (component : ScanComponent) (sc : PreparedProgressiveScanComponent τ) =>
      findComponentIndex sof.componentIds component.id = some sc.componentIndex)
      parsed.scan.components components := by
  refine (mapM_forall₂ h).imp fun component sc hsc => ?_
  split at hsc
  · cases hsc
  · next index hindex =>
      split_ifs at hsc
      · obtain ⟨table,-,hsc⟩ := bind_eq_ok.mp hsc
        cases hsc
        exact hindex
      · obtain ⟨table,-,hsc⟩ := bind_eq_ok.mp hsc
        cases hsc
        exact hindex

theorem prepareScan_spec {parsed : ParsedProgressiveScan T} {scan : PreparedProgressiveScan τ}
    (h : prepareScan sof.componentIds resolve parsed = .ok scan) :
    List.Forall₂ (fun (component : ScanComponent) (sc : PreparedProgressiveScanComponent τ) =>
      findComponentIndex sof.componentIds component.id = some sc.componentIndex)
      parsed.scan.components scan.components ∧
      scan.ss = parsed.scan.ss ∧ scan.se = parsed.scan.se ∧ scan.ah = parsed.scan.ah ∧
      scan.al = parsed.scan.al := by
  obtain ⟨components,hcomponents,h⟩ := bind_eq_ok.mp h
  cases h
  exact ⟨prepareScanComponents_spec hcomponents,rfl,rfl,rfl,rfl⟩

theorem findComponentIndex_inj {ids : List ℕ} {a b i : ℕ} (ha : findComponentIndex ids a = some i)
    (hb : findComponentIndex ids b = some i) : a = b := by
  rw [findComponentIndex,List.findIdx?_eq_some_iff_getElem] at ha hb
  obtain ⟨_,ha,-⟩ := ha
  obtain ⟨_,hb,-⟩ := hb
  rw [← beq_iff_eq.mp ha,beq_iff_eq.mp hb]

/-- The components of a prepared scan carry the indices of the parsed ones. -/
theorem exists_index_iff {components : List ScanComponent}
    {prepared : List (PreparedProgressiveScanComponent τ)} {ids : List ℕ} {c : ℕ}
    (h : List.Forall₂ (fun (component : ScanComponent) (sc : PreparedProgressiveScanComponent τ) =>
      findComponentIndex ids component.id = some sc.componentIndex) components prepared) :
    (∃ component ∈ components, findComponentIndex ids component.id = some c) ↔
      ∃ sc ∈ prepared, sc.componentIndex = c := by
  induction h with
  | nil => simp
  | cons hab _ ih => simp [ih,hab]

theorem nodup_indices {components : List ScanComponent}
    {prepared : List (PreparedProgressiveScanComponent τ)} {ids : List ℕ}
    (h : List.Forall₂ (fun (component : ScanComponent) (sc : PreparedProgressiveScanComponent τ) =>
      findComponentIndex ids component.id = some sc.componentIndex) components prepared)
    (hids : (components.map ScanComponent.id).Nodup) :
    (prepared.map PreparedProgressiveScanComponent.componentIndex).Nodup := by
  induction h with
  | nil => exact List.nodup_nil
  | @cons component sc components prepared hab htail ih =>
      rw [List.map_cons,List.nodup_cons] at hids ⊢
      refine ⟨fun hmem => hids.1 ?_,ih hids.2⟩
      obtain ⟨other,hother,heq⟩ := List.mem_map.mp hmem
      obtain ⟨component',hc',hindex⟩ :=
        (exists_index_iff (c := sc.componentIndex) htail).mpr ⟨other,hother,heq⟩
      rw [findComponentIndex_inj hab hindex]
      exact List.mem_map_of_mem hc'

/-- A scan header accepted by the script, prepared for decoding, fits the tables before and
after it. -/
theorem acceptScan_fits {plan : PreparedProgressivePlan τ} {parsed : ParsedProgressiveScan T}
    {scan : PreparedProgressiveScan τ} {state state' : ProgressiveScriptState}
    (hids : state.componentIds = sof.componentIds)
    (haccept : acceptScan sof state (parsed.markerOffset,parsed.scan) = .ok state')
    (hscan : prepareScan sof.componentIds resolve parsed = .ok scan)
    (hgrid : ∀ (i : ℕ) (component : PreparedProgressiveComponentPlan),
      plan.components[i]? = some component → component.blockCols = plan.mcuCols*component.h) :
    state'.componentIds = sof.componentIds ∧
      ScanFits plan scan state.approximation state'.approximation := by
  obtain ⟨_,hvalid,hrecord⟩ := bind_eq_ok.mp haccept
  have hvalid := validateProgressiveScanComponents_ok hvalid
  obtain ⟨hids',hbefore,hafter⟩ := ProgressiveScriptState.recordScan_ok hrecord
  obtain ⟨hcomponents,hss,hse,hah,hal⟩ := prepareScan_spec hscan
  rw [hids] at hids' hbefore hafter
  refine ⟨hids',?_⟩
  refine
    { se_le := hse ▸ hvalid.se_le
      al_le := hal ▸ hvalid.al_le
      continues := by rw [hah,hal]; exact hvalid.continues
      before := ?_
      after := ?_
      unique := nodup_indices hcomponents hvalid.unique
      grid := fun sc _ component h => hgrid _ component h }
  · intro sc hsc k hk hk'
    rw [hss] at hk
    rw [hse] at hk'
    rw [hah]
    obtain ⟨component,hc,hindex⟩ := (exists_index_iff hcomponents).mpr ⟨sc,hsc,rfl⟩
    exact hbefore component hc _ hindex k hk hk'
  · intro c k
    rw [hafter,hss,hse,hal]
    exact if_congr (and_congr_left' (exists_index_iff hcomponents)) rfl rfl

variable {E : EntropyReader ρ τ}

/-- A run over scans whose headers the script accepted ends within some table. -/
theorem ends_scans {plan : PreparedProgressivePlan τ} {parsed : List (ParsedProgressiveScan T)}
    {scans : List (PreparedProgressiveScan τ)} {state state' : ProgressiveScriptState}
    (hids : state.componentIds = sof.componentIds)
    (haccept : (parsed.map fun p => (p.markerOffset,p.scan)).foldlM (acceptScan sof) state
      = .ok state')
    (hscans : List.Forall₂ (fun p scan => prepareScan sof.componentIds resolve p = .ok scan)
      parsed scans)
    (hgrid : ∀ (i : ℕ) (component : PreparedProgressiveComponentPlan),
      plan.components[i]? = some component → component.blockCols = plan.mcuCols*component.h) :
    Ends (fun s => s.Holds state.approximation) (scans.forM (decodeProgressiveScan E plan))
      (fun _ s => ∃ t, s.Holds t) (fun s => ∃ t, s.Holds t) := by
  induction hscans generalizing state with
  | nil => exact ends_pure fun s h => ⟨_,h⟩
  | cons hscan _ ih =>
      rw [List.map_cons,List.foldlM_cons] at haccept
      obtain ⟨middle,hmiddle,haccept⟩ := bind_eq_ok.mp haccept
      obtain ⟨hids',fits⟩ := acceptScan_fits hids hmiddle hscan hgrid
      exact ((ends_decodeScan fits).interrupted fun s h => ⟨_,h⟩).bind fun _ => ih hids' haccept

/-- Every coefficient agrees with the scan that last coded it: zero when none did, a
multiple of `2^al` when the last one coded at `al`; and refinements met clear bits only. -/
structure CoefficientState.Approximated (s : CoefficientState) : Prop where
  uncoded : ∀ p block i, s.blockAt p = some block → i < 64 → (block i).coded = none →
    (block i).value = 0
  coded : ∀ p block i al, s.blockAt p = some block → i < 64 → (block i).coded = some al →
    (2 : ℤ)^al ∣ (block i).value.toInt
  clear : ∀ p ∈ s.refined, p.1 &&& 1#32 <<< p.2 = 0

theorem pow_dvd_toInt {v : BitVec 32} {al : ℕ} (h : 2^al ∣ v.toNat) :
    (2 : ℤ)^al ∣ v.toInt := by
  have hv : (2 : ℤ)^al ∣ (v.toNat : ℤ) := by exact_mod_cast h
  rw [BitVec.toInt_eq_toNat_cond]
  split
  · exact hv
  · rcases Nat.lt_or_ge 32 al with hal | hal
    · have hzero : v.toNat = 0 := Nat.eq_zero_of_dvd_of_lt h
        (v.isLt.trans (Nat.pow_lt_pow_right (by decide) hal))
      omega
    · have hpow : (2 : ℤ)^al ∣ ((2^32 : ℕ) : ℤ) := by exact_mod_cast pow_dvd_pow 2 hal
      exact Int.dvd_sub hv hpow

/-- Within some table, a state is approximated as its coefficients were coded. -/
theorem CoefficientState.Holds.approximated {t : ℕ → ℕ → ℕ} {s : CoefficientState}
    (h : s.Holds t) : s.Approximated := by
  have haligned (p : ℕ × ℕ) (block : DctBlock) (i : ℕ) (hb : s.blockAt p = some block)
      (hi : i < 64) : (block i).Aligned := by
    obtain ⟨k,hk,rfl⟩ := exists_natural hi
    exact (h.within p block hb k hk).1
  refine ⟨fun p block i hb hi hc => ?_,fun p block i al hb hi hc => ?_,h.clear⟩
  · have hvalue := haligned p block i hb hi
    rw [Coefficient.Aligned,hc] at hvalue
    exact hvalue
  · have hvalue := haligned p block i hb hi
    rw [Coefficient.Aligned,hc] at hvalue
    exact pow_dvd_toInt hvalue

theorem holds_allocate (plan : PreparedProgressivePlan τ) (t : ℕ → ℕ → ℕ) :
    (allocateCoefficients plan).Holds t := by
  refine ⟨fun p block hb k _ => ?_,nofun⟩
  obtain ⟨blocks,hblocks,hblock⟩ := Option.bind_eq_some_iff.mp hb
  rw [allocateCoefficients,List.getElem?_map] at hblocks
  obtain ⟨component,-,rfl⟩ := Option.map_eq_some_iff.mp hblocks
  have hmem := List.mem_of_getElem? hblock
  rw [List.eq_of_mem_replicate hmem]
  exact ⟨rfl,nofun⟩

/-- The states of progressive decoding: where a run stands that the entropy data let go on
to its end, or stopped at any of their answers. -/
def Reachable (plan : PreparedProgressivePlan τ) (s : CoefficientState) : Prop :=
  ∃ (ρ : Type) (E : EntropyReader ρ τ), (decodeProgressiveDctBlocks E plan).2 = s

theorem buildProgressivePlan_ok {scans : List (ParsedProgressiveScan T)}
    {plan : PreparedProgressivePlan τ} (h : buildProgressivePlan sof resolve scans = .ok plan) :
    List.Forall₂ (fun p scan => prepareScan sof.componentIds resolve p = .ok scan)
      scans plan.scans ∧
    ∀ (i : ℕ) (component : PreparedProgressiveComponentPlan),
      plan.components[i]? = some component → component.blockCols = plan.mcuCols*component.h := by
  obtain ⟨components,hcomponents,h⟩ := bind_eq_ok.mp h
  obtain ⟨prepared,hprepared,h⟩ := bind_eq_ok.mp h
  cases h
  refine ⟨mapM_forall₂ hprepared,fun i component hi => ?_⟩
  obtain ⟨j,-,hj⟩ := exists_related (mapM_forall₂ hcomponents) (List.mem_of_getElem? hi)
  exact prepareComponent_blockCols hj

/-- Whatever the entropy data, in every state of decoding a frame whose scan script was
accepted the coefficients agree with the scans that last coded them, and no refinement met
a bit already set. -/
theorem progressive_approximation {scans : List (ParsedProgressiveScan T)} {terminalOffset : ℕ}
    (haccept : collectProgressiveScans sof (scans.map fun p => (p.markerOffset,p.scan))
      terminalOffset = .ok ())
    {plan : PreparedProgressivePlan τ} (hplan : buildProgressivePlan sof resolve scans = .ok plan)
    {s : CoefficientState} (hs : Reachable plan s) : s.Approximated := by
  obtain ⟨ρ,E,rfl⟩ := hs
  obtain ⟨state,hstate,-⟩ := bind_eq_ok.mp haccept
  obtain ⟨hscans,hgrid⟩ := buildProgressivePlan_ok hplan
  have hrun := ends_scans (E := E) rfl hstate hscans hgrid _ (holds_allocate plan _)
  unfold decodeProgressiveDctBlocks
  split at hrun
  · next h =>
      obtain ⟨t,ht⟩ := hrun
      rw [h]
      exact ht.approximated
  · next h =>
      obtain ⟨t,ht⟩ := hrun
      rw [h]
      exact ht.approximated

end Frame

/-- Two scans over the only block of a frame: its DC at position 1, then the last bit. -/
def refinedDcScans : List (ParsedProgressiveScan Unit) :=
  [⟨20,⟨[⟨1,0,0⟩],0,0,0,1⟩,30,40,0xDA,(),none⟩,
   ⟨40,⟨[⟨1,0,0⟩],0,0,1,0⟩,50,60,0xD9,(),none⟩]

def refinedDcPlan : PreparedProgressivePlan Unit where
  components := [⟨1,1,1,1,8,8⟩]
  scans := [⟨[⟨0,some (),none⟩],0,0,0,1,30,40,0xDA,none⟩,⟨[⟨0,some (),none⟩],0,0,1,0,50,60,0xD9,none⟩]
  mcuCols := 1
  mcuRows := 1

/-- Entropy data that give the difference 3 and then a set bit. -/
def refinedDcReader : EntropyReader Unit Unit where
  start _ := .ok ()
  decode _ r := .ok (2,r)
  readBits _ r := .ok (1,r)
  receiveExtend _ r := .ok (3,r)
  consumeRestartMarker expected _ _ r := .ok (expected,r)
  reconcile _ _ := .ok ()

theorem progressive_approximation_refinedDc :
    (decodeProgressiveDctBlocks refinedDcReader refinedDcPlan).2.Approximated :=
  @progressive_approximation Unit Unit ⟨[1],[(1,1)],8,8⟩ (fun _ _ _ _ => .ok ()) refinedDcScans 60
    rfl refinedDcPlan rfl _ ⟨Unit,refinedDcReader,rfl⟩

end J2kNative
