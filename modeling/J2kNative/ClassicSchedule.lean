import J2kNative.ClassicEncodedPasses

/-!
# Coding passes of a classic block one after another

Between the passes the decoder knows the magnitudes down to the bit plane of the last clean-up, or
is in the middle of the next. Any of the passes leads from what it starts with to what the next one
starts with, under the arithmetic coder, and under the raw one where no clean-up is asked of it.
-/
namespace J2kNative.ClassicEncoder
open SymbolChannels RecordedRuns CountedLoops MqStates
open ClassicDecoder (Job Moment BitPlaneDecodeContext Known Safe)

/-! ## Preparation -/

/-- The arrays of magnitudes and states once these coefficients are put into them. -/
structure Prepared (b : CodeBlock) (D : Set (ℕ × ℕ)) (buffers : Buffer ℕ × Buffer ℕ) : Prop where
  put : ∀ q ∈ D, buffers.1 (b.cell q.1 q.2) = (b.coefficient q.1 q.2).natAbs ∧
    buffers.2 (b.cell q.1 q.2) = if b.coefficient q.1 q.2 < 0 then 2 ^ negativeBit else 0
  rest : ∀ idx, (∀ q ∈ D, idx ≠ b.cell q.1 q.2) → buffers.1 idx = 0 ∧ buffers.2 idx = 0

section
variable {b : CodeBlock}

theorem Prepared.step {D : Set (ℕ × ℕ)} {buffers : Buffer ℕ × Buffer ℕ} {x y : ℕ}
    (h : Prepared b D buffers) (hD : ∀ q ∈ D, q.1 < b.width) (hx : x < b.width) :
    Prepared b (D ∪ {(x,y)}) (buffers.1.set (b.cell x y) (b.coefficient x y).natAbs,
      if b.coefficient x y < 0 then buffers.2.set (b.cell x y) (2 ^ negativeBit) else buffers.2) := by
  have hother : ∀ idx, idx ≠ b.cell x y →
      (if b.coefficient x y < 0 then buffers.2.set (b.cell x y) (2 ^ negativeBit) else buffers.2) idx =
        buffers.2 idx := by
    intro idx hidx
    split_ifs
    · exact Buffer.set_of_ne _ _ hidx
    · rfl
  have hsame : (if b.coefficient x y < 0 then buffers.2.set (b.cell x y) (2 ^ negativeBit)
      else buffers.2) (b.cell x y) = if b.coefficient x y < 0 then 2 ^ negativeBit else 0 := by
    by_cases hmem : (x,y) ∈ D
    · have hput := (h.put _ hmem).2
      split_ifs with hneg
      · exact Buffer.set_self _ _ _
      · rwa [if_neg hneg] at hput
    · have hrest := (h.rest (b.cell x y) fun q hq heq => hmem (by
        obtain ⟨rfl,rfl⟩ := CodeBlock.block_cell_inj hx (hD q hq) heq
        exact hq)).2
      split_ifs
      · exact Buffer.set_self _ _ _
      · exact hrest
  refine ⟨fun q hq => ?_,fun idx hidx => ?_⟩
  · by_cases heq : b.cell q.1 q.2 = b.cell x y
    · have hq' : q.1 < b.width := by
        rcases hq with hq | hq
        · exact hD q hq
        · rw [Set.mem_singleton_iff.mp hq]
          exact hx
      obtain ⟨h₁,h₂⟩ := CodeBlock.block_cell_inj hq' hx heq
      rw [h₁,h₂]
      exact ⟨Buffer.set_self _ _ _,hsame⟩
    · have hmem : q ∈ D := hq.resolve_right fun hq' => heq (by rw [Set.mem_singleton_iff.mp hq'])
      exact ⟨(Buffer.set_of_ne _ _ heq).trans (h.put q hmem).1,
        (hother _ heq).trans (h.put q hmem).2⟩
  · have hne : idx ≠ b.cell x y := hidx (x,y) (.inr rfl)
    have hrest := h.rest idx fun q hq => hidx q (.inl hq)
    exact ⟨(Buffer.set_of_ne _ _ hne).trans hrest.1,(hother _ hne).trans hrest.2⟩

/-- Rows and columns as far as the loops have come. -/
def rowsUpTo (b : CodeBlock) (rows columns : ℕ) : Set (ℕ × ℕ) :=
  {q | q.1 < b.width ∧ (q.2 < rows ∨ q.2 = rows ∧ q.1 < columns)}

theorem prepared_row {buffers : Buffer ℕ × Buffer ℕ} {y : ℕ} (n : ℕ) (hn : n ≤ b.width)
    (h : Prepared b (rowsUpTo b y 0) buffers) :
    Prepared b (rowsUpTo b y n) ((List.range n).foldl (fun buffers x =>
      (buffers.1.set (b.cell x y) (b.coefficient x y).natAbs,
        if b.coefficient x y < 0 then buffers.2.set (b.cell x y) (2 ^ negativeBit)
        else buffers.2)) buffers) := by
  induction n with
  | zero => exact h
  | succ n ih =>
      rw [List.range_succ,List.foldl_append]
      have hgrown : rowsUpTo b y n ∪ {(n,y)} = rowsUpTo b y (n + 1) := by
        refine Set.ext fun q => ?_
        simp only [rowsUpTo,Set.mem_union,Set.mem_ofPred_eq,Set.mem_singleton_iff,Prod.ext_iff]
        omega
      rw [← hgrown]
      exact (ih (by omega)).step (fun q hq => hq.1) (by omega)

/-- The arrays hold the block in their middle and zeros around it. -/
theorem prepared_all : Prepared b {q | q.1 < b.width ∧ q.2 < b.height} b.preparePaddedCoefficients := by
  have hrows : ∀ n, Prepared b (rowsUpTo b n 0) ((List.range n).foldl (fun buffers y =>
      (List.range b.width).foldl (fun buffers x =>
        (buffers.1.set (b.cell x y) (b.coefficient x y).natAbs,
          if b.coefficient x y < 0 then buffers.2.set (b.cell x y) (2 ^ negativeBit)
          else buffers.2)) buffers) (fun _ => 0,fun _ => 0)) := by
    intro n
    induction n with
    | zero => exact ⟨fun q hq => by simp [rowsUpTo] at hq,fun _ _ => ⟨rfl,rfl⟩⟩
    | succ n ih =>
        rw [List.range_succ,List.foldl_append]
        have hgrown : rowsUpTo b n b.width = rowsUpTo b (n + 1) 0 := by
          refine Set.ext fun q => ?_
          simp only [rowsUpTo,Set.mem_ofPred_eq]
          omega
        rw [← hgrown]
        exact prepared_row b.width le_rfl ih
  have hall : {q : ℕ × ℕ | q.1 < b.width ∧ q.2 < b.height} = rowsUpTo b b.height 0 := by
    refine Set.ext fun q => ?_
    simp only [rowsUpTo,Set.mem_ofPred_eq]
    omega
  rw [hall]
  exact hrows b.height

theorem magnitudes_cell {x y : ℕ} (hx : x < b.width) (hy : y < b.height) :
    b.magnitudes (b.cell x y) = (b.coefficient x y).natAbs := (prepared_all.put (x,y) ⟨hx,hy⟩).1

theorem magnitudes_outside {idx : ℕ} (h : ∀ x < b.width, ∀ y < b.height, idx ≠ b.cell x y) :
    b.magnitudes idx = 0 := (prepared_all.rest idx fun q hq => h q.1 hq.1 q.2 hq.2).1

end

/-! ## Between the passes -/

/-- Behind the clean-up of a bit plane all magnitudes are known down to it. -/
structure Finished (b : CodeBlock) (job : Job) (p : ℕ) (a : Arrays) (c : BitPlaneDecodeContext) :
    Prop where
  mirrors : Mirrors b job p ∅ Set.univ a c
  silent : Silent b p Set.univ a
  uncoded : ∀ idx, a.isCoded idx = false

/-- The bit plane of a coding pass. -/
def planeOf (numBitplanes codingPass : ℕ) : ℕ := numBitplanes - 1 - (codingPass + 2) / 3

/-- What a coding pass starts with, once it has set its bit plane. -/
def Before (b : CodeBlock) (job : Job) (numBitplanes codingPass : ℕ) (a : Arrays) (m : Moment) : Prop :=
  if codingPass % 3 = 0 then
    Cleaning b job (planeOf numBitplanes codingPass) 0 a
      { m with ctx := { m.ctx with currentBitPosition := planeOf numBitplanes codingPass } }
  else if codingPass % 3 = 1 then
    Finished b job (numBitplanes - 1 - (codingPass - 1) / 3) a m.ctx
  else
    Refining b job (planeOf numBitplanes codingPass) 0 a
      { m with ctx := { m.ctx with currentBitPosition := planeOf numBitplanes codingPass } }

section
variable {b : CodeBlock} {bitplanes maxCodingPasses : ℕ} {strict : Bool} {p : ℕ} {a : Arrays}
  {c : BitPlaneDecodeContext} {m : Moment}

theorem Mirrors.position_eq {job : Job} {D : Set (ℕ × ℕ)} {done : Set ℕ}
    (h : Mirrors b job p D done a c) : { c with currentBitPosition := p } = c := by
  rw [← h.position]

/-- The bit planes below a finished one. -/
theorem Finished.propagating {job : Job} (h : Finished b job (p + 1) a c) (hm : m.ctx = c) :
    Propagating b job p ∅ a { m with ctx := { m.ctx with currentBitPosition := p } } := by
  rw [hm]
  have hnone : ∀ idx, ¬(a.isCoded idx = true) := fun idx => Bool.eq_false_iff.mp (h.uncoded idx)
  refine ⟨⟨Safe.currentBitPosition p ∅ ∅ c h.mirrors.known,h.mirrors.significant,h.mirrors.refined,
    h.mirrors.coded,h.mirrors.neighbors,rfl,fun idx hidx => absurd hidx (hnone idx),fun idx _ =>
    h.mirrors.done_value idx trivial,h.mirrors.kept⟩,fun idx hidx => ⟨fun hmem => absurd hmem (hnone idx),
    fun _ => (h.silent idx hidx).1 trivial⟩,fun x _ y _ hmem => absurd hmem (hnone _)⟩

/-- A whole propagation settles all flags. -/
theorem Propagating.refining {job : Job} (h : Propagating b job p (b.visited b.turns) a m)
    (hw : job.width = b.width) (hh : job.height = b.height) : Refining b job p 0 a m := by
  have hdone : ∀ idx, (idx ∈ {idx | a.isCoded idx = true}) ↔
      idx ∈ {idx | a.isCoded idx ∨ a.isSignificant idx ∧ idx ∈ b.cells 0} := by
    intro idx
    rw [CodeBlock.cells_zero]
    simp
  have hmirrors := h.mirrors.congr hdone
  refine ⟨⟨⟨hmirrors.known.inv,fun x hx y hy _ => hmirrors.known.settled x hx y hy
    (CodeBlock.visited_turns (hw ▸ hx) (hh ▸ hy)),hmirrors.known.near⟩,hmirrors.significant,
    hmirrors.refined,hmirrors.coded,hmirrors.neighbors,hmirrors.position,hmirrors.done_value,
    hmirrors.todo_value,hmirrors.kept⟩,h.silent.congr hdone fun _ => rfl⟩

theorem cells_turns {x y : ℕ} (hx : x < b.width) (hy : y < b.height) :
    b.cell x y ∈ b.cells b.turns := ⟨(x,y),CodeBlock.visited_turns hx hy,rfl⟩

/-- A whole refinement reaches every significant coefficient. -/
theorem Refining.cleaning (h : Refining b (b.job bitplanes maxCodingPasses strict) p b.turns a m) :
    Cleaning b (b.job bitplanes maxCodingPasses strict) p 0 a m := by
  have hdone : ∀ idx, (idx ∈ {idx | a.isCoded idx ∨ a.isSignificant idx ∧ idx ∈ b.cells b.turns}) ↔
      idx ∈ {idx | a.isCoded idx ∨ a.isSignificant idx ∨ idx ∈ b.cells 0} := by
    intro idx
    have hcell : a.isSignificant idx → idx ∈ b.cells b.turns := fun hsig => by
      obtain ⟨x,hx,y,hy,rfl⟩ := h.mirrors.known.inv.margin idx ((h.mirrors.significant idx).trans hsig)
      exact cells_turns hx hy
    rw [CodeBlock.cells_zero]
    simp only [Set.mem_ofPred_eq,Set.mem_empty_iff_false,or_false]
    exact or_congr_right ⟨fun hmem => hmem.1,fun hsig => ⟨hsig,hcell hsig⟩⟩
  exact ⟨h.mirrors.congr hdone,h.silent.congr hdone fun _ => rfl⟩

theorem resetForNextBitplane_hasMagnitudeRefinement (job : Job) (idx : ℕ) :
    (c.resetForNextBitplane job).hasMagnitudeRefinement idx = c.hasMagnitudeRefinement idx := by
  have hmask : (2 ^ ClassicDecoder.zeroCodingBit ^^^ 0xFF).testBit
      ClassicDecoder.magnitudeRefinementBit = true := by decide
  unfold BitPlaneDecodeContext.resetForNextBitplane BitPlaneDecodeContext.hasMagnitudeRefinement
  dsimp only
  split_ifs
  · dsimp only
    split_ifs
    · rw [Nat.testBit_and,hmask,Bool.and_true]
    · rfl
  · rfl

/-- A whole clean-up leaves nothing open, and the next bit plane starts afresh. -/
theorem Cleaning.finished (h : Cleaning b (b.job bitplanes maxCodingPasses strict) p b.turns a m) :
    Finished b (b.job bitplanes maxCodingPasses strict) p a.clearCodedInCurrentPass
      (m.ctx.resetForNextBitplane (b.job bitplanes maxCodingPasses strict)) := by
  have hout : ∀ idx, idx ∉ {idx | a.isCoded idx ∨ a.isSignificant idx ∨ idx ∈ b.cells b.turns} →
      ∀ level, b.upTo level idx = 0 := by
    intro idx hidx level
    have hzero : b.magnitudes idx = 0 := magnitudes_outside fun x hx y hy heq =>
      hidx (.inr (.inr (heq ▸ cells_turns hx hy)))
    unfold CodeBlock.upTo
    rw [hzero,Nat.zero_div,Nat.zero_mul]
  have hclear : ∀ idx, a.clearCodedInCurrentPass.isCoded idx = false :=
    fun idx => clearCoded_isCoded a idx (h.mirrors.kept.listed idx)
  refine ⟨⟨h.mirrors.known.resetForNextBitplane,fun idx => ?_,fun idx => ?_,fun x _ y _ => ?_,
    h.mirrors.neighbors,h.mirrors.position,fun idx _ => ?_,fun idx hidx => absurd trivial hidx,
    ⟨fun idx hidx => absurd hidx (Bool.eq_false_iff.mp (hclear idx)),fun idx =>
    (clearCoded_isNegative _ _).trans (h.mirrors.kept.negative idx)⟩⟩,fun idx hidx => ?_,hclear⟩
  · rw [ClassicDecoder.resetForNextBitplane_isSignificant,clearCoded_isSignificant]
    exact h.mirrors.significant idx
  · rw [resetForNextBitplane_hasMagnitudeRefinement,clearCoded_isRefined]
    exact h.mirrors.refined idx
  · rw [hclear]
    exact Nat.zero_testBit _
  · rw [clearCoded_isSignificant,clearCoded_isNegative]
    by_cases hmem : idx ∈ {idx | a.isCoded idx ∨ a.isSignificant idx ∨ idx ∈ b.cells b.turns}
    · exact h.mirrors.done_value idx hmem
    · have hvalue := h.mirrors.todo_value idx hmem
      rw [hout idx hmem] at hvalue ⊢
      exact hvalue
  · rw [clearCoded_isSignificant] at hidx
    refine ⟨fun _ => ?_,fun hmem => absurd trivial hmem⟩
    by_cases hmem : idx ∈ {idx | a.isCoded idx ∨ a.isSignificant idx ∨ idx ∈ b.cells b.turns}
    · exact (h.silent idx hidx).1 hmem
    · exact hout idx hmem p

end

/-! ## Passes -/

section
variable {δ : Type} {ch : Channel Decision Moment δ (Buffer Context)} {raw : Bool}
  {readBit : ℕ → Rec Moment δ Bool} {b : CodeBlock} {bitplanes maxCodingPasses : ℕ} {strict : Bool}
  {p : ℕ} {I I' : Arrays → Moment → Prop} {α β : Type} {m : Send Arrays Decision α}

/-- The contexts start anew where the style asks for it. -/
theorem resetContextsIfAsked_agree (hch : Carries ch raw readBit) (hI : Blind I) :
    Agree ch I b.resetContextsIfAsked
      (if (b.job bitplanes maxCodingPasses strict).style.resetContextProbabilities then
        ClassicDecoder.edit fun ctx => { ctx with contexts := ClassicDecoder.resetContexts }
      else pure () : Rec Moment δ Unit) fun _ _ => I := by
  unfold CodeBlock.resetContextsIfAsked
  refine .ite (fun _ _ _ => Iff.rfl) (fun _ _ => ?_) fun _ _ => .pure fun _ _ h => h
  intro s r hI' rest hrest
  rw [hch.view] at hrest
  refine ⟨(),_,rfl,?_,hI s r.state _ hI'⟩
  rw [hch.view]
  exact hch.resets rest _ _ hrest

theorem segmentationSymbolsIfAsked_agree (hch : Carries ch false readBit) (hI : Blind I) :
    Agree ch I b.segmentationSymbolsIfAsked
      (ClassicDecoder.checkSegmentationSymbol (b.job bitplanes maxCodingPasses strict) readBit)
      fun _ _ => I := by
  unfold CodeBlock.segmentationSymbolsIfAsked ClassicDecoder.checkSegmentationSymbol
  refine .ite (fun _ _ _ => Iff.rfl) (fun _ _ => ?_) fun _ _ => .pure fun _ _ h => h
  unfold CodeBlock.encodeSegmentationSymbols
  refine hch.sendBit_bind hI rfl (hch.sendBit_bind hI rfl (hch.sendBit_bind hI rfl ?_))
  refine (hch.sendBit hI 18 false).bind_right fun _ bit => .given ?_
  rintro rfl
  exact .pure fun _ _ h => h

/-- A phase does not show in the arrays. -/
theorem enter_agree (hch : Carries ch raw readBit) {phase : ClassicDecoder.Phase}
    {k : Unit → Rec Moment δ β} {O : α → β → Arrays → Moment → Prop}
    (hI : ∀ s m, I s m → I s { m with phase }) (hk : Agree ch I m (k ()) O) :
    Agree ch I m (ClassicDecoder.enter phase >>= k) O :=
  Agree.update hI (fun m => by rw [hch.view,hch.view]) hk

theorem enter_last (hch : Carries ch raw readBit) {phase : ClassicDecoder.Phase}
    (hI : ∀ s m, I s m → K s { m with phase }) :
    Agree ch I (pure ()) (ClassicDecoder.enter phase : Rec Moment δ Unit) fun _ _ => K := by
  intro s r hs rest hrest
  refine ⟨(),_,rfl,?_,hI s r.state hs⟩
  rw [hch.view] at hrest ⊢
  exact hrest

theorem blind_refining {job : Job} {n : ℕ} : Blind (Refining b job p n) :=
  fun _ _ contexts h => ⟨h.mirrors.contexts contexts,h.silent⟩

theorem blind_cleaning {job : Job} {n : ℕ} : Blind (Cleaning b job p n) :=
  fun _ _ contexts h => ⟨h.mirrors.contexts contexts,h.silent⟩

theorem blind_before {job : Job} {numBitplanes codingPass : ℕ} :
    Blind (Before b job numBitplanes codingPass) := by
  intro a m contexts h
  unfold Before at h ⊢
  split_ifs at h ⊢
  · exact blind_cleaning a _ contexts h
  · exact ⟨h.mirrors.contexts contexts,h.silent,h.uncoded⟩
  · exact blind_refining a _ contexts h

end

section
variable {δ : Type} {ch : Channel Decision Moment δ (Buffer Context)} {raw : Bool}
  {readBit : ℕ → Rec Moment δ Bool} {b : CodeBlock} {maxCodingPasses : ℕ} {strict : Bool}
  {numBitplanes codingPass : ℕ} {cleanup : Rec Moment δ Unit}

/-- Step lemma: a pass leads from what it starts with to what the next one starts with. -/
theorem codingPass_agree (hch : Carries ch raw readBit) (hb : b.Small) (hbits : numBitplanes ≤ 63)
    (hpass : codingPass < 1 + 3 * (numBitplanes - 1)) (hraw : codingPass % 3 = 0 → raw = false)
    (hcleanup : ∀ p < 63, codingPass % 3 = 0 →
      Agree ch (Cleaning b (b.job numBitplanes maxCodingPasses strict) p 0) (b.cleanupPass p) cleanup
        fun _ _ => Cleaning b (b.job numBitplanes maxCodingPasses strict) p b.turns) :
    Agree ch (Before b (b.job numBitplanes maxCodingPasses strict) numBitplanes codingPass)
      (b.encodeTurn (!raw) numBitplanes codingPass)
      (ClassicDecoder.codingPass (b.job numBitplanes maxCodingPasses strict) readBit cleanup
        (ClassicDecoder.significancePropagationPass (b.job numBitplanes maxCodingPasses strict) false
          readBit raw)
        (ClassicDecoder.magnitudeRefinementPass (b.job numBitplanes maxCodingPasses strict) false
          readBit) codingPass)
      fun _ _ => Before b (b.job numBitplanes maxCodingPasses strict) numBitplanes
        (codingPass + 1) := by
  have hp : planeOf numBitplanes codingPass < 63 := by unfold planeOf; omega
  have hplane : (b.job numBitplanes maxCodingPasses strict).bitplanes - 1 - (codingPass + 2) / 3 =
      planeOf numBitplanes codingPass := rfl
  unfold CodeBlock.encodeTurn CodeBlock.encodeCodingPass ClassicDecoder.codingPass
    ClassicDecoder.passOfNumber
  rw [hplane]
  dsimp only
  rw [show numBitplanes - 1 - (codingPass + 2) / 3 = planeOf numBitplanes codingPass from rfl]
  by_cases hzero : codingPass % 3 = 0
  · obtain rfl := hraw hzero
    rw [if_pos hzero,if_pos hzero]
    refine hch.edit (K := Cleaning b (b.job numBitplanes maxCodingPasses strict)
      (planeOf numBitplanes codingPass) 0) (fun s m h => by rwa [Before,if_pos hzero] at h)
      (fun _ => rfl) ?_
    refine Agree.bind ?_ fun _ _ => resetContextsIfAsked_agree hch blind_before
    refine enter_agree hch (fun _ _ h => ⟨h.mirrors,h.silent⟩) ?_
    refine (hcleanup _ hp hzero).bind fun _ _ => ?_
    refine (segmentationSymbolsIfAsked_agree hch blind_cleaning).bind fun _ _ => ?_
    refine enter_agree hch (fun _ _ h => ⟨h.mirrors,h.silent⟩) ?_
    refine hch.change_edit (fun s m h => ?_) fun _ => rfl
    have hone : (codingPass + 1) % 3 = 1 := by omega
    have hsame : numBitplanes - 1 - (codingPass + 1 - 1) / 3 = planeOf numBitplanes codingPass := by
      unfold planeOf
      omega
    rw [Before,if_neg (by omega),if_pos hone,hsame]
    exact h.finished
  have hplanes : planeOf numBitplanes (codingPass + 1) = planeOf numBitplanes codingPass := by
    unfold planeOf
    omega
  rw [if_neg hzero,if_neg hzero]
  by_cases hone : codingPass % 3 = 1
  · have hbefore : numBitplanes - 1 - (codingPass - 1) / 3 = planeOf numBitplanes codingPass + 1 := by
      unfold planeOf
      omega
    rw [if_pos hone,if_pos hone]
    refine hch.edit (K := Propagating b (b.job numBitplanes maxCodingPasses strict)
      (planeOf numBitplanes codingPass) ∅) (fun s m h => ?_) (fun _ => rfl) ?_
    · rw [Before,if_neg hzero,if_pos hone,hbefore] at h
      exact h.propagating rfl
    refine Agree.bind ?_ fun _ _ => resetContextsIfAsked_agree hch blind_before
    refine enter_agree hch (fun _ _ h => ⟨h.mirrors,h.silent,h.visited⟩) ?_
    have hpasses : (if (!raw) = true then b.significancePropagationPass (planeOf numBitplanes codingPass)
        else b.significancePropagationPassRaw (planeOf numBitplanes codingPass)) =
        b.propagationPass raw (planeOf numBitplanes codingPass) := by
      cases raw <;> rfl
    rw [hpasses]
    refine (propagationPass_agree hch hb hp).bind_right fun _ _ => enter_last hch fun s m h => ?_
    have hrefining := h.refining rfl rfl
    rw [Before,if_neg (by omega),if_neg (by omega),hplanes]
    exact ⟨hrefining.mirrors.position_eq.symm ▸ hrefining.mirrors,hrefining.silent⟩
  · rw [if_neg hone,if_neg hone]
    refine hch.edit (K := Refining b (b.job numBitplanes maxCodingPasses strict)
      (planeOf numBitplanes codingPass) 0) (fun s m h => by
        rwa [Before,if_neg hzero,if_neg hone] at h) (fun _ => rfl) ?_
    refine Agree.bind ?_ fun _ _ => resetContextsIfAsked_agree hch blind_before
    refine enter_agree hch (fun _ _ h => ⟨h.mirrors,h.silent⟩) ?_
    have hpasses : (if (!raw) = true then b.magnitudeRefinementPass (planeOf numBitplanes codingPass)
        else b.magnitudeRefinementPassRaw (planeOf numBitplanes codingPass)) =
        b.refinementPass raw (planeOf numBitplanes codingPass) := by
      cases raw <;> rfl
    rw [hpasses]
    refine (refinementPass_agree hch hp).bind_right fun _ _ => enter_last hch fun s m h => ?_
    have hcleaning := h.cleaning
    rw [Before,if_pos (by omega),hplanes]
    exact ⟨hcleaning.mirrors.position_eq.symm ▸ hcleaning.mirrors,hcleaning.silent⟩

end

end J2kNative.ClassicEncoder
