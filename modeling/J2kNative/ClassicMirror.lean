import J2kNative.ClassicEncoder
import J2kNative.ClassicBlockState

/-!
# Mirrored arrays of a classic code block

During a bit plane the arrays of encoder and decoder mirror each other: flags and neighbors are the
same, and the decoder holds the magnitude of a coefficient down to this bit plane, where the
coefficient is done, or down to the one before. Mirrored arrays give a coefficient the same labels.
The coder between the two appears only as a channel that carries decisions.
-/
namespace J2kNative.ClassicEncoder
open SymbolChannels RecordedRuns CountedLoops MqStates
open ClassicDecoder (Job Moment BitPlaneDecodeContext Known Safe mark mark_testBit)
open ClassicDecoder.BitPlaneDecodeContext (Inv Settled Near)

/-! ## Channels -/

/-- The decoder reads the decisions that the channel holds; of its state only the contexts change. -/
structure Carries {δ : Type} (ch : Channel Decision Moment δ (Buffer Context)) (raw : Bool)
    (readBit : ℕ → Rec Moment δ Bool) : Prop where
  view : ∀ m, ch.view m = m.ctx.contexts
  reads : ∀ (r : Run Moment δ) label bit rest,
    ch.Holds ((if raw then Decision.raw bit else .symbol label bit) :: rest) r.state.ctx.contexts
      r.source →
    ∃ r' contexts, readBit label r = (some bit,r') ∧
      r'.state = { r.state with ctx := { r.state.ctx with contexts } } ∧
      ch.Holds rest contexts r'.source
  resets : ∀ rest contexts source, ch.Holds (.resetContexts :: rest) contexts source →
    ch.Holds rest ClassicDecoder.resetContexts source

section
variable {δ : Type} {ch : Channel Decision Moment δ (Buffer Context)} {raw : Bool}
  {readBit : ℕ → Rec Moment δ Bool} {α β : Type} {I : Arrays → Moment → Prop}
  {O : α → β → Arrays → Moment → Prop}

/-- A condition that does not look at the contexts. -/
def Blind (I : Arrays → Moment → Prop) : Prop :=
  ∀ s m contexts, I s m → I s { m with ctx := { m.ctx with contexts } }

theorem Carries.sendBit (h : Carries ch raw readBit) (hI : Blind I) (label : ℕ) (bit : Bool) :
    Agree ch I (CodeBlock.sendBit raw label bit) (readBit label) fun _ b s m => b = bit ∧ I s m := by
  intro s r hr rest hrest
  rw [h.view] at hrest
  obtain ⟨r',contexts,hrun,hstate,hheld⟩ := h.reads r label bit rest hrest
  refine ⟨bit,r',hrun,?_,rfl,?_⟩
  · rw [h.view,hstate]
    exact hheld
  · rw [hstate]
    exact hI s r.state contexts hr

/-- Behind a bit both sides go on with it. -/
theorem Carries.sendBit_bind (h : Carries ch raw readBit) (hI : Blind I) {label label' : ℕ}
    {bit : Bool} {f : Unit → Send Arrays Decision α} {g : Bool → Rec Moment δ β}
    (hlabel : label' = label) (hf : Agree ch I (f ()) (g bit) O) :
    Agree ch I (CodeBlock.sendBit raw label bit >>= f) (readBit label' >>= g) O := by
  subst hlabel
  refine (h.sendBit hI label' bit).bind fun _ b => .given ?_
  rintro rfl
  exact hf

/-- The decoder changes its arrays, but for the contexts. -/
theorem Carries.edit (h : Carries ch raw readBit) {f : BitPlaneDecodeContext → BitPlaneDecodeContext}
    {m : Send Arrays Decision α} {k : Unit → Rec Moment δ β} {K : Arrays → Moment → Prop}
    (hf : ∀ s m, I s m → K s { m with ctx := f m.ctx }) (hcontexts : ∀ c, (f c).contexts = c.contexts)
    (hk : Agree ch K m (k ()) O) : Agree ch I m (ClassicDecoder.edit f >>= k) O :=
  Agree.update hf (fun m => by rw [h.view,h.view]; exact hcontexts m.ctx) hk

/-- Both change their arrays. -/
theorem Carries.change_edit (h : Carries ch raw readBit) {f : Arrays → Arrays}
    {g : BitPlaneDecodeContext → BitPlaneDecodeContext} {K : Arrays → Moment → Prop}
    (hf : ∀ s m, I s m → K (f s) { m with ctx := g m.ctx })
    (hcontexts : ∀ c, (g c).contexts = c.contexts) :
    Agree ch I (change f) (ClassicDecoder.edit g : Rec Moment δ Unit) fun _ _ => K := by
  intro s r hI rest hrest
  refine ⟨(),_,rfl,?_,hf s r.state hI⟩
  rw [h.view] at hrest ⊢
  exact (hcontexts r.state.ctx).symm ▸ hrest

theorem Carries.pure_edit (h : Carries ch raw readBit)
    {g : BitPlaneDecodeContext → BitPlaneDecodeContext} {K : Arrays → Moment → Prop}
    (hf : ∀ s m, I s m → K s { m with ctx := g m.ctx })
    (hcontexts : ∀ c, (g c).contexts = c.contexts) :
    Agree ch I (pure ()) (ClassicDecoder.edit g : Rec Moment δ Unit) fun _ _ => K :=
  h.change_edit (f := id) hf hcontexts

/-- The decoder puts a bit into its arrays. -/
theorem Carries.sendBit_edit (h : Carries ch raw readBit) (hI : Blind I) {label label' : ℕ}
    {bit : Bool} {g : Bool → BitPlaneDecodeContext → BitPlaneDecodeContext}
    {K : Arrays → Moment → Prop} (hlabel : label' = label)
    (hf : ∀ s m, I s m → K s { m with ctx := g bit m.ctx })
    (hcontexts : ∀ c, (g bit c).contexts = c.contexts) :
    Agree ch I (CodeBlock.sendBit raw label bit)
      (readBit label' >>= fun bit => ClassicDecoder.edit (g bit) : Rec Moment δ Unit)
      fun _ _ => K := by
  subst hlabel
  refine (h.sendBit hI label' bit).bind_right fun _ b => .given ?_
  rintro rfl
  exact h.pure_edit hf hcontexts

end

/-! ## Arrays of the encoder -/

def Arrays.isRefined (a : Arrays) (idx : ℕ) : Bool := (a.states idx).testBit magnitudeRefinedBit

section
variable (a : Arrays) (idx j : ℕ)

@[simp] theorem markCoded_isSignificant :
    (a.markCodedInCurrentPass idx).isSignificant j = a.isSignificant j := by
  unfold Arrays.markCodedInCurrentPass
  split_ifs
  · rfl
  · simp [Arrays.isSignificant,mark_testBit,significantBit,codedInCurrentPassBit]

@[simp] theorem markCoded_isRefined :
    (a.markCodedInCurrentPass idx).isRefined j = a.isRefined j := by
  unfold Arrays.markCodedInCurrentPass
  split_ifs
  · rfl
  · simp [Arrays.isRefined,mark_testBit,magnitudeRefinedBit,codedInCurrentPassBit]

@[simp] theorem markCoded_isNegative :
    (a.markCodedInCurrentPass idx).isNegative j = a.isNegative j := by
  unfold Arrays.markCodedInCurrentPass
  split_ifs
  · rfl
  · simp [Arrays.isNegative,mark_testBit,negativeBit,codedInCurrentPassBit]

@[simp] theorem markCoded_neighbors : (a.markCodedInCurrentPass idx).neighbors = a.neighbors := by
  unfold Arrays.markCodedInCurrentPass
  split_ifs <;> rfl

@[simp] theorem markCoded_isCoded :
    (a.markCodedInCurrentPass idx).isCoded j = (a.isCoded j || decide (j = idx)) := by
  unfold Arrays.markCodedInCurrentPass
  split_ifs with h
  · by_cases hj : j = idx
    · rw [hj,h,Bool.true_or]
    · simp [hj]
  · simp [Arrays.isCoded,mark_testBit]

@[simp] theorem setMagnitudeRefined_isSignificant :
    (a.setMagnitudeRefined idx).isSignificant j = a.isSignificant j := by
  simp [Arrays.setMagnitudeRefined,Arrays.isSignificant,mark_testBit,significantBit,
    magnitudeRefinedBit]

@[simp] theorem setMagnitudeRefined_isCoded :
    (a.setMagnitudeRefined idx).isCoded j = a.isCoded j := by
  simp [Arrays.setMagnitudeRefined,Arrays.isCoded,mark_testBit,codedInCurrentPassBit,
    magnitudeRefinedBit]

@[simp] theorem setMagnitudeRefined_isNegative :
    (a.setMagnitudeRefined idx).isNegative j = a.isNegative j := by
  simp [Arrays.setMagnitudeRefined,Arrays.isNegative,mark_testBit,negativeBit,magnitudeRefinedBit]

@[simp] theorem setMagnitudeRefined_isRefined :
    (a.setMagnitudeRefined idx).isRefined j = (a.isRefined j || decide (j = idx)) := by
  simp [Arrays.setMagnitudeRefined,Arrays.isRefined,mark_testBit]

variable (pw : ℕ)

@[simp] theorem setSignificant_isSignificant :
    (a.setSignificant pw idx).isSignificant j = (a.isSignificant j || decide (j = idx)) := by
  simp [Arrays.setSignificant,Arrays.isSignificant,mark_testBit]

@[simp] theorem setSignificant_isRefined :
    (a.setSignificant pw idx).isRefined j = a.isRefined j := by
  simp [Arrays.setSignificant,Arrays.isRefined,mark_testBit,significantBit,magnitudeRefinedBit]

@[simp] theorem setSignificant_isCoded :
    (a.setSignificant pw idx).isCoded j = a.isCoded j := by
  simp [Arrays.setSignificant,Arrays.isCoded,mark_testBit,significantBit,codedInCurrentPassBit]

@[simp] theorem setSignificant_isNegative :
    (a.setSignificant pw idx).isNegative j = a.isNegative j := by
  simp [Arrays.setSignificant,Arrays.isNegative,mark_testBit,significantBit,negativeBit]

/-- A mask over the cells of a list leaves its bits, and takes the others from these cells. -/
theorem foldl_mask_testBit (l : List ℕ) (states : Buffer ℕ) (mask bit : ℕ) :
    (l.foldl (fun states idx => states.set idx (states idx &&& mask)) states j).testBit bit =
      ((states j).testBit bit && (decide (j ∉ l) || mask.testBit bit)) := by
  induction l generalizing states with
  | nil => simp
  | cons i l ih =>
      rw [List.foldl_cons,ih]
      by_cases hj : j = i
      · subst hj
        rw [Buffer.set_self,Nat.testBit_and]
        cases (states j).testBit bit <;> cases mask.testBit bit <;> simp
      · rw [Buffer.set_of_ne _ _ hj]
        simp [hj]

@[simp] theorem clearCoded_isSignificant :
    a.clearCodedInCurrentPass.isSignificant j = a.isSignificant j := by
  have hmask : (2 ^ codedInCurrentPassBit ^^^ 0xFF).testBit significantBit = true := by decide
  simp [Arrays.clearCodedInCurrentPass,Arrays.isSignificant,foldl_mask_testBit,hmask]

@[simp] theorem clearCoded_isRefined : a.clearCodedInCurrentPass.isRefined j = a.isRefined j := by
  have hmask : (2 ^ codedInCurrentPassBit ^^^ 0xFF).testBit magnitudeRefinedBit = true := by decide
  simp [Arrays.clearCodedInCurrentPass,Arrays.isRefined,foldl_mask_testBit,hmask]

@[simp] theorem clearCoded_isNegative : a.clearCodedInCurrentPass.isNegative j = a.isNegative j := by
  have hmask : (2 ^ codedInCurrentPassBit ^^^ 0xFF).testBit negativeBit = true := by decide
  simp [Arrays.clearCodedInCurrentPass,Arrays.isNegative,foldl_mask_testBit,hmask]

theorem clearCoded_isCoded (h : a.isCoded j → j ∈ a.codedIndices) :
    a.clearCodedInCurrentPass.isCoded j = false := by
  have hmask : (2 ^ codedInCurrentPassBit ^^^ 0xFF).testBit codedInCurrentPassBit = false := by decide
  unfold Arrays.clearCodedInCurrentPass Arrays.isCoded
  rw [foldl_mask_testBit,hmask,Bool.or_false,Bool.and_eq_false_iff,decide_eq_false_iff_not,not_not]
  cases hcoded : (a.states j).testBit codedInCurrentPassBit with
  | false => exact .inl rfl
  | true => exact .inr (h hcoded)

end

/-! ## Values -/

section
variable {p m : ℕ}

theorem bit_split (m p : ℕ) : m / 2 ^ p = 2 * (m / 2 ^ (p + 1)) + (m.testBit p).toNat := by
  rw [Nat.pow_succ,← Nat.div_div_eq_div_mul,Nat.toNat_testBit]
  omega

/-- A bit of a magnitude goes below the ones that are known, whatever the sign is. -/
theorem push_bit (sign : Bool) (hp : p < 63) :
    (sign.toNat * 2 ^ 63 + m / 2 ^ (p + 1) * 2 ^ (p + 1)) ||| (m.testBit p).toNat <<< p =
      sign.toNat * 2 ^ 63 + m / 2 ^ p * 2 ^ p := by
  have hsplit : sign.toNat * 2 ^ 63 + m / 2 ^ (p + 1) * 2 ^ (p + 1) =
      2 ^ (p + 1) * (sign.toNat * 2 ^ (62 - p) + m / 2 ^ (p + 1)) := by
    rw [Nat.mul_add,Nat.mul_left_comm,← Nat.pow_add,Nat.mul_comm (2 ^ (p + 1)) (m / _)]
    congr 3
    omega
  have hlt : (m.testBit p).toNat <<< p < 2 ^ (p + 1) := by
    rw [Nat.shiftLeft_eq,Nat.pow_succ,Nat.mul_comm]
    exact Nat.mul_lt_mul_of_pos_left (Bool.toNat_lt _) (Nat.two_pow_pos p)
  rw [hsplit,← Nat.two_pow_add_eq_or_of_lt hlt,← hsplit,bit_split m p,Nat.shiftLeft_eq,Nat.pow_succ]
  ring

theorem set_sign (sign : Bool) (hm : m < 2 ^ 63) : m ||| sign.toNat <<< 63 = sign.toNat * 2 ^ 63 + m := by
  rw [Nat.or_comm,Nat.shiftLeft_eq,Nat.mul_comm,← Nat.two_pow_add_eq_or_of_lt hm]

end

/-! ## Mirrored arrays -/

namespace CodeBlock
variable (b : CodeBlock)

/-- The job of the decoder for this block. -/
def job (bitplanes maxCodingPasses : ℕ) (strict : Bool) : Job :=
  ⟨b.width,b.height,bitplanes,maxCodingPasses,strict,b.subBandType,b.style⟩

/-- A magnitude down to a bit plane. -/
def upTo (level idx : ℕ) : ℕ := b.magnitudes idx / 2 ^ level * 2 ^ level

/-- The decoder keeps the sign behind sixty-three bits. -/
def Small : Prop := ∀ idx, b.magnitudes idx < 2 ^ 63

theorem bitAt_eq (p idx : ℕ) : b.bitAt p idx = (b.magnitudes idx).testBit p := by
  unfold bitAt
  rw [Nat.and_two_pow]
  cases (b.magnitudes idx).testBit p <;> simp

variable {b}

theorem Small.upTo_lt (h : b.Small) (level idx : ℕ) : b.upTo level idx < 2 ^ 63 :=
  (Nat.div_mul_le_self _ _).trans_lt (h idx)

end CodeBlock

/-- The coefficients with a mark are listed, and no sign has changed. -/
structure Kept (b : CodeBlock) (a : Arrays) : Prop where
  listed : ∀ idx, a.isCoded idx → idx ∈ a.codedIndices
  negative : ∀ idx, a.isNegative idx = b.startArrays.isNegative idx

/-- The arrays during a bit plane. The coefficients of `D` have settled flags, and the magnitudes of
`done` are known down to this bit plane. -/
structure Mirrors (b : CodeBlock) (job : Job) (p : ℕ) (D : Set (ℕ × ℕ)) (done : Set ℕ) (a : Arrays)
    (c : BitPlaneDecodeContext) : Prop where
  known : Known job D ∅ c
  significant : ∀ idx, c.isSignificant idx = a.isSignificant idx
  refined : ∀ idx, c.hasMagnitudeRefinement idx = a.isRefined idx
  coded : ∀ x < b.width, ∀ y < b.height, c.zeroCodedNow job (b.cell x y) = a.isCoded (b.cell x y)
  neighbors : c.neighborSignificances = a.neighbors
  position : c.currentBitPosition = p
  done_value : ∀ idx ∈ done, c.coefficients idx =
    (a.isSignificant idx && a.isNegative idx).toNat * 2 ^ 63 + b.upTo p idx
  todo_value : ∀ idx ∉ done, c.coefficients idx =
    (a.isSignificant idx && a.isNegative idx).toNat * 2 ^ 63 + b.upTo (p + 1) idx
  kept : Kept b a

/-- A coefficient that is not significant has no bit that is known. -/
def Silent (b : CodeBlock) (p : ℕ) (done : Set ℕ) (a : Arrays) : Prop :=
  ∀ idx, a.isSignificant idx = false →
    (idx ∈ done → b.upTo p idx = 0) ∧ (idx ∉ done → b.upTo (p + 1) idx = 0)

section
variable {b : CodeBlock} {bitplanes maxCodingPasses : ℕ} {strict : Bool} {p : ℕ} {D : Set (ℕ × ℕ)}
  {done : Set ℕ} {a : Arrays} {c : BitPlaneDecodeContext} {x y : ℕ}
open ClassicDecoder

theorem setMagnitudeRefinement_hasMagnitudeRefinement (idx j : ℕ) :
    (c.setMagnitudeRefinement idx).hasMagnitudeRefinement j =
      (c.hasMagnitudeRefinement j || decide (j = idx)) := by
  simp [BitPlaneDecodeContext.setMagnitudeRefinement,BitPlaneDecodeContext.hasMagnitudeRefinement,
    mark_testBit]

theorem setZeroCodingIndex_hasMagnitudeRefinement (job : Job) (idx j : ℕ) :
    (c.setZeroCodingIndex job idx).hasMagnitudeRefinement j = c.hasMagnitudeRefinement j := by
  simp [BitPlaneDecodeContext.setZeroCodingIndex,BitPlaneDecodeContext.hasMagnitudeRefinement,
    mark_testBit,zeroCodingBit,magnitudeRefinementBit]

theorem setSignificantIndex_hasMagnitudeRefinement (job : Job) (idx j : ℕ) :
    (c.setSignificantIndex job idx).hasMagnitudeRefinement j = c.hasMagnitudeRefinement j := by
  unfold BitPlaneDecodeContext.setSignificantIndex
  split_ifs
  · rfl
  · simp [BitPlaneDecodeContext.hasMagnitudeRefinement,mark_testBit,significanceBit,
      magnitudeRefinementBit]

theorem setSignificantIndex_coefficients (job : Job) (idx : ℕ) :
    (c.setSignificantIndex job idx).coefficients = c.coefficients := by
  unfold BitPlaneDecodeContext.setSignificantIndex
  split_ifs <;> rfl

theorem setSignificantIndex_contexts (job : Job) (idx : ℕ) :
    (c.setSignificantIndex job idx).contexts = c.contexts := by
  unfold BitPlaneDecodeContext.setSignificantIndex
  split_ifs <;> rfl

theorem setSignificantIndex_position (job : Job) (idx : ℕ) :
    (c.setSignificantIndex job idx).currentBitPosition = c.currentBitPosition := by
  unfold BitPlaneDecodeContext.setSignificantIndex
  split_ifs <;> rfl

end

section
variable {b : CodeBlock} {bitplanes maxCodingPasses : ℕ} {strict : Bool} {p : ℕ} {D : Set (ℕ × ℕ)}
  {done : Set ℕ} {a : Arrays} {c : BitPlaneDecodeContext} {x y : ℕ}

theorem scanUnit_cell (hx : x < b.width) :
    (b.job bitplanes maxCodingPasses strict).scanUnitMaskIndex (b.cell x y) =
      (y / 4 * b.width + x,y % 4) := Job.scanUnit_cell hx

theorem Mirrors.congr {job : Job} {done' : Set ℕ} (h : Mirrors b job p D done a c)
    (hdone : ∀ idx, idx ∈ done ↔ idx ∈ done') : Mirrors b job p D done' a c :=
  Set.ext hdone ▸ h

theorem Mirrors.contexts {job : Job} (h : Mirrors b job p D done a c) (contexts : Buffer Context) :
    Mirrors b job p D done a { c with contexts } :=
  ⟨Safe.contexts (fun _ => contexts) D ∅ c h.known,h.significant,h.refined,h.coded,h.neighbors,
    h.position,h.done_value,h.todo_value,h.kept⟩

/-- A bit of a coefficient that is not done yet. -/
theorem Mirrors.pushMagnitudeBit {job : Job} (h : Mirrors b job p D done a c) (hp : p < 63) {idx : ℕ}
    (hidx : idx ∉ done) :
    Mirrors b job p D (done ∪ {idx}) a (c.pushMagnitudeBitIndex idx (b.bitAt p idx)) := by
  have hpushed : (c.pushMagnitudeBitIndex idx (b.bitAt p idx)).coefficients idx =
      (a.isSignificant idx && a.isNegative idx).toNat * 2 ^ 63 + b.upTo p idx := by
    unfold BitPlaneDecodeContext.pushMagnitudeBitIndex
    dsimp only
    rw [Buffer.set_self,h.todo_value idx hidx,h.position,b.bitAt_eq]
    exact push_bit _ hp
  have hkept : ∀ j, j ≠ idx →
      (c.pushMagnitudeBitIndex idx (b.bitAt p idx)).coefficients j = c.coefficients j :=
    fun j hj => Buffer.set_of_ne _ _ hj
  refine ⟨Safe.pushMagnitudeBitIndex idx _ D ∅ c h.known,h.significant,h.refined,h.coded,h.neighbors,
    h.position,fun j hj => ?_,fun j hj => ?_,h.kept⟩
  · by_cases heq : j = idx
    · rw [heq,hpushed]
    · rw [hkept j heq]
      exact h.done_value j (hj.resolve_right heq)
  · rw [hkept j fun heq => hj (.inr heq)]
    exact h.todo_value j fun hmem => hj (.inl hmem)

/-- A coefficient was refined. -/
theorem Mirrors.setMagnitudeRefined {job : Job} (h : Mirrors b job p D done a c) (idx : ℕ) :
    Mirrors b job p D done (a.setMagnitudeRefined idx) (c.setMagnitudeRefinement idx) := by
  refine ⟨Safe.setMagnitudeRefinement idx D ∅ c h.known,fun j => ?_,fun j => ?_,fun x hx y hy => ?_,
    h.neighbors,h.position,fun j hj => ?_,fun j hj => ?_,fun j hj => ?_,fun j => ?_⟩
  · rw [ClassicDecoder.setMagnitudeRefinement_isSignificant,setMagnitudeRefined_isSignificant,
      h.significant]
  · rw [setMagnitudeRefinement_hasMagnitudeRefinement,setMagnitudeRefined_isRefined,h.refined]
  · rw [setMagnitudeRefined_isCoded]
    exact h.coded x hx y hy
  · rw [setMagnitudeRefined_isSignificant,setMagnitudeRefined_isNegative]
    exact h.done_value j hj
  · rw [setMagnitudeRefined_isSignificant,setMagnitudeRefined_isNegative]
    exact h.todo_value j hj
  · rw [setMagnitudeRefined_isCoded] at hj
    exact h.kept.listed j hj
  · rw [setMagnitudeRefined_isNegative]
    exact h.kept.negative j

theorem Kept.markCoded (h : Kept b a) (idx : ℕ) : Kept b (a.markCodedInCurrentPass idx) := by
  refine ⟨fun j hj => ?_,fun j => (markCoded_isNegative _ _ _).trans (h.negative j)⟩
  rw [markCoded_isCoded,Bool.or_eq_true,decide_eq_true_eq] at hj
  unfold Arrays.markCodedInCurrentPass
  split_ifs with hcoded
  · rcases hj with hj | rfl
    · exact h.listed j hj
    · exact h.listed j hcoded
  · exact List.mem_append.mpr (hj.imp (h.listed j) List.mem_singleton.mpr)

/-- A coefficient with a significant neighbor was zero coded. -/
theorem Mirrors.setZeroCoding (h : Mirrors b (b.job bitplanes maxCodingPasses strict) p D done a c)
    (hx : x < b.width) (hy : y < b.height)
    (hnear : c.neighborhoodSignificanceStatesIndex (b.job bitplanes maxCodingPasses strict)
      (b.cell x y) y ≠ 0) :
    Mirrors b (b.job bitplanes maxCodingPasses strict) p (D ∪ {(x,y)}) done
      (a.markCodedInCurrentPass (b.cell x y))
      (c.setZeroCodingIndex (b.job bitplanes maxCodingPasses strict) (b.cell x y)) := by
  have hnear' : Known (b.job bitplanes maxCodingPasses strict) D {(x,y)} c :=
    ⟨h.known.inv,h.known.settled,fun x' _ y' _ hmem => by
      obtain ⟨rfl,rfl⟩ := Prod.mk.inj (Set.mem_singleton_iff.mp hmem)
      exact hnear⟩
  have hknown := hnear'.setZeroCodingIndex hx hy rfl
  refine ⟨⟨hknown.inv,hknown.settled,fun _ _ _ _ hmem => absurd hmem (Set.notMem_empty _)⟩,
    fun j => ?_,fun j => ?_,fun x' hx' y' hy' => ?_,?_,h.position,fun j hj => ?_,fun j hj => ?_,
    h.kept.markCoded _⟩
  · rw [ClassicDecoder.setZeroCodingIndex_isSignificant,markCoded_isSignificant,h.significant]
  · rw [setZeroCodingIndex_hasMagnitudeRefinement,markCoded_isRefined,h.refined]
  · rw [ClassicDecoder.setZeroCodingIndex_zeroCodedNow,markCoded_isCoded,h.coded x' hx' y' hy']
    congr 1
    rw [decide_eq_decide]
    refine ⟨fun heq => ?_,fun heq => by rw [heq]⟩
    rw [scanUnit_cell hx',scanUnit_cell hx] at heq
    obtain ⟨rfl,rfl⟩ := ClassicDecoder.scanUnit_inj hx' hx heq
    rfl
  · rw [markCoded_neighbors]
    exact h.neighbors
  · rw [markCoded_isSignificant,markCoded_isNegative]
    exact h.done_value j hj
  · rw [markCoded_isSignificant,markCoded_isNegative]
    exact h.todo_value j hj

/-- A coefficient becomes significant with its sign. -/
theorem Mirrors.setSignificant (h : Mirrors b (b.job bitplanes maxCodingPasses strict) p D done a c)
    (hb : b.Small) (hx : x < b.width) (hy : y < b.height) (hsig : a.isSignificant (b.cell x y) = false) :
    Mirrors b (b.job bitplanes maxCodingPasses strict) p D done
      (a.setSignificant b.paddedWidth (b.cell x y))
      ((c.setSignIndex (b.cell x y) (a.isNegative (b.cell x y))).setSignificantIndex
        (b.job bitplanes maxCodingPasses strict) (b.cell x y)) := by
  have hcoefficient : ∀ level j, c.coefficients j =
        (a.isSignificant j && a.isNegative j).toNat * 2 ^ 63 + b.upTo level j →
      (c.setSignIndex (b.cell x y) (a.isNegative (b.cell x y))).coefficients j =
        ((a.isSignificant j || decide (j = b.cell x y)) && a.isNegative j).toNat * 2 ^ 63 +
          b.upTo level j := by
    intro level j hj
    unfold BitPlaneDecodeContext.setSignIndex
    dsimp only
    by_cases heq : j = b.cell x y
    · subst heq
      rw [hsig,Bool.false_and,Bool.toNat_false,Nat.zero_mul,Nat.zero_add] at hj
      rw [Buffer.set_self,hj,set_sign _ (hb.upTo_lt level _)]
      simp
    · rw [Buffer.set_of_ne _ _ heq,hj]
      simp [heq]
  have hnot : (c.setSignIndex (b.cell x y) (a.isNegative (b.cell x y))).isSignificant (b.cell x y) =
      false := (h.significant _).trans hsig
  have hsigned : Known (b.job bitplanes maxCodingPasses strict) D ∅
      (c.setSignIndex (b.cell x y) (a.isNegative (b.cell x y))) :=
    Safe.setSignIndex _ _ D ∅ c h.known
  refine ⟨Safe.setSignificantIndex hx hy D ∅ _ hsigned,fun j => ?_,fun j => ?_,fun x' hx' y' hy' => ?_,
    ?_,?_,fun j hj => ?_,fun j hj => ?_,fun j hj => ?_,fun j => ?_⟩
  · rw [ClassicDecoder.setSignificantIndex_isSignificant,setSignificant_isSignificant]
    exact congrArg (· || _) (h.significant j)
  · rw [setSignificantIndex_hasMagnitudeRefinement,setSignificant_isRefined]
    exact h.refined j
  · rw [setSignificant_isCoded]
    unfold BitPlaneDecodeContext.zeroCodedNow
    rw [ClassicDecoder.setSignificantIndex_zeroCodingScanMasks]
    exact h.coded x' hx' y' hy'
  · unfold BitPlaneDecodeContext.setSignificantIndex
    rw [if_neg (Bool.eq_false_iff.mp hnot)]
    unfold Arrays.setSignificant
    dsimp only
    rw [← h.neighbors]
    rfl
  · rw [setSignificantIndex_position]
    exact h.position
  · rw [setSignificantIndex_coefficients,setSignificant_isSignificant,setSignificant_isNegative]
    exact hcoefficient p j (h.done_value j hj)
  · rw [setSignificantIndex_coefficients,setSignificant_isSignificant,setSignificant_isNegative]
    exact hcoefficient (p + 1) j (h.todo_value j hj)
  · rw [setSignificant_isCoded] at hj
    exact h.kept.listed j hj
  · rw [setSignificant_isNegative]
    exact h.kept.negative j

end

/-! ## Labels -/

theorem zeroCodingCtx_eq (neighbors : ℕ) (t : TileTree.SubBandType) :
    ClassicDecoder.contextLabelZeroCodingFromNeighbors neighbors t = zeroCodingCtx neighbors t := by
  cases t <;> rfl

theorem signContextLookup_snd_le (i : ℕ) : (signContextLookup.getD i (0,0)).2 ≤ 1 := by
  have hall : ∀ e ∈ signContextLookup, e.2 ≤ 1 := by decide +kernel
  rw [List.getD_eq_getElem?_getD]
  cases hi : signContextLookup[i]? with
  | none => exact Nat.zero_le 1
  | some e => exact hall e (List.mem_of_getElem? hi)

section
variable {b : CodeBlock} {bitplanes maxCodingPasses : ℕ} {strict : Bool} {p : ℕ} {D : Set (ℕ × ℕ)}
  {done : Set ℕ} {a : Arrays} {c : BitPlaneDecodeContext}

theorem neighborInNextStripe_eq (y : ℕ) :
    (b.job bitplanes maxCodingPasses strict).neighborInNextStripeY y = b.neighborInNextStripe y := by
  unfold Job.neighborInNextStripeY CodeBlock.neighborInNextStripe CodeBlock.job
  simp only [Nat.shiftRight_eq_div_pow,gt_iff_lt]

theorem Mirrors.neighborSig (h : Mirrors b (b.job bitplanes maxCodingPasses strict) p D done a c)
    (idx y : ℕ) :
    c.neighborhoodSignificanceStatesIndex (b.job bitplanes maxCodingPasses strict) idx y =
      b.effectiveNeighborSig (a.neighbors idx) y := by
  unfold BitPlaneDecodeContext.neighborhoodSignificanceStatesIndex CodeBlock.effectiveNeighborSig
  rw [neighborInNextStripe_eq,h.neighbors]
  rfl

/-- A neighbor has its sign where it is significant, and none elsewhere. -/
theorem Mirrors.signIndex {job : Job} (h : Mirrors b job p D done a c) (hb : b.Small) (idx : ℕ) :
    c.signIndex idx = CodeBlock.neighborSign a idx := by
  have hvalue : ∃ level, c.coefficients idx =
      (a.isSignificant idx && a.isNegative idx).toNat * 2 ^ 63 + b.upTo level idx := by
    by_cases hidx : idx ∈ done
    · exact ⟨p,h.done_value idx hidx⟩
    · exact ⟨p + 1,h.todo_value idx hidx⟩
  obtain ⟨level,hvalue⟩ := hvalue
  have hlt := hb.upTo_lt level idx
  unfold BitPlaneDecodeContext.signIndex CodeBlock.neighborSign
  rw [hvalue]
  cases a.isSignificant idx <;> cases a.isNegative idx <;> simp <;> omega

theorem Mirrors.signContext (h : Mirrors b (b.job bitplanes maxCodingPasses strict) p D done a c)
    (hb : b.Small) (idx y : ℕ) :
    c.contextLabelSignCodingIndexWithNeighbors (b.job bitplanes maxCodingPasses strict) false idx y =
      b.signContext a idx y := by
  show c.contextLabelSignCodingIndex _ idx y = _
  unfold BitPlaneDecodeContext.contextLabelSignCodingIndex BitPlaneDecodeContext.signContext
    CodeBlock.signContext
  simp only [h.neighborSig,h.signIndex hb,neighborInNextStripe_eq]
  rfl

theorem signContext_snd_le (a : Arrays) (idx y : ℕ) : (b.signContext a idx y).2 ≤ 1 :=
  signContextLookup_snd_le _

/-- The sign behind the flip. -/
theorem unflip (sign : Bool) {flip : ℕ} (h : flip ≤ 1) :
    (((sign.toNat ^^^ flip) != 0) ^^ (flip != 0)) = sign := by
  have hflip : flip = 0 ∨ flip = 1 := by omega
  rcases hflip with rfl | rfl <;> cases sign <;> rfl

theorem Mirrors.refinementLabel (h : Mirrors b (b.job bitplanes maxCodingPasses strict) p D done a c)
    (idx y : ℕ) :
    c.contextLabelMagnitudeRefinementCoding (b.job bitplanes maxCodingPasses strict) false idx y =
      CodeBlock.magnitudeRefinementCtx (a.states idx) (b.effectiveNeighborSig (a.neighbors idx) y) := by
  unfold BitPlaneDecodeContext.contextLabelMagnitudeRefinementCoding CodeBlock.magnitudeRefinementCtx
  rw [h.refined,← h.neighborSig]
  rfl

end

end J2kNative.ClassicEncoder
