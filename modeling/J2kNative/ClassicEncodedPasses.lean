import J2kNative.ClassicMirror

/-!
# What the classic decoder makes of the encoder's decisions

Both sides visit the coefficients in one order. Every turn keeps the arrays mirrored, and so do the
passes: a propagation, a refinement, which the decoder makes for the bits of its scan masks only,
and a clean-up with its runs.
-/
namespace J2kNative.ClassicEncoder
open SymbolChannels RecordedRuns CountedLoops MqStates
open ClassicDecoder (Job Moment BitPlaneDecodeContext Known Safe mark mark_testBit)
open ClassicDecoder.BitPlaneDecodeContext (Inv Settled Near)

/-! ## Order of the scan -/

namespace CodeBlock
variable (b : CodeBlock)

/-- The number of a coefficient in the order of the scan. -/
def turn (x y : ℕ) : ℕ := 4 * (y / 4 * b.width + x) + y % 4

def visited (n : ℕ) : Set (ℕ × ℕ) := {q | q.1 < b.width ∧ q.2 < b.height ∧ b.turn q.1 q.2 < n}

theorem stripeHeight_le (stripe : ℕ) : b.stripeHeight stripe ≤ 4 := by
  unfold stripeHeight
  omega

theorem row_lt {stripe j : ℕ} (hj : j < b.stripeHeight stripe) : 4 * stripe + j < b.height := by
  unfold stripeHeight at hj
  omega

/-- The number of turns of a pass. -/
def turns : ℕ := 4 * ((b.height + 3) / 4 * b.width)

variable {b}

theorem turn_inj {x y x' y' : ℕ} (hx : x < b.width) (hx' : x' < b.width)
    (h : b.turn x y = b.turn x' y') : x = x' ∧ y = y' := by
  unfold turn at h
  exact ClassicDecoder.scanUnit_inj hx hx' (Prod.mk.injEq .. ▸ ⟨by omega,by omega⟩)

theorem turn_column {stripe x j : ℕ} (hj : j < 4) :
    b.turn x (4 * stripe + j) = 4 * (stripe * b.width + x) + j := by
  have hdiv : (4 * stripe + j) / 4 = stripe := by omega
  have hmod : (4 * stripe + j) % 4 = j := by omega
  unfold turn
  rw [hdiv,hmod]

theorem block_cell_inj {x y x' y' : ℕ} (hx : x < b.width) (hx' : x' < b.width)
    (h : b.cell x y = b.cell x' y') : x = x' ∧ y = y' :=
  @Job.cell_inj (b.job 0 0 true) _ _ _ _ hx hx' h

theorem visited_zero : b.visited 0 = ∅ := Set.eq_empty_of_forall_notMem fun _ h => by
  exact absurd h.2.2 (Nat.not_lt_zero _)

theorem visited_turn {x y : ℕ} (hx : x < b.width) (hy : y < b.height) :
    (x,y) ∉ b.visited (b.turn x y) ∧ b.visited (b.turn x y) ∪ {(x,y)} = b.visited (b.turn x y + 1) := by
  refine ⟨fun h => absurd h.2.2 (Nat.lt_irrefl _),Set.ext fun q => ⟨fun h => ?_,fun h => ?_⟩⟩
  · rcases h with h | h
    · exact ⟨h.1,h.2.1,Nat.lt_succ_of_lt h.2.2⟩
    · rw [Set.mem_singleton_iff.mp h]
      exact ⟨hx,hy,Nat.lt_succ_self _⟩
  · by_cases heq : b.turn q.1 q.2 = b.turn x y
    · obtain ⟨h₁,h₂⟩ := turn_inj h.1 hx heq
      exact .inr (Prod.ext h₁ h₂)
    · exact .inl ⟨h.1,h.2.1,by have := h.2.2; omega⟩

/-- No coefficient stands below the rows of a stripe. -/
theorem visited_column {stripe x : ℕ} (hx : x < b.width) (n : ℕ)
    (hn : b.stripeHeight stripe ≤ n) (hn' : n ≤ 4) :
    b.visited (4 * (stripe * b.width + x) + n) = b.visited (4 * (stripe * b.width + x) + 4) := by
  refine Set.ext fun q => ⟨fun h => ⟨h.1,h.2.1,by have := h.2.2; omega⟩,fun h => ⟨h.1,h.2.1,?_⟩⟩
  by_contra hge
  have hturn := h.2.2
  have hheight := h.2.1
  unfold turn at hge hturn
  have hunit : q.2 / 4 * b.width + q.1 = stripe * b.width + x := by omega
  have hrow := (cell_inj h.1 hx hunit).1
  unfold stripeHeight at hn
  omega

theorem visited_turns {x y : ℕ} (hx : x < b.width) (hy : y < b.height) : (x,y) ∈ b.visited b.turns := by
  refine ⟨hx,hy,?_⟩
  have hrow : (y / 4 + 1) * b.width ≤ (b.height + 3) / 4 * b.width :=
    Nat.mul_le_mul_right _ (by omega)
  rw [Nat.succ_mul] at hrow
  unfold turn turns
  dsimp only
  omega

/-- The places of the first coefficients in the arrays. -/
def cells (b : CodeBlock) (n : ℕ) : Set ℕ := {idx | ∃ q ∈ b.visited n, idx = b.cell q.1 q.2}

theorem cells_zero : b.cells 0 = ∅ := Set.eq_empty_of_forall_notMem fun _ h => by
  obtain ⟨q,hq,-⟩ := h
  exact absurd hq.2.2 (Nat.not_lt_zero _)

theorem cells_turn {x y : ℕ} (hx : x < b.width) (hy : y < b.height) :
    b.cell x y ∉ b.cells (b.turn x y) ∧
      b.cells (b.turn x y) ∪ {b.cell x y} = b.cells (b.turn x y + 1) := by
  obtain ⟨hnot,hunion⟩ := visited_turn hx hy
  refine ⟨fun h => ?_,Set.ext fun idx => ⟨fun h => ?_,fun h => ?_⟩⟩
  · obtain ⟨q,hq,heq⟩ := h
    obtain ⟨rfl,rfl⟩ := block_cell_inj hx hq.1 heq
    exact hnot hq
  · rcases h with ⟨q,hq,heq⟩ | h
    · exact ⟨q,hunion ▸ .inl hq,heq⟩
    · exact ⟨(x,y),hunion ▸ .inr rfl,h⟩
  · obtain ⟨q,hq,heq⟩ := h
    rw [← hunion] at hq
    rcases hq with hq | hq
    · exact .inl ⟨q,hq,heq⟩
    · exact .inr (by rw [heq,Set.mem_singleton_iff.mp hq]; rfl)

theorem cells_column (stripe : ℕ) {x : ℕ} (hx : x < b.width) :
    b.cells (4 * (stripe * b.width + x) + b.stripeHeight stripe) =
      b.cells (4 * (stripe * b.width + x) + 4) := by
  unfold cells
  rw [visited_column hx _ le_rfl (b.stripeHeight_le stripe)]

end CodeBlock

section
variable {δ : Type} {ch : Channel Decision Moment δ (Buffer Context)} {b : CodeBlock}
  {bitplanes maxCodingPasses : ℕ} {strict : Bool} {R : ℕ → Arrays → Moment → Prop}

/-- The columns of a pass, one after another. -/
theorem forColumns_agree {f : ℕ → ℕ → Send Arrays Decision Unit} {g : ℕ → ℕ → Rec Moment δ Unit}
    (h : ∀ stripe, ∀ x < b.width, Agree ch (R (4 * (stripe * b.width + x))) (f stripe x) (g stripe x)
      fun _ _ => R (4 * (stripe * b.width + x) + 4)) :
    Agree ch (R 0) (b.forColumns f)
      (ClassicDecoder.forColumns (b.job bitplanes maxCodingPasses strict) g)
      fun _ _ => R b.turns := by
  have hstripe : ∀ stripe, Agree ch (R (4 * (stripe * b.width))) ((List.range b.width).forM (f stripe))
      ((List.range b.width).forM (g stripe)) fun _ _ => R (4 * ((stripe + 1) * b.width)) := by
    intro stripe
    rw [Nat.succ_mul stripe]
    exact Agree.forRange (J := fun x => R (4 * (stripe * b.width + x))) fun x hx => h stripe x hx
  have hstripes := Agree.forRange (J := fun stripe => R (4 * (stripe * b.width)))
    (n := (b.height + 3) / 4) fun stripe _ => hstripe stripe
  rw [Nat.zero_mul] at hstripes
  exact hstripes

end

/-! ## Turns -/

section
variable {δ : Type} {ch : Channel Decision Moment δ (Buffer Context)} {raw : Bool}
  {readBit : ℕ → Rec Moment δ Bool} {b : CodeBlock} {bitplanes maxCodingPasses : ℕ} {strict : Bool}
  {p : ℕ} {D : Set (ℕ × ℕ)} {done : Set ℕ} {x y : ℕ}

/-- The encoder is in these arrays, and the decoder mirrors them. -/
def At (b : CodeBlock) (job : Job) (p : ℕ) (D : Set (ℕ × ℕ)) (done : Set ℕ) (a a' : Arrays)
    (m : Moment) : Prop := a' = a ∧ Mirrors b job p D done a m.ctx

theorem blind_at {job : Job} {a : Arrays} : Blind (At b job p D done a) :=
  fun _ _ contexts h => ⟨h.1,h.2.contexts contexts⟩

variable (hch : Carries ch raw readBit) (hb : b.Small)
include hch hb

/-- Step lemma: a sign. -/
theorem becomeSignificant_agree {a : Arrays} (hx : x < b.width) (hy : y < b.height)
    (hsig : a.isSignificant (b.cell x y) = false) :
    Agree ch (At b (b.job bitplanes maxCodingPasses strict) p D done a)
      (b.becomeSignificant raw (b.cell x y) y)
      (ClassicDecoder.becomeSignificant (b.job bitplanes maxCodingPasses strict) false readBit raw
        (b.cell x y) y)
      fun _ _ => At b (b.job bitplanes maxCodingPasses strict) p D done
        (a.setSignificant b.paddedWidth (b.cell x y)) := by
  have hsign : Agree ch (At b (b.job bitplanes maxCodingPasses strict) p D done a)
      (b.encodeSign raw (b.cell x y) y)
      (ClassicDecoder.decodeSignBit (b.job bitplanes maxCodingPasses strict) false readBit raw
        (b.cell x y) y)
      fun _ _ s m => s = a ∧ ∃ c, Mirrors b (b.job bitplanes maxCodingPasses strict) p D done a c ∧
        m.ctx = c.setSignIndex (b.cell x y) (a.isNegative (b.cell x y)) := by
    refine .look fun s m hm => ?_
    obtain ⟨rfl,hm⟩ := hm
    refine Agree.mono ?_ (I := At b (b.job bitplanes maxCodingPasses strict) p D done s)
      (fun _ _ h => ⟨h.1,h.2 ▸ hm⟩) fun _ _ _ _ h => h
    have hlabel := hm.signContext hb (b.cell x y) y
    refine hch.sendBit_edit blind_at (congrArg Prod.fst hlabel)
      (fun s' m' h => ⟨h.1,m'.ctx,h.2,?_⟩) fun _ => rfl
    dsimp only
    rw [hlabel]
    cases raw with
    | true => rfl
    | false => exact congrArg _ (unflip _ (signContext_snd_le s _ y))
  exact hsign.bind fun _ _ => hch.change_edit (fun s m h => by
    obtain ⟨rfl,c,hc,hctx⟩ := h
    refine ⟨rfl,?_⟩
    dsimp only
    rw [hctx]
    exact hc.setSignificant hb hx hy hsig) fun c => setSignificantIndex_contexts _ _

theorem learn_agree {a : Arrays} (hx : x < b.width) (hy : y < b.height)
    (hsig : a.isSignificant (b.cell x y) = false) (bit : Bool) :
    Agree ch (At b (b.job bitplanes maxCodingPasses strict) p D done a)
      (if bit then b.becomeSignificant raw (b.cell x y) y else pure ())
      (if bit then ClassicDecoder.becomeSignificant (b.job bitplanes maxCodingPasses strict) false
        readBit raw (b.cell x y) y else pure ())
      fun _ _ => At b (b.job bitplanes maxCodingPasses strict) p D done
        (if bit then a.setSignificant b.paddedWidth (b.cell x y) else a) := by
  cases bit with
  | true => exact becomeSignificant_agree hch hb hx hy hsig
  | false => exact .pure fun _ _ h => h

end

/-! ## Significance propagation -/

section
variable {b : CodeBlock} {p : ℕ} {done : Set ℕ} {a : Arrays}

theorem upTo_split (b : CodeBlock) (p idx : ℕ) :
    b.upTo p idx = 0 ↔ b.upTo (p + 1) idx = 0 ∧ b.bitAt p idx = false := by
  have hsplit := bit_split (b.magnitudes idx) p
  have hp := Nat.two_pow_pos p
  have hp' := Nat.two_pow_pos (p + 1)
  unfold CodeBlock.upTo
  rw [b.bitAt_eq,Nat.mul_eq_zero,Nat.mul_eq_zero]
  cases hbit : (b.magnitudes idx).testBit p with
  | true =>
      rw [hbit,Bool.toNat_true] at hsplit
      simp only [reduceCtorEq,and_false,iff_false,not_or]
      omega
  | false =>
      rw [hbit,Bool.toNat_false] at hsplit
      simp only [and_true]
      omega

theorem Silent.congr {done' : Set ℕ} {a' : Arrays} (h : Silent b p done a)
    (hdone : ∀ idx, idx ∈ done ↔ idx ∈ done')
    (hsig : ∀ idx, a'.isSignificant idx = a.isSignificant idx) : Silent b p done' a' := by
  intro idx hidx
  rw [hsig] at hidx
  exact ⟨fun hmem => (h idx hidx).1 ((hdone idx).mpr hmem),
    fun hmem => (h idx hidx).2 fun hmem' => hmem ((hdone idx).mp hmem')⟩

/-- A coefficient is significant as soon as it has a bit. -/
theorem Silent.learn (h : Silent b p done a) {idx : ℕ} (hidx : idx ∉ done) :
    Silent b p (done ∪ {idx})
      (if b.bitAt p idx then a.setSignificant b.paddedWidth idx else a) := by
  intro j hj
  have hcase : a.isSignificant j = false ∧ (j = idx → b.bitAt p idx = false) := by
    cases hbit : b.bitAt p idx with
    | true =>
        rw [hbit,if_pos rfl,setSignificant_isSignificant,Bool.or_eq_false_iff,
          decide_eq_false_iff_not] at hj
        exact ⟨hj.1,fun heq => absurd heq hj.2⟩
    | false =>
        rw [hbit] at hj
        exact ⟨hj,fun _ => rfl⟩
  refine ⟨fun hmem => ?_,fun hmem => (h j hcase.1).2 fun hj => hmem (.inl hj)⟩
  by_cases heq : j = idx
  · rw [upTo_split]
    refine ⟨(h j hcase.1).2 (heq ▸ hidx),?_⟩
    rw [heq]
    exact hcase.2 heq
  · exact (h j hcase.1).1 (hmem.resolve_right heq)

end

/-- During a propagation the coefficients that are coded are done. -/
structure Propagating (b : CodeBlock) (job : Job) (p : ℕ) (D : Set (ℕ × ℕ)) (a : Arrays)
    (m : Moment) : Prop where
  mirrors : Mirrors b job p D {idx | a.isCoded idx} a m.ctx
  silent : Silent b p {idx | a.isCoded idx} a
  visited : ∀ x < b.width, ∀ y < b.height, a.isCoded (b.cell x y) → (x,y) ∈ D

section
variable {δ : Type} {ch : Channel Decision Moment δ (Buffer Context)} {raw : Bool}
  {readBit : ℕ → Rec Moment δ Bool} {b : CodeBlock} {bitplanes maxCodingPasses : ℕ} {strict : Bool}
  {p : ℕ} {D : Set (ℕ × ℕ)} {x y : ℕ}

/-- A coefficient that is not coded has its flag settled as well. -/
theorem Mirrors.skip {job : Job} {done : Set ℕ} {a : Arrays} {c : BitPlaneDecodeContext}
    (h : Mirrors b job p D done a c)
    (hflag : c.hasZeroCoding (job.cell x y) → c.isSignificant (job.cell x y)) :
    Mirrors b job p (D ∪ {(x,y)}) done a c := by
  refine ⟨⟨h.known.inv,fun x' hx' y' hy' hmem hflag' => ?_,h.known.near⟩,h.significant,h.refined,
    h.coded,h.neighbors,h.position,h.done_value,h.todo_value,h.kept⟩
  rcases hmem with hmem | hmem
  · exact h.known.settled x' hx' y' hy' hmem hflag'
  · obtain ⟨rfl,rfl⟩ := Prod.mk.inj (Set.mem_singleton_iff.mp hmem)
    exact .inl (hflag hflag')

variable (hch : Carries ch raw readBit) (hb : b.Small) (hp : p < 63)
include hch hb hp

/-- Step lemma: a coefficient in a propagation. -/
theorem propagateCoefficient_agree (hx : x < b.width) (hy : y < b.height) (hD : (x,y) ∉ D) :
    Agree ch (Propagating b (b.job bitplanes maxCodingPasses strict) p D)
      (b.propagateCoefficient raw p x y)
      (ClassicDecoder.propagateCoefficient (b.job bitplanes maxCodingPasses strict) false readBit raw
        x y)
      fun _ _ => Propagating b (b.job bitplanes maxCodingPasses strict) p (D ∪ {(x,y)}) := by
  refine .look fun a m hm => ?_
  have hneighbors := hm.mirrors.neighborSig (b.cell x y) y
  have hsignificant := hm.mirrors.significant (b.cell x y)
  have hcondition : (!m.ctx.isSignificant (b.cell x y) && m.ctx.neighborhoodSignificanceStatesIndex
        (b.job bitplanes maxCodingPasses strict) (b.cell x y) y != 0) =
      (!a.isSignificant (b.cell x y) &&
        b.effectiveNeighborSig (a.neighbors (b.cell x y)) y != 0) := by
    rw [hneighbors,hsignificant]
  refine .ite (fun _ _ _ => by rw [← hcondition]; rfl) (fun hcoded _ => ?_)
    fun hskipped _ => .pure fun s t hst => ?_
  · rw [Bool.and_eq_true,Bool.not_eq_true',bne_iff_ne] at hcoded
    have hidx : b.cell x y ∉ {idx | a.isCoded idx} := fun hmem => hD (hm.visited x hx y hy hmem)
    refine Agree.mono (I := At b (b.job bitplanes maxCodingPasses strict) p D {idx | a.isCoded idx} a)
      ?_ (fun s t h => ⟨h.1,h.2 ▸ hm.mirrors⟩) fun _ _ _ _ h => h
    have hlabel := (zeroCodingCtx_eq _ b.subBandType).trans
      (congrArg (zeroCodingCtx · b.subBandType) hneighbors)
    refine hch.sendBit_bind blind_at hlabel ?_
    refine .change (K := fun s t => s = a.markCodedInCurrentPass (b.cell x y) ∧
      Mirrors b (b.job bitplanes maxCodingPasses strict) p D {idx | a.isCoded idx} a t.ctx)
      (fun s t h => ⟨h.1 ▸ rfl,h.2⟩) ?_
    refine hch.edit (K := fun s t => s = a.markCodedInCurrentPass (b.cell x y) ∧
      Mirrors b (b.job bitplanes maxCodingPasses strict) p D ({idx | a.isCoded idx} ∪ {b.cell x y}) a
        t.ctx) (fun s t h => ⟨h.1,h.2.pushMagnitudeBit hp hidx⟩) (fun _ => rfl) ?_
    refine hch.edit (K := At b (b.job bitplanes maxCodingPasses strict) p (D ∪ {(x,y)})
      ({idx | a.isCoded idx} ∪ {b.cell x y}) (a.markCodedInCurrentPass (b.cell x y)))
      (fun s t h => ⟨h.1,h.2.setZeroCoding hx hy ?_⟩) (fun _ => rfl) ?_
    · rw [h.2.neighborSig]
      exact hcoded.2
    · refine (learn_agree hch hb hx hy ((markCoded_isSignificant _ _ _).trans hcoded.1) _).post
        fun _ _ s t h => ?_
      obtain ⟨rfl,h⟩ := h
      have hdone : ∀ idx, idx ∈ ({idx | a.isCoded idx} ∪ {b.cell x y} : Set ℕ) ↔
          idx ∈ {idx | ((if b.bitAt p (b.cell x y) then
            (a.markCodedInCurrentPass (b.cell x y)).setSignificant b.paddedWidth (b.cell x y)
            else a.markCodedInCurrentPass (b.cell x y)).isCoded idx : Prop)} := by
        intro idx
        cases b.bitAt p (b.cell x y) <;> simp [or_comm]
      refine ⟨h.congr hdone,?_,fun x' hx' y' hy' hmem => ?_⟩
      · have hsilent : Silent b p {idx | a.isCoded idx} (a.markCodedInCurrentPass (b.cell x y)) :=
          hm.silent.congr (fun _ => Iff.rfl) fun _ => markCoded_isSignificant _ _ _
        exact (hsilent.learn hidx).congr hdone fun _ => rfl
      · have hmem := (hdone (b.cell x' y')).mpr hmem
        rcases hmem with hmem | hmem
        · exact .inl (hm.visited x' hx' y' hy' hmem)
        · obtain ⟨rfl,rfl⟩ := CodeBlock.block_cell_inj hx' hx hmem
          exact .inr rfl
  · obtain ⟨rfl,rfl⟩ := hst
    rw [← hcondition] at hskipped
    refine ⟨hm.mirrors.skip fun hflag => ?_,hm.silent,fun x' hx' y' hy' hmem =>
      .inl (hm.visited x' hx' y' hy' hmem)⟩
    have hne := hm.mirrors.known.inv.zeroCoded x hx y hy hflag
    by_contra hnot
    rw [Bool.not_eq_true] at hnot
    refine hskipped ?_
    rw [show b.cell x y = (b.job bitplanes maxCodingPasses strict).cell x y from rfl,hnot,
      Bool.not_false,Bool.true_and]
    exact bne_iff_ne.mpr hne

theorem propagationPass_agree :
    Agree ch (Propagating b (b.job bitplanes maxCodingPasses strict) p ∅)
      (b.propagationPass raw p)
      (ClassicDecoder.significancePropagationPass (b.job bitplanes maxCodingPasses strict) false readBit
        raw)
      fun _ _ => Propagating b (b.job bitplanes maxCodingPasses strict) p (b.visited b.turns) := by
  rw [← b.visited_zero]
  refine forColumns_agree
    (R := fun n => Propagating b (b.job bitplanes maxCodingPasses strict) p (b.visited n))
    fun stripe x hx => ?_
  have hheight := b.stripeHeight_le stripe
  rw [← b.visited_column hx _ le_rfl hheight]
  refine Agree.forRange (J := fun j => Propagating b (b.job bitplanes maxCodingPasses strict) p
    (b.visited (4 * (stripe * b.width + x) + j))) fun j hj => ?_
  have hy := b.row_lt hj
  have hvisited := b.visited_turn hx hy
  rw [b.turn_column (by omega)] at hvisited
  rw [← Nat.add_assoc,← hvisited.2]
  exact propagateCoefficient_agree hch hb hp hx hy hvisited.1

end

/-! ## Magnitude refinement -/

/-- Beyond a bound nothing is done. -/
theorem forM_guard {σ δ : Type} {g : ℕ → Rec σ δ Unit} (n : ℕ) (l : List ℕ) :
    (l.forM fun i => if i ≥ n then pure () else g i) = (l.filter (· < n)).forM g := by
  induction l with
  | nil => rfl
  | cons i l ih =>
      rw [RecordedRuns.forM_cons,ih]
      by_cases hi : i < n
      · rw [List.filter_cons_of_pos (by simpa using hi),RecordedRuns.forM_cons,
          if_neg (Nat.not_le.mpr hi)]
      · rw [List.filter_cons_of_neg (by simpa using hi),if_pos (Nat.not_lt.mp hi),pure_bind]

theorem filter_lt_range {n : ℕ} (h : n ≤ 4) : (List.range 8).filter (· < n) = List.range n := by
  have hall : ∀ n ≤ 4, (List.range 8).filter (· < n) = List.range n := by decide
  exact hall n h

/-- During a refinement the significant coefficients that it has passed are done as well. -/
structure Refining (b : CodeBlock) (job : Job) (p n : ℕ) (a : Arrays) (m : Moment) : Prop where
  mirrors : Mirrors b job p Set.univ {idx | a.isCoded idx ∨ a.isSignificant idx ∧ idx ∈ b.cells n} a
    m.ctx
  silent : Silent b p {idx | a.isCoded idx ∨ a.isSignificant idx ∧ idx ∈ b.cells n} a

section
variable {δ : Type} {ch : Channel Decision Moment δ (Buffer Context)} {raw : Bool}
  {readBit : ℕ → Rec Moment δ Bool} {b : CodeBlock} {bitplanes maxCodingPasses : ℕ} {strict : Bool}
  {p n : ℕ} {x y : ℕ} {a : Arrays}

/-- A coefficient that is not refined stays as it is. -/
theorem refining_skip (hx : x < b.width) (hy : y < b.height)
    (h : (a.isSignificant (b.cell x y) && !a.isCoded (b.cell x y)) = false) (idx : ℕ) :
    (a.isCoded idx ∨ a.isSignificant idx ∧ idx ∈ b.cells (b.turn x y)) ↔
      (a.isCoded idx ∨ a.isSignificant idx ∧ idx ∈ b.cells (b.turn x y + 1)) := by
  rw [← (CodeBlock.cells_turn hx hy).2,Set.mem_union,Set.mem_singleton_iff]
  rw [Bool.and_eq_false_iff,Bool.not_eq_false'] at h
  by_cases heq : idx = b.cell x y
  · subst heq
    rcases h with h | h <;> simp [h]
  · simp [heq]

theorem refining_step (hx : x < b.width) (hy : y < b.height)
    (h : a.isSignificant (b.cell x y) = true) (idx : ℕ) :
    (idx ∈ {idx | a.isCoded idx ∨ a.isSignificant idx ∧ idx ∈ b.cells (b.turn x y)} ∪ {b.cell x y}) ↔
      (a.isCoded idx ∨ a.isSignificant idx ∧ idx ∈ b.cells (b.turn x y + 1)) := by
  rw [← (CodeBlock.cells_turn hx hy).2]
  simp only [Set.mem_union,Set.mem_singleton_iff,Set.mem_ofPred_eq]
  by_cases heq : idx = b.cell x y
  · subst heq
    simp [h]
  · simp [heq]

/-- The scan masks of a column show its rows. -/
theorem Mirrors.column {D : Set (ℕ × ℕ)} {done : Set ℕ} {c : BitPlaneDecodeContext}
    (h : Mirrors b (b.job bitplanes maxCodingPasses strict) p D done a c) {stripe j : ℕ}
    (hx : x < b.width) (hj : j < b.stripeHeight stripe) :
    (c.significantScanMasks (stripe * b.width + x)).testBit j =
        a.isSignificant (b.cell x (4 * stripe + j)) ∧
      (c.zeroCodingScanMasks (stripe * b.width + x)).testBit j =
        a.isCoded (b.cell x (4 * stripe + j)) := by
  have hlt := b.stripeHeight_le stripe
  have hdiv : (4 * stripe + j) / 4 = stripe := by omega
  have hmod : (4 * stripe + j) % 4 = j := by omega
  have hsig := h.known.inv.scanMasks x hx _ (b.row_lt hj)
  have hcoded := h.coded x hx _ (b.row_lt hj)
  unfold BitPlaneDecodeContext.zeroCodedNow at hcoded
  rw [hdiv,hmod] at hsig
  rw [scanUnit_cell hx,hdiv,hmod] at hcoded
  exact ⟨hsig.trans (h.significant _),hcoded⟩

theorem byte_testBit {j : ℕ} (h : j < 4) : (0xFF : ℕ).testBit j = true := by
  have hall : ∀ j < 4, (0xFF : ℕ).testBit j = true := by decide
  exact hall j h

/-- The bits of the column that are refined. -/
def RefinedRows (b : CodeBlock) (stripe x : ℕ) (keep : ℕ → Bool) (a : Arrays) : Prop :=
  ∀ j < b.stripeHeight stripe, keep j =
    (a.isSignificant (b.cell x (4 * stripe + j)) && !a.isCoded (b.cell x (4 * stripe + j)))

variable (hch : Carries ch raw readBit) (hp : p < 63)
include hch hp

/-- Step lemma: a coefficient in a refinement. -/
theorem refineCoefficient_agree {stripe j : ℕ} {keep : ℕ → Bool} (hx : x < b.width)
    (hj : j < b.stripeHeight stripe) (hkeep : keep j = true) :
    Agree ch (fun a m => Refining b (b.job bitplanes maxCodingPasses strict) p
        (b.turn x (4 * stripe + j)) a m ∧ RefinedRows b stripe x keep a)
      (b.refineCoefficient raw p x (4 * stripe + j))
      (ClassicDecoder.refineCoefficient (b.job bitplanes maxCodingPasses strict) false readBit x
        (4 * stripe + j))
      fun _ _ a m => Refining b (b.job bitplanes maxCodingPasses strict) p
        (b.turn x (4 * stripe + j) + 1) a m ∧ RefinedRows b stripe x keep a := by
  have hy := b.row_lt hj
  refine .look fun a m hm => ?_
  obtain ⟨hm,hrows⟩ := hm
  have hcoded := (hrows j hj).symm.trans hkeep
  rw [if_pos hcoded]
  rw [Bool.and_eq_true,Bool.not_eq_true'] at hcoded
  have hidx : b.cell x (4 * stripe + j) ∉ {idx | a.isCoded idx ∨ a.isSignificant idx ∧
      idx ∈ b.cells (b.turn x (4 * stripe + j))} := by
    rintro (hmem | hmem)
    · rw [hcoded.2] at hmem
      exact Bool.false_ne_true hmem
    · exact (CodeBlock.cells_turn hx hy).1 hmem.2
  refine Agree.mono (I := At b (b.job bitplanes maxCodingPasses strict) p Set.univ _ a)
    ?_ (fun s t h => ⟨h.1,h.2 ▸ hm.mirrors⟩) fun _ _ _ _ h => h
  refine hch.sendBit_bind blind_at (hm.mirrors.refinementLabel _ _) ?_
  refine hch.edit (K := At b (b.job bitplanes maxCodingPasses strict) p Set.univ (_ ∪ {_}) a)
    (fun s t h => ⟨h.1,h.2.pushMagnitudeBit hp hidx⟩) (fun _ => rfl) ?_
  refine hch.change_edit (fun s t h => ?_) fun _ => rfl
  obtain ⟨rfl,h⟩ := h
  have hdone : ∀ idx, idx ∈ {idx | s.isCoded idx ∨ s.isSignificant idx ∧
      idx ∈ b.cells (b.turn x (4 * stripe + j))} ∪ {b.cell x (4 * stripe + j)} ↔
      idx ∈ {idx | (s.setMagnitudeRefined (b.cell x (4 * stripe + j))).isCoded idx ∨
        (s.setMagnitudeRefined (b.cell x (4 * stripe + j))).isSignificant idx ∧
          idx ∈ b.cells (b.turn x (4 * stripe + j) + 1)} := by
    intro idx
    rw [refining_step hx hy hcoded.1]
    simp
  refine ⟨⟨(h.setMagnitudeRefined _).congr hdone,?_⟩,fun i hi => ?_⟩
  · refine Silent.congr (a := s) (fun idx hidx' => ?_) hdone
      fun _ => setMagnitudeRefined_isSignificant _ _ _
    have hne : idx ≠ b.cell x (4 * stripe + j) := by
      rintro rfl
      rw [hcoded.1] at hidx'
      cases hidx'
    have hsilent := hm.silent idx hidx'
    exact ⟨fun hmem => hsilent.1 (hmem.resolve_right hne),fun hmem => hsilent.2 fun h => hmem (.inl h)⟩
  · rw [setMagnitudeRefined_isSignificant,setMagnitudeRefined_isCoded]
    exact hrows i hi

theorem refinementColumn_agree {stripe : ℕ} (hx : x < b.width) :
    Agree ch (Refining b (b.job bitplanes maxCodingPasses strict) p (4 * (stripe * b.width + x)))
      ((List.range (b.stripeHeight stripe)).forM fun j =>
        b.refineCoefficient raw p x (4 * stripe + j))
      (do
        let m ← current
        let scanUnit := stripe * (b.job bitplanes maxCodingPasses strict).width + x
        let mask := m.ctx.significantScanMasks scanUnit &&&
          (m.ctx.zeroCodingScanMasks scanUnit ^^^ 0xFF)
        (ClassicDecoder.maskBits mask).forM fun bitY =>
          if bitY ≥ ClassicDecoder.stripeHeight (b.job bitplanes maxCodingPasses strict) stripe then
            pure ()
          else ClassicDecoder.refineCoefficient (b.job bitplanes maxCodingPasses strict) false readBit x
            (4 * stripe + bitY))
      fun _ _ => Refining b (b.job bitplanes maxCodingPasses strict) p
        (4 * (stripe * b.width + x) + 4) := by
  have hheight := b.stripeHeight_le stripe
  refine .current fun a m hm => ?_
  have hmask : RefinedRows b stripe x (m.ctx.significantScanMasks (stripe * b.width + x) &&&
      (m.ctx.zeroCodingScanMasks (stripe * b.width + x) ^^^ 0xFF)).testBit a := by
    intro j hj
    obtain ⟨hsig,hcoded⟩ := hm.mirrors.column hx hj
    rw [Nat.testBit_and,Nat.testBit_xor,hsig,hcoded,byte_testBit (by omega),Bool.xor_true]
  refine Agree.mono (I := fun a m => Refining b (b.job bitplanes maxCodingPasses strict) p
      (4 * (stripe * b.width + x) + 0) a m ∧ RefinedRows b stripe x _ a) ?_
    (fun s t h => by rw [h.1,h.2]; exact ⟨hm,hmask⟩) fun _ _ _ _ h => h
  have hrows : ClassicDecoder.stripeHeight (b.job bitplanes maxCodingPasses strict) stripe =
      b.stripeHeight stripe := rfl
  dsimp only
  rw [forM_guard,hrows]
  unfold ClassicDecoder.maskBits
  rw [List.filter_comm,filter_lt_range hheight]
  refine (Agree.forRange_filter (J := fun j a m => Refining b (b.job bitplanes maxCodingPasses strict)
    p (4 * (stripe * b.width + x) + j) a m ∧ RefinedRows b stripe x _ a) (fun j hj hkeep => ?_)
    fun j hj hkeep => ?_).post fun _ _ s t h => ?_
  · rw [← Nat.add_assoc,← b.turn_column (by omega)]
    exact refineCoefficient_agree hch hp hx hj hkeep
  · refine .looks fun a m hm => ?_
    have hcoded := (hm.2 j hj).symm.trans hkeep
    rw [if_neg (by rw [hcoded]; exact Bool.false_ne_true)]
    refine .pure fun s t h => ?_
    obtain ⟨rfl,rfl⟩ := h
    have hskip := refining_skip hx (b.row_lt hj) hcoded
    rw [b.turn_column (by omega)] at hskip
    exact ⟨⟨hm.1.mirrors.congr hskip,hm.1.silent.congr hskip fun _ => rfl⟩,hm.2⟩
  · have hcells := b.cells_column stripe hx
    exact ⟨hcells ▸ h.1.mirrors,hcells ▸ h.1.silent⟩

theorem refinementPass_agree :
    Agree ch (Refining b (b.job bitplanes maxCodingPasses strict) p 0) (b.refinementPass raw p)
      (ClassicDecoder.magnitudeRefinementPass (b.job bitplanes maxCodingPasses strict) false readBit)
      fun _ _ => Refining b (b.job bitplanes maxCodingPasses strict) p b.turns :=
  forColumns_agree (R := fun n => Refining b (b.job bitplanes maxCodingPasses strict) p n)
    fun _ _ hx => refinementColumn_agree hch hp hx

end

/-! ## Clean-up -/

/-- During a clean-up everything is done that was coded before or that it has passed. -/
structure Cleaning (b : CodeBlock) (job : Job) (p n : ℕ) (a : Arrays) (m : Moment) : Prop where
  mirrors : Mirrors b job p Set.univ {idx | a.isCoded idx ∨ a.isSignificant idx ∨ idx ∈ b.cells n} a
    m.ctx
  silent : Silent b p {idx | a.isCoded idx ∨ a.isSignificant idx ∨ idx ∈ b.cells n} a

/-- What a clean-up has still to look at in a column. -/
def CleanedRows (b : CodeBlock) (stripe x i : ℕ) (keep : ℕ → Bool) (a : Arrays) : Prop :=
  ∀ j < b.stripeHeight stripe, i ≤ j → keep j =
    !(a.isSignificant (b.cell x (4 * stripe + j)) || a.isCoded (b.cell x (4 * stripe + j)))

section
variable {b : CodeBlock} {bitplanes maxCodingPasses : ℕ} {strict : Bool} {p n : ℕ} {x y : ℕ}
  {a : Arrays} {done : Set ℕ} {idx : ℕ}

theorem upTo_zero_bit (h : b.bitAt p idx = false) : b.upTo (p + 1) idx = b.upTo p idx := by
  have hsplit := bit_split (b.magnitudes idx) p
  rw [← b.bitAt_eq,h,Bool.toNat_false,Nat.add_zero] at hsplit
  unfold CodeBlock.upTo
  rw [hsplit,Nat.pow_succ]
  ring

/-- A bit of zero says as much as none. -/
theorem Mirrors.zeroBit {job : Job} {D : Set (ℕ × ℕ)} {c : BitPlaneDecodeContext}
    (h : Mirrors b job p D done a c) (hbit : b.bitAt p idx = false) :
    Mirrors b job p D (done ∪ {idx}) a c := by
  refine ⟨h.known,h.significant,h.refined,h.coded,h.neighbors,h.position,fun j hj => ?_,fun j hj =>
    h.todo_value j fun hmem => hj (.inl hmem),h.kept⟩
  by_cases hmem : j ∈ done
  · exact h.done_value j hmem
  · rw [h.todo_value j hmem,hj.resolve_left hmem,upTo_zero_bit hbit]

theorem Silent.zeroBit (h : Silent b p done a) (hbit : b.bitAt p idx = false) :
    Silent b p (done ∪ {idx}) a := by
  intro j hj
  refine ⟨fun hmem => ?_,fun hmem => (h j hj).2 fun hmem' => hmem (.inl hmem')⟩
  by_cases hdone : j ∈ done
  · exact (h j hj).1 hdone
  · have hidx : j = idx := hmem.resolve_left hdone
    subst hidx
    rw [← upTo_zero_bit hbit]
    exact (h j hj).2 hdone

theorem cleaning_skip (hx : x < b.width) (hy : y < b.height)
    (h : (!(a.isSignificant (b.cell x y) || a.isCoded (b.cell x y))) = false) (idx : ℕ) :
    (a.isCoded idx ∨ a.isSignificant idx ∨ idx ∈ b.cells (b.turn x y)) ↔
      (a.isCoded idx ∨ a.isSignificant idx ∨ idx ∈ b.cells (b.turn x y + 1)) := by
  rw [← (CodeBlock.cells_turn hx hy).2,Set.mem_union,Set.mem_singleton_iff]
  rw [Bool.not_eq_false',Bool.or_eq_true] at h
  by_cases heq : idx = b.cell x y
  · subst heq
    rcases h with h | h <;> simp [h]
  · simp [heq]

/-- Behind its turn a coefficient is done, whether it became significant or not. -/
theorem cleaning_step (hx : x < b.width) (hy : y < b.height) (bit : Bool) (idx : ℕ) :
    (idx ∈ {idx | a.isCoded idx ∨ a.isSignificant idx ∨ idx ∈ b.cells (b.turn x y)} ∪
        {b.cell x y}) ↔
      idx ∈ {idx | (if bit then a.setSignificant b.paddedWidth (b.cell x y) else a).isCoded idx ∨
        (if bit then a.setSignificant b.paddedWidth (b.cell x y) else a).isSignificant idx ∨
        idx ∈ b.cells (b.turn x y + 1)} := by
  rw [← (CodeBlock.cells_turn hx hy).2]
  by_cases heq : idx = b.cell x y
  · subst heq
    simp
  · cases bit <;> simp [heq]

/-- A coefficient without a bit in this plane may be passed. -/
theorem Cleaning.zeroBit {m : Moment} (h : Cleaning b (b.job bitplanes maxCodingPasses strict) p (b.turn x y) a m)
    (hx : x < b.width) (hy : y < b.height) (hbit : b.bitAt p (b.cell x y) = false) :
    Cleaning b (b.job bitplanes maxCodingPasses strict) p (b.turn x y + 1) a m :=
  ⟨(h.mirrors.zeroBit hbit).congr (cleaning_step hx hy false),
    (h.silent.zeroBit hbit).congr (cleaning_step hx hy false) fun _ => rfl⟩

/-- Rows without a bit in this plane, up to one of them. -/
theorem Cleaning.zeroBits {stripe : ℕ} {m : Moment}
    (h : Cleaning b (b.job bitplanes maxCodingPasses strict) p (4 * (stripe * b.width + x)) a m)
    (hx : x < b.width) {pos : ℕ} (hpos : pos ≤ b.stripeHeight stripe)
    (hbits : ∀ j < pos, b.bitAt p (b.cell x (4 * stripe + j)) = false) :
    Cleaning b (b.job bitplanes maxCodingPasses strict) p (4 * (stripe * b.width + x) + pos) a m := by
  have hheight := b.stripeHeight_le stripe
  induction pos with
  | zero => exact h
  | succ pos ih =>
      have hbefore := ih (by omega) fun j hj => hbits j (by omega)
      rw [← b.turn_column (by omega)] at hbefore
      have hafter := hbefore.zeroBit hx (b.row_lt (by omega)) (hbits pos (by omega))
      rwa [b.turn_column (by omega)] at hafter

theorem cleanedRows_learn {stripe j : ℕ} {keep : ℕ → Bool} (hx : x < b.width)
    (h : CleanedRows b stripe x j keep a) (bit : Bool) :
    CleanedRows b stripe x (j + 1) keep
      (if bit then a.setSignificant b.paddedWidth (b.cell x (4 * stripe + j)) else a) := by
  intro i hi hle
  have hne : b.cell x (4 * stripe + i) ≠ b.cell x (4 * stripe + j) := by
    intro heq
    have := (CodeBlock.block_cell_inj hx hx heq).2
    omega
  rw [h i hi (by omega)]
  cases bit <;> simp [hne]

end

section
variable {δ : Type} {ch : Channel Decision Moment δ (Buffer Context)}
  {readBit : ℕ → Rec Moment δ Bool} {b : CodeBlock} {bitplanes maxCodingPasses : ℕ} {strict : Bool}
  {p n : ℕ} {x y : ℕ} {a : Arrays}

variable (hch : Carries ch false readBit) (hb : b.Small) (hp : p < 63)
include hch hb hp

/-- Step lemma: a coefficient in a clean-up. -/
theorem cleanupCoefficient_agree {stripe j : ℕ} {keep : ℕ → Bool} (hx : x < b.width)
    (hj : j < b.stripeHeight stripe) (hkeep : keep j = true) :
    Agree ch (fun a m => Cleaning b (b.job bitplanes maxCodingPasses strict) p
        (b.turn x (4 * stripe + j)) a m ∧ CleanedRows b stripe x j keep a)
      (b.cleanupCoefficient p x (4 * stripe + j))
      (ClassicDecoder.cleanupCoefficient (b.job bitplanes maxCodingPasses strict) false readBit false x
        (4 * stripe + j))
      fun _ _ a m => Cleaning b (b.job bitplanes maxCodingPasses strict) p
        (b.turn x (4 * stripe + j) + 1) a m ∧ CleanedRows b stripe x (j + 1) keep a := by
  have hy := b.row_lt hj
  refine .look fun a m hm => ?_
  obtain ⟨hm,hrows⟩ := hm
  have hcoded := (hrows j hj le_rfl).symm.trans hkeep
  rw [if_pos hcoded]
  rw [Bool.not_eq_true',Bool.or_eq_false_iff] at hcoded
  have hidx : b.cell x (4 * stripe + j) ∉ {idx | a.isCoded idx ∨ a.isSignificant idx ∨
      idx ∈ b.cells (b.turn x (4 * stripe + j))} := by
    rw [Set.mem_ofPred_eq,hcoded.1,hcoded.2]
    simpa using (CodeBlock.cells_turn hx hy).1
  refine Agree.mono (I := At b (b.job bitplanes maxCodingPasses strict) p Set.univ _ a)
    ?_ (fun s t h => ⟨h.1,h.2 ▸ hm.mirrors⟩) fun _ _ _ _ h => h
  have hlabel := (zeroCodingCtx_eq _ b.subBandType).trans (congrArg (zeroCodingCtx · b.subBandType)
    (hm.mirrors.neighborSig (b.cell x (4 * stripe + j)) (4 * stripe + j)))
  refine hch.sendBit_bind blind_at hlabel ?_
  refine hch.edit (K := At b (b.job bitplanes maxCodingPasses strict) p Set.univ (_ ∪ {_}) a)
    (fun s t h => ⟨h.1,h.2.pushMagnitudeBit hp hidx⟩) (fun _ => rfl) ?_
  refine (learn_agree hch hb hx hy hcoded.1 _).post fun _ _ s t h => ?_
  obtain ⟨rfl,h⟩ := h
  have hdone := cleaning_step (a := a) hx hy (b.bitAt p (b.cell x (4 * stripe + j)))
  exact ⟨⟨h.congr hdone,(hm.silent.learn hidx).congr hdone fun _ => rfl⟩,cleanedRows_learn hx hrows _⟩

/-- Four rows that start with a run. -/
theorem cleanupRun_agree {stripe : ℕ} (hx : x < b.width) (hheight : b.stripeHeight stripe = 4) :
    Agree ch (fun a m => Cleaning b (b.job bitplanes maxCodingPasses strict) p
        (4 * (stripe * b.width + x)) a m ∧ CleanedRows b stripe x 0 (fun _ => true) a)
      (b.cleanupRun p x (4 * stripe))
      (ClassicDecoder.cleanupRunLength (b.job bitplanes maxCodingPasses strict) false readBit false
        (ClassicDecoder.cleanupCoefficient (b.job bitplanes maxCodingPasses strict) false readBit false
          x) x (4 * stripe))
      fun _ _ => Cleaning b (b.job bitplanes maxCodingPasses strict) p
        (4 * (stripe * b.width + x) + 4) := by
  have hblind : Blind fun a m => Cleaning b (b.job bitplanes maxCodingPasses strict) p
        (4 * (stripe * b.width + x)) a m ∧ CleanedRows b stripe x 0 (fun _ => true) a :=
    fun _ _ contexts h => ⟨⟨h.1.mirrors.contexts contexts,h.1.silent⟩,h.2⟩
  unfold CodeBlock.cleanupRun ClassicDecoder.cleanupRunLength
  cases hfind : (List.range 4).find? fun j => b.bitAt p (b.cell x (4 * stripe + j)) with
  | none =>
      rw [List.find?_range_eq_none] at hfind
      refine (hch.sendBit hblind 17 false).bind_right fun _ bit => .given ?_
      rintro rfl
      refine .pure fun s t h => h.1.zeroBits hx hheight.ge fun j hj => ?_
      rw [← Bool.not_eq_true']
      exact hfind j hj
  | some pos =>
      obtain ⟨hbit,hmem,hbefore⟩ := List.find?_range_eq_some.mp hfind
      rw [List.mem_range] at hmem
      have hj : pos < b.stripeHeight stripe := by omega
      have hy := b.row_lt hj
      have hvalue : ∀ pos < 4, 2 * (pos >>> 1 &&& 1 != 0).toNat + (pos &&& 1 != 0).toNat = pos := by
        decide
      dsimp only
      refine hch.sendBit_bind hblind rfl ?_
      rw [if_pos rfl]
      refine hch.sendBit_bind hblind rfl (hch.sendBit_bind hblind rfl ?_)
      rw [hvalue pos hmem]
      refine .each fun a m hm => ?_
      have hstart := hm.1.zeroBits hx hj.le fun j hj => by
        rw [← Bool.not_eq_true']
        exact hbefore j hj
      rw [← b.turn_column hmem] at hstart
      have hcoded := hm.2 pos hj (Nat.zero_le _)
      rw [eq_comm,Bool.not_eq_true',Bool.or_eq_false_iff] at hcoded
      have hidx : b.cell x (4 * stripe + pos) ∉ {idx | a.isCoded idx ∨ a.isSignificant idx ∨
          idx ∈ b.cells (b.turn x (4 * stripe + pos))} := by
        rw [Set.mem_ofPred_eq,hcoded.1,hcoded.2]
        simpa using (CodeBlock.cells_turn hx hy).1
      refine Agree.mono (I := At b (b.job bitplanes maxCodingPasses strict) p Set.univ _ a)
        ?_ (fun s t h => ⟨h.1,h.2 ▸ hstart.mirrors⟩) fun _ _ _ _ h => h
      have hpushed : b.bitAt p (b.cell x (4 * stripe + pos)) = true := hbit
      refine hch.edit (K := At b (b.job bitplanes maxCodingPasses strict) p Set.univ (_ ∪ {_}) a)
        (fun s t h => ⟨h.1,hpushed ▸ h.2.pushMagnitudeBit hp hidx⟩) (fun _ => rfl) ?_
      refine (becomeSignificant_agree hch hb hx hy hcoded.1).bind fun _ _ => ?_
      have hdone := cleaning_step (a := a) hx hy true
      have hsilent := hstart.silent.learn hidx
      rw [hpushed,if_pos rfl] at hsilent
      refine Agree.mono (Agree.forRange' (J := fun i a m =>
        Cleaning b (b.job bitplanes maxCodingPasses strict) p (4 * (stripe * b.width + x) + i) a m ∧
          CleanedRows b stripe x i (fun _ => true) a) fun i hi hi' => ?_)
        (fun s t h => ?_) fun _ _ s t h => ?_
      · have hrow : i < b.stripeHeight stripe := by omega
        rw [← Nat.add_assoc,← b.turn_column (by omega)]
        exact cleanupCoefficient_agree hch hb hp hx hrow rfl
      · obtain ⟨rfl,h⟩ := h
        have hrows := cleanedRows_learn hx (fun j hj hle => hm.2 j hj (Nat.zero_le _)) true (j := pos)
        rw [b.turn_column hmem] at hdone hsilent h
        exact ⟨⟨h.congr hdone,hsilent.congr hdone fun _ => rfl⟩,hrows⟩
      · have hend : pos + 1 + (3 - pos) = 4 := by omega
        rw [hend] at h
        exact h.1

omit hch hb hp in
/-- Both sides tell a run by the same. -/
theorem Cleaning.runLength {stripe : ℕ} {m : Moment}
    (h : Cleaning b (b.job bitplanes maxCodingPasses strict) p n a m) (hx : x < b.width)
    (hheight : b.stripeHeight stripe = 4) :
    ClassicDecoder.cleanupRunLengthCandidate (b.job bitplanes maxCodingPasses strict) false m.ctx x
      (4 * stripe) = b.runOfZeros a x (4 * stripe) := by
  have hcell : ∀ j ∈ List.range 4,
      (!(m.ctx.isSignificant (b.cell x (4 * stripe + j)) ||
        m.ctx.hasZeroCoding (b.cell x (4 * stripe + j)) ||
        m.ctx.neighborhoodSignificanceStatesIndex (b.job bitplanes maxCodingPasses strict)
          (b.cell x (4 * stripe + j)) (4 * stripe + j) != 0)) =
      !(a.isSignificant (b.cell x (4 * stripe + j)) || a.isCoded (b.cell x (4 * stripe + j)) ||
        b.effectiveNeighborSig (a.neighbors (b.cell x (4 * stripe + j))) (4 * stripe + j) != 0) := by
    intro j hj
    have hy := b.row_lt (hheight.symm ▸ List.mem_range.mp hj)
    have hcoded := h.mirrors.coded x hx _ hy
    have hmarked := h.mirrors.known.inv.marked x hx _ hy
    have hsettled := h.mirrors.known.settled x hx _ hy (Set.mem_univ _)
    rw [h.mirrors.neighborSig,h.mirrors.significant]
    rw [h.mirrors.significant] at hsettled
    have hsame : a.isSignificant (b.cell x (4 * stripe + j)) = false →
        m.ctx.hasZeroCoding (b.cell x (4 * stripe + j)) = a.isCoded (b.cell x (4 * stripe + j)) := by
      intro hsig
      rw [Bool.eq_iff_iff]
      refine ⟨fun hflag => ?_,fun hnow => hmarked (hcoded.trans hnow)⟩
      rcases hsettled hflag with hs | hs
      · exact absurd (hs.symm.trans hsig) (by decide)
      · exact hcoded.symm.trans hs
    cases hsig : a.isSignificant (b.cell x (4 * stripe + j)) with
    | true => simp
    | false => rw [hsame hsig]
  unfold ClassicDecoder.cleanupRunLengthCandidate CodeBlock.runOfZeros
  rw [Bool.eq_iff_iff,List.all_eq_true,List.all_eq_true]
  exact forall₂_congr fun j hj => iff_of_eq (congrArg (· = true) (hcell j hj))

theorem cleanupColumn_agree {stripe : ℕ} (hx : x < b.width) :
    Agree ch (Cleaning b (b.job bitplanes maxCodingPasses strict) p (4 * (stripe * b.width + x)))
      (do
        let a ← look
        if b.stripeHeight stripe = 4 ∧ b.runOfZeros a x (4 * stripe) then
          b.cleanupRun p x (4 * stripe)
        else
          (List.range (b.stripeHeight stripe)).forM fun j => b.cleanupCoefficient p x (4 * stripe + j))
      (do
        let m ← current
        let candidateMask := ClassicDecoder.cleanupCandidateScanMask m.ctx
          (stripe * (b.job bitplanes maxCodingPasses strict).width + x)
          (ClassicDecoder.stripeHeight (b.job bitplanes maxCodingPasses strict) stripe)
        if candidateMask = ClassicDecoder.scanUnitValidMask
              (ClassicDecoder.stripeHeight (b.job bitplanes maxCodingPasses strict) stripe) ∧
            ClassicDecoder.stripeHeight (b.job bitplanes maxCodingPasses strict) stripe = 4 ∧
            ClassicDecoder.cleanupRunLengthCandidate (b.job bitplanes maxCodingPasses strict) false
              m.ctx x (4 * stripe) then
          ClassicDecoder.cleanupRunLength (b.job bitplanes maxCodingPasses strict) false readBit false
            (ClassicDecoder.cleanupCoefficient (b.job bitplanes maxCodingPasses strict) false readBit
              false x) x (4 * stripe)
        else
          (ClassicDecoder.maskBits candidateMask).forM fun bitY =>
            ClassicDecoder.cleanupCoefficient (b.job bitplanes maxCodingPasses strict) false readBit
              false x (4 * stripe + bitY))
      fun _ _ => Cleaning b (b.job bitplanes maxCodingPasses strict) p
        (4 * (stripe * b.width + x) + 4) := by
  have hheight := b.stripeHeight_le stripe
  have hrows : ClassicDecoder.stripeHeight (b.job bitplanes maxCodingPasses strict) stripe =
      b.stripeHeight stripe := rfl
  refine .look fun a m hm => ?_
  dsimp only
  rw [hrows]
  have hbits : ∀ j, (ClassicDecoder.cleanupCandidateScanMask m.ctx
        (stripe * (b.job bitplanes maxCodingPasses strict).width + x) (b.stripeHeight stripe)).testBit j =
      (decide (j < b.stripeHeight stripe) &&
        !(a.isSignificant (b.cell x (4 * stripe + j)) || a.isCoded (b.cell x (4 * stripe + j)))) := by
    intro j
    unfold ClassicDecoder.cleanupCandidateScanMask ClassicDecoder.scanUnitValidMask
    rw [Nat.testBit_and,Nat.testBit_two_pow_sub_one]
    by_cases hj : j < b.stripeHeight stripe
    · obtain ⟨hsig,hcoded⟩ := hm.mirrors.column hx hj
      rw [Nat.testBit_xor,Nat.testBit_or,byte_testBit (by omega),Bool.xor_true]
      congr 2
      exact congrArg₂ (· || ·) hsig hcoded
    · rw [decide_eq_false hj,Bool.false_and,Bool.false_and]
  generalize ClassicDecoder.cleanupCandidateScanMask m.ctx _ _ = mask at hbits ⊢
  have hclear : b.runOfZeros a x (4 * stripe) → ∀ j < 4,
      (!(a.isSignificant (b.cell x (4 * stripe + j)) || a.isCoded (b.cell x (4 * stripe + j)))) =
        true := by
    intro hrun j hj
    have hzero := List.all_eq_true.mp hrun j (List.mem_range.mpr hj)
    rw [Bool.not_eq_true',Bool.or_eq_false_iff] at hzero
    rw [hzero.1]
    rfl
  refine .ite (fun _ _ _ => ⟨fun h => ⟨Nat.eq_of_testBit_eq fun j => ?_,h.1,?_⟩,fun h => ⟨h.2.1,?_⟩⟩)
    (fun h _ => ?_) fun _ _ => ?_
  · unfold ClassicDecoder.scanUnitValidMask
    rw [hbits,Nat.testBit_two_pow_sub_one,h.1]
    by_cases hj : j < 4
    · rw [hclear h.2 j hj,Bool.and_true]
    · simp [hj]
  · rw [hm.runLength hx h.1]
    exact h.2
  · rw [← hm.runLength hx h.2.1]
    exact h.2.2
  · refine (cleanupRun_agree hch hb hp hx h.1).mono (fun s t hst => ?_) fun _ _ _ _ h => h
    obtain ⟨rfl,rfl⟩ := hst
    exact ⟨hm,fun j hj _ => (hclear h.2 j (by omega)).symm⟩
  · have hfilter : ClassicDecoder.maskBits mask =
        (List.range (b.stripeHeight stripe)).filter mask.testBit := by
      unfold ClassicDecoder.maskBits
      rw [← filter_lt_range hheight,List.filter_filter]
      refine List.filter_congr fun j _ => ?_
      rw [hbits]
      cases decide (j < b.stripeHeight stripe) <;> simp
    rw [hfilter]
    refine Agree.mono (Agree.forRange_filter (J := fun j a m =>
      Cleaning b (b.job bitplanes maxCodingPasses strict) p (4 * (stripe * b.width + x) + j) a m ∧
        CleanedRows b stripe x j mask.testBit a) (fun j hj hkeep => ?_) fun j hj hkeep => ?_)
      (fun s t hst => ?_) fun _ _ s t hst => ?_
    · rw [← Nat.add_assoc,← b.turn_column (by omega)]
      exact cleanupCoefficient_agree hch hb hp hx hj hkeep
    · refine .looks fun a m hm => ?_
      have hcoded := (hm.2 j hj le_rfl).symm.trans hkeep
      rw [if_neg (by rw [hcoded]; exact Bool.false_ne_true)]
      refine .pure fun s t hst => ?_
      obtain ⟨rfl,rfl⟩ := hst
      have hskip := cleaning_skip hx (b.row_lt hj) hcoded
      rw [b.turn_column (by omega)] at hskip
      exact ⟨⟨hm.1.mirrors.congr hskip,hm.1.silent.congr hskip fun _ => rfl⟩,
        fun i hi hle => hm.2 i hi (by omega)⟩
    · obtain ⟨rfl,rfl⟩ := hst
      refine ⟨hm,fun j hj _ => ?_⟩
      rw [hbits,decide_eq_true hj,Bool.true_and]
    · have hcells := b.cells_column stripe hx
      exact ⟨hcells ▸ hst.1.mirrors,hcells ▸ hst.1.silent⟩

end

theorem cleanupPass_agree {ch : Channel Decision Moment MqDecoder.ArithmeticDecoder (Buffer Context)}
    {b : CodeBlock} {bitplanes maxCodingPasses : ℕ} {strict : Bool} {p : ℕ}
    (hch : Carries ch false ClassicDecoder.readBitArithmetic) (hb : b.Small) (hp : p < 63) :
    Agree ch (Cleaning b (b.job bitplanes maxCodingPasses strict) p 0) (b.cleanupPass p)
      (ClassicDecoder.cleanupPassArithmetic (b.job bitplanes maxCodingPasses strict) false)
      fun _ _ => Cleaning b (b.job bitplanes maxCodingPasses strict) p b.turns :=
  forColumns_agree (R := fun n => Cleaning b (b.job bitplanes maxCodingPasses strict) p n)
    fun _ _ hx => cleanupColumn_agree hch hb hp hx

end J2kNative.ClassicEncoder
