import J2kNative.PacketRuns

/-!
# Writer and reader before the first packet

The states of the writer are made from all packets of a place, and their trees foretell what the
packets bring. Beside them stands storage that was just laid out: the two agree on every place
before the first packet is written.
-/
namespace J2kNative.PacketParsing
open BitStuffing Fallible TagTrees ClassicSegments PacketAssembly CountedLoops
open PacketHeaders (PacketSubbandState PacketCodeBlockState)
open PacketPlan (PacketDescriptor)

/-! ## Storage at first -/

def freshStoredBlock (numCbsX numLayers i : ℕ) : StoredBlock :=
  ⟨i % numCbsX,i / numCbsX,false,freshBlock,List.replicate numLayers none⟩

/-- A precinct as it is laid out for a sub-band. -/
def freshPrecinct (numLayers : ℕ) (subband : SubbandView) : Precinct :=
  ⟨.new subband.numCbsX subband.numCbsY,.new subband.numCbsX subband.numCbsY,
    (List.range subband.codeBlocks.length).map (freshStoredBlock subband.numCbsX numLayers)⟩

/-! ## Seeds -/

/-- What the seeds of one state become with a packet. -/
def seedPacket (seed : Option (List SubbandSeed)) (c : ℕ × ResolutionView) :
    Except EncodeError (Option (List SubbandSeed)) := do
  let seed ← seedFor seed c.2
  .ok (some (List.zipWith (noteSubband c.1) seed c.2))

section
variable {packets : List ResolutionView} {descriptors : List PacketDescriptor}

/-- Every state sees its own packets only. -/
theorem seedDescriptors_state {seeds seeds' : SeedTable} (stateIndex : ℕ)
    (h : descriptors.foldlM (seedDescriptor packets) seeds = .ok seeds') :
    (comingTo packets stateIndex descriptors).foldlM seedPacket (seeds stateIndex) =
      .ok (seeds' stateIndex) := by
  induction descriptors generalizing seeds with
  | nil =>
      cases h
      rfl
  | cons d descriptors ih =>
      rw [List.foldlM_cons] at h
      obtain ⟨seeds₁,hstep,h⟩ := bind_eq_ok.mp h
      have hrest := ih h
      unfold seedDescriptor at hstep
      cases hpacket : packets[d.packetIndex]? with
      | none => simp [hpacket] at hstep
      | some packet =>
          rw [hpacket] at hstep
          obtain ⟨seed,hseed,hstep⟩ := bind_eq_ok.mp hstep
          cases hstep
          by_cases hsame : d.stateIndex = stateIndex
          · subst hsame
            rw [Buffer.set_self] at hrest
            rw [comingTo_self hpacket,List.foldlM_cons]
            unfold seedPacket
            rw [hseed]
            exact hrest
          · rw [Buffer.set_of_ne _ _ (Ne.symm hsame)] at hrest
            rwa [comingTo_other hsame]

/-- The layout of a seed is that of a sub-band. -/
def SeedLayout (seed : SubbandSeed) (subband : SubbandView) : Prop :=
  seed.numCbsX = subband.numCbsX ∧ seed.numCbsY = subband.numCbsY ∧
    seed.codeBlocks.length = subband.codeBlocks.length

theorem SeedLayout.note {seed : SubbandSeed} {subband subband' : SubbandView} (layer : ℕ)
    (h : SeedLayout seed subband) :
    SeedLayout (noteSubband layer seed subband) subband' ↔ SeedLayout seed subband' := by
  unfold SeedLayout noteSubband at *
  simp [h.2.2]

theorem validatePacketStateLayout_ok {seed : List SubbandSeed} {packet : ResolutionView} {u : Unit}
    (h : validatePacketStateLayout seed packet = .ok u) : List.Forall₂ SeedLayout seed packet := by
  have h := refuse_eq_ok.mp h
  rw [not_or,not_not,Bool.not_eq_true,List.any_eq_false] at h
  obtain ⟨hlength,hall⟩ := h
  apply List.forall₂_iff_zip.mpr
  refine ⟨hlength,fun {seed subband} hsubband => ?_⟩
  simpa [SeedLayout] using hall (seed,subband) hsubband

theorem SeedLayout.noteAll {seeds : List SubbandSeed} {packet packet' : ResolutionView} (layer : ℕ)
    (h : List.Forall₂ SeedLayout seeds packet) :
    List.Forall₂ SeedLayout (List.zipWith (noteSubband layer) seeds packet) packet' ↔
      List.Forall₂ SeedLayout seeds packet' := by
  induction h generalizing packet' with
  | nil => simp
  | cons hfirst _ ih =>
      cases packet' with
      | nil => simp
      | cons subband' packet' => simp [ih,hfirst.note layer]

/-- The seeds of a state behind all its packets. -/
def notePackets (seeds : List SubbandSeed) (coming : List (ℕ × ResolutionView)) : List SubbandSeed :=
  coming.foldl (fun seeds c => List.zipWith (noteSubband c.1) seeds c.2) seeds

theorem seedPackets_some {seeds : List SubbandSeed} {coming : List (ℕ × ResolutionView)}
    {seeds' : Option (List SubbandSeed)} (h : coming.foldlM seedPacket (some seeds) = .ok seeds') :
    seeds' = some (notePackets seeds coming) ∧ ∀ c ∈ coming, List.Forall₂ SeedLayout seeds c.2 := by
  induction coming generalizing seeds with
  | nil =>
      cases h
      exact ⟨rfl,nofun⟩
  | cons c coming ih =>
      rw [List.foldlM_cons] at h
      obtain ⟨seeds₁,hstep,h⟩ := bind_eq_ok.mp h
      obtain ⟨existing,hseed,hstep⟩ := bind_eq_ok.mp hstep
      obtain ⟨_,hvalid,hseed⟩ := bind_eq_ok.mp hseed
      cases hseed
      cases hstep
      have hlayout := validatePacketStateLayout_ok hvalid
      obtain ⟨hseeds,hall⟩ := ih h
      refine ⟨hseeds,List.forall_mem_cons.mpr ⟨hlayout,fun c' hc' => ?_⟩⟩
      exact (SeedLayout.noteAll c.1 hlayout).mp (hall c' hc')

/-- A seed of a valid sub-band, of blocks that nothing was written of. -/
structure FreshSeed (seed : SubbandSeed) : Prop where
  count : seed.codeBlocks.length = seed.numCbsX * seed.numCbsY
  blocks : ∀ b ∈ seed.codeBlocks, b = ⟨⟨false,3⟩,(2 ^ 32 - 1) / 2,0⟩

/-- No block of a packet was written before. -/
def Unwritten (packet : ResolutionView) : Prop :=
  ∀ subband ∈ packet, ∀ view ∈ subband.codeBlocks, view.previouslyIncluded = false ∧ view.lBlock = 3

instance (packet : ResolutionView) : Decidable (Unwritten packet) :=
  inferInstanceAs (Decidable (∀ subband ∈ packet, _))

theorem subbandSeed_ok {subband : SubbandView} {seed : SubbandSeed}
    (h : subbandSeed subband = .ok seed) : SeedLayout seed subband ∧
      seed.codeBlocks.length = seed.numCbsX * seed.numCbsY ∧
      seed.codeBlocks = subband.codeBlocks.map blockSeed := by
  obtain ⟨_,hvalid,h⟩ := bind_eq_ok.mp h
  cases h
  refine ⟨⟨rfl,rfl,List.length_map _⟩,?_,rfl⟩
  unfold validatePacketSubbandLayout at hvalid
  split_ifs at hvalid with hcount hempty hgrid hlayout
  · simp [hempty.1,hempty.2.2]
  · rw [List.length_map]
    tauto

theorem packetStateSeed_ok {packet : ResolutionView} {seeds : List SubbandSeed}
    (hviews : Unwritten packet) (h : packetStateSeed packet = .ok seeds) :
    List.Forall₂ SeedLayout seeds packet ∧ ∀ seed ∈ seeds, FreshSeed seed := by
  have hall := mapM_forall₂ h
  clear h
  induction hall with
  | nil => exact ⟨.nil,nofun⟩
  | @cons subband seed packet seeds hseed _ ih =>
      obtain ⟨hsubband,hviews⟩ := List.forall_mem_cons.mp hviews
      obtain ⟨hlayout,hcount,hblocks⟩ := subbandSeed_ok hseed
      obtain ⟨hlayouts,hfresh⟩ := ih hviews
      refine ⟨.cons hlayout hlayouts,List.forall_mem_cons.mpr ⟨⟨hcount,fun b hb => ?_⟩,hfresh⟩⟩
      rw [hblocks] at hb
      obtain ⟨view,hview,rfl⟩ := List.mem_map.mp hb
      obtain ⟨hincluded,hlBlock⟩ := hsubband view hview
      simp [blockSeed,hincluded,hlBlock]

/-- The seeds of a state that has packets. -/
theorem seedPackets_none {coming : List (ℕ × ResolutionView)} {seeds' : Option (List SubbandSeed)}
    (hne : coming ≠ []) (hviews : ∀ c ∈ coming, Unwritten c.2)
    (h : coming.foldlM seedPacket none = .ok seeds') :
    ∃ seeds, seeds' = some (notePackets seeds coming) ∧ (∀ seed ∈ seeds, FreshSeed seed) ∧
      ∀ c ∈ coming, List.Forall₂ SeedLayout seeds c.2 := by
  obtain ⟨c,coming,rfl⟩ := List.exists_cons_of_ne_nil hne
  rw [List.foldlM_cons] at h
  obtain ⟨seeds₁,hstep,h⟩ := bind_eq_ok.mp h
  obtain ⟨seeds,hseed,hstep⟩ := bind_eq_ok.mp hstep
  cases hstep
  obtain ⟨hlayout,hfresh⟩ := packetStateSeed_ok (hviews c List.mem_cons_self) hseed
  obtain ⟨hseeds,hall⟩ := seedPackets_some h
  refine ⟨seeds,hseeds,hfresh,List.forall_mem_cons.mpr ⟨hlayout,fun c' hc' => ?_⟩⟩
  exact (SeedLayout.noteAll c.1 hlayout).mp (hall c' hc')

/-- The seeds of the first sub-band and those of the others. -/
theorem notePackets_cons {seed : SubbandSeed} {seeds : List SubbandSeed}
    {coming : List (ℕ × ResolutionView)} (hne : ∀ c ∈ coming, c.2 ≠ []) :
    notePackets (seed :: seeds) coming =
      (firstSubbands coming).foldl (fun seed c => noteSubband c.1 seed c.2) seed ::
        notePackets seeds (laterSubbands coming) := by
  unfold notePackets
  induction coming generalizing seed seeds with
  | nil => rfl
  | cons c coming ih =>
      obtain ⟨hc,hne⟩ := List.forall_mem_cons.mp hne
      obtain ⟨subband,packet,heq⟩ := List.exists_cons_of_ne_nil hc
      rw [List.foldl_cons,heq,List.zipWith_cons_cons,ih hne]
      simp [firstSubbands,laterSubbands,heq]

/-! ## Blocks of a seed -/

/-- The seed of a block behind its contributions. -/
def noteContributions (b : BlockSeed) (contributions : List (ℕ × CodeBlockView)) : BlockSeed :=
  contributions.foldl (fun b c => noteInclusion c.1 b c.2) b

theorem noteInclusion_state (layer : ℕ) (b : BlockSeed) (view : CodeBlockView) :
    (noteInclusion layer b view).state = b.state := by
  unfold noteInclusion
  split_ifs <;> rfl

theorem noteContributions_state (b : BlockSeed) (contributions : List (ℕ × CodeBlockView)) :
    (noteContributions b contributions).state = b.state := by
  unfold noteContributions
  induction contributions generalizing b with
  | nil => rfl
  | cons c contributions ih => rw [List.foldl_cons,ih,noteInclusion_state]

/-- Later layers change nothing any more. -/
theorem noteContributions_later {b : BlockSeed} {contributions : List (ℕ × CodeBlockView)}
    (h : ∀ c ∈ contributions, b.firstInclusionLayer ≤ c.1) :
    noteContributions b contributions = b := by
  unfold noteContributions
  induction contributions with
  | nil => rfl
  | cons c contributions ih =>
      obtain ⟨hc,hrest⟩ := List.forall_mem_cons.mp h
      have hsame : noteInclusion c.1 b c.2 = b := by
        unfold noteInclusion
        rw [if_neg (not_lt.mpr hc),ite_self]
      rw [List.foldl_cons,hsame,ih hrest]

theorem noteContributions_foretells {b : BlockSeed} {contributions : List (ℕ × CodeBlockView)}
    (hfirst : b.firstInclusionLayer = (2 ^ 32 - 1) / 2)
    (hlayers : contributions.Pairwise fun c c' => c.1 < c'.1)
    (hsmall : ∀ c ∈ contributions, c.1 < (2 ^ 32 - 1) / 2) :
    Foretells (noteContributions b contributions).firstInclusionLayer
      (noteContributions b contributions).zeroBitplaneValue contributions := by
  induction contributions with
  | nil => exact hfirst
  | cons c contributions ih =>
      obtain ⟨hlater,hlayers⟩ := List.pairwise_cons.mp hlayers
      obtain ⟨hc,hsmall⟩ := List.forall_mem_cons.mp hsmall
      by_cases hpasses : c.2.numCodingPasses = 0
      · have hsame : noteContributions b (c :: contributions) = noteContributions b contributions := by
          unfold noteContributions noteInclusion
          rw [List.foldl_cons,if_pos hpasses]
        rw [hsame]
        exact (Foretells.idle hpasses).mpr (ih hlayers hsmall)
      · have hstep : noteContributions b (c :: contributions) =
            ⟨b.state,c.1,c.2.numZeroBitplanes⟩ := by
          have hnote : noteInclusion c.1 b c.2 = ⟨b.state,c.1,c.2.numZeroBitplanes⟩ := by
            unfold noteInclusion
            rw [if_neg hpasses,if_pos (by omega)]
          have hrest := noteContributions_later (b := ⟨b.state,c.1,c.2.numZeroBitplanes⟩)
            fun c' hc' => (hlater c' hc').le
          unfold noteContributions at hrest ⊢
          rw [List.foldl_cons,hnote,hrest]
        rw [hstep]
        unfold Foretells
        rw [List.find?_cons_of_pos (by simp; omega)]
        exact ⟨rfl,rfl⟩

/-- The seed of a sub-band behind its packets. -/
def noteSubbands (seed : SubbandSeed) (coming : List (ℕ × SubbandView)) : SubbandSeed :=
  coming.foldl (fun seed c => noteSubband c.1 seed c.2) seed

theorem noteSubbands_spec {seed : SubbandSeed} {coming : List (ℕ × SubbandView)}
    (hlayout : ∀ c ∈ coming, SeedLayout seed c.2) :
    (noteSubbands seed coming).numCbsX = seed.numCbsX ∧
      (noteSubbands seed coming).numCbsY = seed.numCbsY ∧
      (noteSubbands seed coming).codeBlocks.length = seed.codeBlocks.length ∧
      ∀ (i : ℕ) b, seed.codeBlocks[i]? = some b → (noteSubbands seed coming).codeBlocks[i]? =
        some (noteContributions b (contributionsTo i coming)) := by
  unfold noteSubbands
  induction coming generalizing seed with
  | nil => exact ⟨rfl,rfl,rfl,fun i b hb => hb⟩
  | cons c coming ih =>
      obtain ⟨hc,hrest⟩ := List.forall_mem_cons.mp hlayout
      obtain ⟨hx,hy,hlength,hblocks⟩ := ih fun c' hc' => (hc.note c.1).mpr (hrest c' hc')
      refine ⟨hx,hy,?_,fun i b hb => ?_⟩
      · rw [List.foldl_cons,hlength]
        simp [noteSubband,hc.2.2]
      · have hi : i < c.2.codeBlocks.length := by
          rw [← hc.2.2]
          exact (List.getElem?_eq_some_iff.mp hb).1
        have hview := List.getElem?_eq_getElem hi
        have hstep : (noteSubband c.1 seed c.2).codeBlocks[i]? =
            some (noteInclusion c.1 b (c.2.codeBlocks[i])) := by
          simp [noteSubband,List.getElem?_zipWith,hb,hview]
        have hcons : contributionsTo i (c :: coming) =
            (c.1,c.2.codeBlocks[i]) :: contributionsTo i coming :=
          contributionsTo_cons hview
        rw [List.foldl_cons,hblocks i _ hstep,hcons]
        rfl

end

/-! ## Trees of a seed -/

section
variable {e e' : TagTreeEncoder} {width height : ℕ} {f : ℕ → ℕ → ℕ}

/-- A tree whose leaves were just written beside a tree that was just built. -/
theorem treesAgree_start (hnew : tryNew width height = .ok e) (hassign : assignLeaves e f = .ok e')
    (hwidth : 0 < width) (hheight : 0 < height) :
    TreesAgree width height f 0 e' (.new width height) := by
  obtain ⟨hlaid,rfl,rfl,hnodes⟩ := laid_of_tryNew hnew
  obtain ⟨nodes,hassigned,hleaves⟩ := assignLeaves_ok hlaid hnodes f
  rw [hassigned] at hassign
  cases hassign
  have hsize := hlaid.top
  rw [levelSize_le_one,levelSize_le_one] at hsize
  have hspan : ∀ {n}, n ≤ 2 ^ (e.numLevels - 1) → span n (e.numLevels - 1) 0 = n := fun hn => by
    unfold span
    omega
  have hbuild := @matches_build e.width e.height (fun l a b => nodes (e.nodeIndex l a b)) 0
    (e.numLevels - 1) 0 0 (fun l a b _ => hleaves.fresh _) (by omega) (by omega)
  rw [hspan hsize.1,hspan hsize.2,← hlaid.ceilLog2] at hbuild
  refine ⟨rfl,rfl,[],fun l a b => nodes (e.nodeIndex l a b),⟨⟨hlaid.levels,hlaid.offsets,hlaid.top,
    hlaid.below⟩,fun _ _ _ _ _ => rfl,⟨fun l _ a b _ => ?_,fun l _ a b _ hknown => ?_,
      fun l hl a b hab => hleaves.ordered l hl a b hab⟩,?_,fun x hx y hy => ?_,
    fun l _ a b _ _ => .inl (hleaves.fresh _).1⟩,nofun⟩
  · have := (hleaves.fresh (e.nodeIndex l a b)).1
    dsimp only at this ⊢
    omega
  · exact absurd (hknown.symm.trans (hleaves.fresh _).2) (by decide)
  · have hlevels : ({ e with nodes } : TagTreeEncoder).numLevels = e.numLevels := rfl
    rw [hlevels,← hlaid.ceilLog2]
    exact hbuild
  · apply hleaves.leaves x hx y hy
    dsimp only at hx hy ⊢
    calc y * e.width + x < y * e.width + e.width := by omega
      _ = (y + 1) * e.width := (Nat.succ_mul _ _).symm
      _ ≤ e.height * e.width := Nat.mul_le_mul_right _ hy
      _ = e.width * e.height := Nat.mul_comm _ _

end

section
variable {blocks : List BlockSeed} {numCbsX : ℕ} {trees trees' : TagTreeEncoder × TagTreeEncoder}

/-- Both trees are written on their own. -/
theorem setLeaves_each {indexed : List (BlockSeed × ℕ)}
    (h : indexed.foldlM (setLeaves numCbsX) trees = .ok trees') :
    indexed.foldlM (fun e b => e.setValue (b.2 % numCbsX) (b.2 / numCbsX) b.1.firstInclusionLayer)
        trees.1 = .ok trees'.1 ∧
      indexed.foldlM (fun e b => e.setValue (b.2 % numCbsX) (b.2 / numCbsX) b.1.zeroBitplaneValue)
        trees.2 = .ok trees'.2 := by
  induction indexed generalizing trees with
  | nil =>
      cases h
      exact ⟨rfl,rfl⟩
  | cons b indexed ih =>
      rw [List.foldlM_cons] at h
      obtain ⟨trees₁,hstep,h⟩ := bind_eq_ok.mp h
      obtain ⟨inclusion,hinclusion,hstep⟩ := bind_eq_ok.mp hstep
      obtain ⟨zero,hzero,hstep⟩ := bind_eq_ok.mp hstep
      cases hstep
      obtain ⟨hfirst,hsecond⟩ := ih h
      rw [List.foldlM_cons,List.foldlM_cons,hinclusion,hzero]
      exact ⟨hfirst,hsecond⟩

/-- The leaf of a block, by its place in the grid. -/
def leafValue (value : BlockSeed → ℕ) (blocks : List BlockSeed) (numCbsX x y : ℕ) : ℕ :=
  (blocks[y * numCbsX + x]?.map value).getD 0

theorem leafValue_index {value : BlockSeed → ℕ} {i : ℕ} {b : BlockSeed} (hb : blocks[i]? = some b) :
    leafValue value blocks numCbsX (i % numCbsX) (i / numCbsX) = value b := by
  unfold leafValue
  rw [Nat.div_add_mod',hb]
  rfl

theorem assignLeaves_of_seed {e e' : TagTreeEncoder} {value : BlockSeed → ℕ} {numCbsY : ℕ}
    (hx : e.width = numCbsX) (hy : e.height = numCbsY) (hcount : blocks.length = numCbsX * numCbsY)
    (h : blocks.zipIdx.foldlM
      (fun e b => e.setValue (b.2 % numCbsX) (b.2 / numCbsX) (value b.1)) e = .ok e') :
    assignLeaves e (leafValue value blocks numCbsX) = .ok e' := by
  subst hx hy
  have hrange : List.range (e.width * e.height) = blocks.zipIdx.map Prod.snd := by
    rw [List.zipIdx_map_snd,← hcount,List.range_eq_range']
  unfold assignLeaves
  rw [hrange,List.foldlM_map,← h]
  apply foldlM_congr
  intro b hb s
  rw [leafValue_index (List.mem_zipIdx_iff_getElem?.mp hb)]

end

/-! ## The agreement at first -/

section
variable {seed : SubbandSeed} {e : PacketSubbandState} {numLayers : ℕ}

theorem pairedFrom_fresh (width numLayers : ℕ) {i n : ℕ} :
    PairedFrom width i (List.replicate n ⟨false,3⟩)
      ((List.range' i n).map (freshStoredBlock width numLayers)) := by
  induction n generalizing i with
  | zero => trivial
  | succ n ih =>
      rw [List.replicate_succ,List.range'_succ,List.map_cons]
      exact ⟨⟨rfl,rfl,rfl,rfl⟩,ih⟩

theorem precinctAgrees_start {coming : List (ℕ × SubbandView)} {subband : SubbandView}
    (hfresh : FreshSeed seed) (hlayout : ∀ c ∈ coming, SeedLayout seed c.2)
    (hlayers : coming.Pairwise fun c c' => c.1 < c'.1)
    (hsmall : ∀ c ∈ coming, c.1 < (2 ^ 32 - 1) / 2) (hsame : SeedLayout seed subband)
    (h : materializeSubband (noteSubbands seed coming) = .ok e) :
    ∃ f g bound, PrecinctAgrees coming e (freshPrecinct numLayers subband) f g bound := by
  obtain ⟨hx,hy,hlength,hblocks⟩ := noteSubbands_spec hlayout
  obtain ⟨inclusion,hinclusion,h⟩ := bind_eq_ok.mp h
  obtain ⟨zero,hzero,h⟩ := bind_eq_ok.mp h
  obtain ⟨trees,htrees,h⟩ := bind_eq_ok.mp h
  cases h
  obtain ⟨hfirst,hsecond⟩ := setLeaves_each htrees
  rw [hx,hy] at hinclusion hzero
  rw [hx] at hfirst hsecond
  have hcount : (noteSubbands seed coming).codeBlocks.length = seed.numCbsX * seed.numCbsY :=
    hlength.trans hfresh.count
  have hboth := laid_of_tryNew hinclusion
  have hboth' := laid_of_tryNew hzero
  have hassign := assignLeaves_of_seed hboth.2.1 hboth.2.2.1
    hcount hfirst
  have hassign' := assignLeaves_of_seed hboth'.2.1
    hboth'.2.2.1 hcount hsecond
  have hstates : (noteSubbands seed coming).codeBlocks.map (·.state) =
      List.replicate subband.codeBlocks.length ⟨false,3⟩ := by
    apply List.eq_replicate_iff.mpr
    refine ⟨by rw [List.length_map,hlength,hsame.2.2],fun s hs => ?_⟩
    obtain ⟨b',hb',rfl⟩ := List.mem_map.mp hs
    obtain ⟨i,hi,heq⟩ := List.getElem_of_mem hb'
    have hold : i < seed.codeBlocks.length := hlength ▸ hi
    have hnew := hblocks i _ (List.getElem?_eq_getElem hold)
    rw [List.getElem?_eq_getElem hi,Option.some.injEq,heq] at hnew
    rw [hnew,noteContributions_state,hfresh.blocks _ (List.getElem_mem hold)]
  refine ⟨leafValue BlockSeed.firstInclusionLayer (noteSubbands seed coming).codeBlocks seed.numCbsX,
    leafValue BlockSeed.zeroBitplaneValue (noteSubbands seed coming).codeBlocks seed.numCbsX,0,?_⟩
  have hpos : (noteSubbands seed coming).codeBlocks.map (·.state) ≠ [] →
      0 < seed.numCbsX ∧ 0 < seed.numCbsY := by
    intro hne
    have hlen : 0 < (noteSubbands seed coming).codeBlocks.length :=
      List.length_pos_iff.mpr fun hnil => hne (by rw [hnil]; rfl)
    rw [hcount] at hlen
    exact ⟨Nat.pos_of_mul_pos_right hlen,Nat.pos_of_mul_pos_left hlen⟩
  constructor
  · dsimp only
    rw [List.length_map,hcount,hx,hy]
  · intro hne
    dsimp only [freshPrecinct]
    rw [hx,hy,← hsame.1,← hsame.2.1]
    exact treesAgree_start hinclusion hassign (hpos hne).1 (hpos hne).2
  · intro hne
    dsimp only [freshPrecinct]
    rw [hx,hy,← hsame.1,← hsame.2.1]
    exact treesAgree_start hzero hassign' (hpos hne).1 (hpos hne).2
  · dsimp only [freshPrecinct]
    rw [hstates,hx,hsame.1,List.range_eq_range']
    exact pairedFrom_fresh _ _
  · exact fun c _ => Nat.zero_le _
  · intro i s hs _
    dsimp only at hs ⊢
    rw [List.getElem?_map] at hs
    obtain ⟨b',hb',-⟩ := Option.map_eq_some_iff.mp hs
    have hi : i < seed.codeBlocks.length := by
      rw [← hlength]
      exact (List.getElem?_eq_some_iff.mp hb').1
    have hb := hblocks i _ (List.getElem?_eq_getElem hi)
    rw [hx,leafValue_index hb,leafValue_index hb]
    apply noteContributions_foretells
    · rw [hfresh.blocks _ (List.getElem_mem hi)]
    · refine List.Pairwise.filterMap _ (fun c c' hlt v hv v' hv' => ?_) hlayers
      obtain ⟨_,-,rfl⟩ := Option.map_eq_some_iff.mp hv
      obtain ⟨_,-,rfl⟩ := Option.map_eq_some_iff.mp hv'
      exact hlt
    · intro c hc
      obtain ⟨c',hc',heq⟩ := mem_contributionsTo hc
      exact heq ▸ hsmall c' hc'

theorem firstSubbands_pairwise {coming : List (ℕ × ResolutionView)}
    (h : coming.Pairwise fun c c' => c.1 < c'.1) :
    (firstSubbands coming).Pairwise fun c c' => c.1 < c'.1 := by
  refine List.Pairwise.filterMap _ (fun c c' hlt v hv v' hv' => ?_) h
  obtain ⟨_,-,rfl⟩ := Option.map_eq_some_iff.mp hv
  obtain ⟨_,-,rfl⟩ := Option.map_eq_some_iff.mp hv'
  exact hlt

theorem laterSubbands_pairwise {coming : List (ℕ × ResolutionView)}
    (h : coming.Pairwise fun c c' => c.1 < c'.1) :
    (laterSubbands coming).Pairwise fun c c' => c.1 < c'.1 := by
  apply List.pairwise_map.mpr
  exact h

/-- The agreement on all precincts of a place, sub-band after sub-band. -/
theorem agrees_start {seeds : List SubbandSeed} {coming : List (ℕ × ResolutionView)}
    {states : List PacketSubbandState} {packet : ResolutionView}
    (hfresh : ∀ seed ∈ seeds, FreshSeed seed)
    (hlayout : ∀ c ∈ coming, List.Forall₂ SeedLayout seeds c.2)
    (hlayers : coming.Pairwise fun c c' => c.1 < c'.1)
    (hsmall : ∀ c ∈ coming, c.1 < (2 ^ 32 - 1) / 2) (hsame : List.Forall₂ SeedLayout seeds packet)
    (h : List.Forall₂ (fun seed e => materializeSubband seed = .ok e) (notePackets seeds coming)
      states) :
    Agrees coming states (packet.map (freshPrecinct numLayers)) := by
  induction seeds generalizing coming states packet with
  | nil =>
      cases hsame
      have hnil : notePackets [] coming = [] := by
        unfold notePackets
        clear hlayout hlayers hsmall h
        induction coming with
        | nil => rfl
        | cons c coming ih => simpa using ih
      rw [hnil] at h
      cases h
      trivial
  | cons seed seeds ih =>
      cases hsame with
      | @cons _ subband _ packet hfirst hsame =>
          obtain ⟨hseed,hfresh⟩ := List.forall_mem_cons.mp hfresh
          have hne : ∀ c ∈ coming, c.2 ≠ [] := by
            intro c hc hnil
            have := hlayout c hc
            rw [hnil] at this
            cases this
          rw [notePackets_cons hne] at h
          cases h with
          | cons hmaterialized h =>
              refine ⟨precinctAgrees_start hseed (fun c hc => ?_) (firstSubbands_pairwise hlayers)
                (fun c hc => ?_) hfirst hmaterialized,
                ih hfresh (fun c hc => ?_) (laterSubbands_pairwise hlayers) (fun c hc => ?_) hsame h⟩
              · obtain ⟨c',hc',heq⟩ := List.mem_filterMap.mp hc
                obtain ⟨subband',hhead,rfl⟩ := Option.map_eq_some_iff.mp heq
                obtain ⟨rest,hcons⟩ := List.head?_eq_some_iff.mp hhead
                have := hlayout c' hc'
                rw [hcons] at this
                cases this with
                | cons hthis _ => exact hthis
              · obtain ⟨c',hc',heq⟩ := mem_firstSubbands hc
                exact heq ▸ hsmall c' hc'
              · obtain ⟨c',hc',rfl⟩ := List.mem_map.mp hc
                have := hlayout c' hc'
                obtain ⟨subband',packet',hcons⟩ := List.exists_cons_of_ne_nil (hne c' hc')
                rw [hcons] at this
                cases this with
                | cons _ hthis =>
                    dsimp only
                    rw [hcons]
                    exact hthis
              · obtain ⟨c',hc',rfl⟩ := List.mem_map.mp hc
                exact hsmall c' hc'

end

section
variable {packets : List ResolutionView} {options : PacketMarkerOptions} {infos : List ComponentInfo}
variable {descriptors : List PacketDescriptor} {states : List (List PacketSubbandState)}

theorem seedDescriptors_packet {seeds seeds' : SeedTable}
    (h : descriptors.foldlM (seedDescriptor packets) seeds = .ok seeds') :
    ∀ d ∈ descriptors, ∃ packet, packets[d.packetIndex]? = some packet := by
  induction descriptors generalizing seeds with
  | nil => nofun
  | cons d descriptors ih =>
      rw [List.foldlM_cons] at h
      obtain ⟨seeds₁,hstep,h⟩ := bind_eq_ok.mp h
      refine List.forall_mem_cons.mpr ⟨?_,ih h⟩
      unfold seedDescriptor at hstep
      cases hpacket : packets[d.packetIndex]? with
      | none => simp [hpacket] at hstep
      | some packet => exact ⟨packet,rfl⟩

theorem Ordered.comingTo_pairwise (h : Ordered infos options descriptors) (stateIndex : ℕ) :
    (comingTo packets stateIndex descriptors).Pairwise fun c c' => c.1 < c'.1 := by
  have hsame : (descriptors.filter fun d => d.stateIndex = stateIndex).Pairwise
      fun d d' => d.layer < d'.layer := by
    apply List.Pairwise.imp_of_mem _ (h.layers.filter _)
    intro d d' hd hd' hlayer
    have hd := of_decide_eq_true (List.mem_filter.mp hd).2
    have hd' := of_decide_eq_true (List.mem_filter.mp hd').2
    exact hlayer (hd.trans hd'.symm)
  refine List.Pairwise.filterMap _ (fun d d' hlt c hc c' hc' => ?_) hsame
  obtain ⟨_,-,rfl⟩ := Option.map_eq_some_iff.mp hc
  obtain ⟨_,-,rfl⟩ := Option.map_eq_some_iff.mp hc'
  exact hlt

/-- The storage of every place is laid out as the packets of the place are. -/
def FreshStorage (packets : List ResolutionView) (descriptors : List PacketDescriptor)
    (numLayers : ℕ) (storage : Storage) : Prop :=
  ∀ d ∈ descriptors, ∀ packet, packets[d.packetIndex]? = some packet →
    storage (progressionData d).place = packet.map (freshPrecinct numLayers)

/-- The states of the writer agree with storage that was just laid out. -/
theorem runAgrees_start {numLayers : ℕ} {storage : Storage}
    (hstates : buildPacketStates packets descriptors = .ok states)
    (hordered : Ordered infos options descriptors) (hviews : ∀ packet ∈ packets, Unwritten packet)
    (hstorage : FreshStorage packets descriptors numLayers storage) :
    RunAgrees packets descriptors states storage := by
  obtain ⟨stateCount,-,hstates⟩ := bind_eq_ok.mp hstates
  obtain ⟨seeds,hseeds,hstates⟩ := bind_eq_ok.mp hstates
  intro d hd e he
  obtain ⟨packet,hpacket⟩ := seedDescriptors_packet hseeds d hd
  have hmem : (d.layer,packet) ∈ comingTo packets d.stateIndex descriptors :=
    List.mem_filterMap.mpr ⟨d,List.mem_filter.mpr ⟨hd,decide_eq_true rfl⟩,by rw [hpacket]; rfl⟩
  obtain ⟨start,hstart,hfresh,hlayout⟩ := seedPackets_none (List.ne_nil_of_mem hmem)
    (fun c hc => by
      obtain ⟨d',-,-,-,hpacket'⟩ := mem_comingTo hc
      exact hviews _ (List.mem_of_getElem? hpacket'))
    (seedDescriptors_state d.stateIndex hseeds)
  have hmaterialized : materializePacketState (seeds d.stateIndex) = .ok e := by
    obtain ⟨g,rfl,hg⟩ := mapM_range_ok hstates
    rw [List.getElem?_map] at he
    obtain ⟨stateIndex,hindex,rfl⟩ := Option.map_eq_some_iff.mp he
    obtain ⟨hlt,rfl⟩ := List.getElem?_eq_some_iff.mp hindex
    rw [List.length_range] at hlt
    rw [List.getElem_range]
    exact hg _ hlt
  rw [hstart] at hmaterialized
  rw [hstorage d hd packet hpacket]
  apply agrees_start hfresh hlayout (hordered.comingTo_pairwise _) (fun c hc => ?_) (hlayout _ hmem)
    (mapM_forall₂ hmaterialized)
  obtain ⟨d',hd',-,hlayer,-⟩ := mem_comingTo hc
  have := hordered.bytes d' hd'
  omega

end

end J2kNative.PacketParsing
