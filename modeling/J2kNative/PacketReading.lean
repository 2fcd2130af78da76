import J2kNative.PacketContributions
import J2kNative.TagTreeRoundTrip

/-!
# Reading packets

The parser goes through a header with the writer. Both know the same of the tag trees, of the
inclusion of the blocks and of their L-blocks, and the leaves of the trees foretell what the coming
packets bring to the blocks that are not included yet.
-/
namespace J2kNative.PacketParsing
open BitStuffing Fallible TagTrees HtContributions HtRoundTrip ClassicSegments PacketAssembly
open BitStuffing.BitReader (Presents presents_append)
open PacketHeaderWriter (align)
open PacketHeaders (CodeBlockPacketData PacketCodeBlockState PacketSubbandState formBlock formBlocks
  formSubbands formHeaderFields)

/-! ## What packets mean -/

section
variable (style : CodeBlockStyle) (layer : ℕ)

def receiveBlocks : List CodeBlockView → List BlockContents → Option (List BlockContents)
  | [], [] => some []
  | b :: views, c :: contents => do
      let c ← c.receive style b layer
      let contents ← receiveBlocks views contents
      some (c :: contents)
  | _, _ => none

/-- What the precincts hold behind a packet of a layer. -/
def receivePacket : ResolutionView → List (List BlockContents) → Option (List (List BlockContents))
  | [], [] => some []
  | subband :: packet, c :: contents => do
      let c ← receiveBlocks style layer subband.codeBlocks c
      let contents ← receivePacket packet contents
      some (c :: contents)
  | _, _ => none

end

/-! ## Trees -/

/-- Writer and reader agree on a tree of these values. Where a value is still open, nothing was
asked beyond the bound. -/
def TreesAgree (width height : ℕ) (f : ℕ → ℕ → ℕ) (bound : ℕ) (e : TagTreeEncoder) (tree : TagTree) :
    Prop :=
  e.width = width ∧ e.height = height ∧
    ∃ past p, Synced f past e p tree ∧ ∀ q ∈ past, q.Short f → q.threshold ≤ bound

section
variable {width height bound bound' : ℕ} {f g : ℕ → ℕ → ℕ} {e : TagTreeEncoder} {tree : TagTree}

theorem TreesAgree.mono (h : TreesAgree width height f bound e tree) (hle : bound ≤ bound') :
    TreesAgree width height f bound' e tree := by
  obtain ⟨hwidth,hheight,past,p,hsynced,hpast⟩ := h
  exact ⟨hwidth,hheight,past,p,hsynced,fun q hq hshort => (hpast q hq hshort).trans hle⟩

/-- A query keeps the agreement. -/
theorem TreesAgree.query (h : TreesAgree width height f bound e tree) {x y : ℕ} (t t' : ℕ)
    (hx : x < width) (hy : y < height) (hle : t ≤ f x y → t = bound)
    (ht : t = t' ∨ f x y < t ∧ f x y < t') :
    ∃ bits e', e.encode x y t = .ok (bits,e') ∧ ∀ r r', Presents r bits r' →
      ∃ answer tree', tree.read x y 0 t' r = some (answer,tree',r') ∧
        TreesAgree width height f bound e' tree' ∧ (f x y < t → answer = f x y) ∧
        (t ≤ f x y → t ≤ answer) := by
  obtain ⟨rfl,rfl,past,p,hsynced,hpast⟩ := h
  obtain ⟨bits,nodes,hencode,p',hread⟩ := hsynced.query (q := ⟨x,y,t,t'⟩) hx hy
    (fun q' hq' hshort' hshort => (hpast q' hq' hshort').trans (hle hshort).ge) ht
  refine ⟨bits,_,hencode,fun r r' hp => ?_⟩
  obtain ⟨answer,tree',hanswer,hsynced',hbelow,hshort⟩ := hread r r' hp
  refine ⟨answer,tree',hanswer,⟨rfl,rfl,_,p',hsynced',fun q hq hopen => ?_⟩,hbelow,hshort⟩
  cases List.mem_cons.mp hq with
  | inl hnew =>
      subst hnew
      exact (hle hopen).le
  | inr hold => exact hpast q hold hopen

end

/-! ## One block -/

/-- Writer and reader know the same of the block of an index. -/
structure Paired (width i : ℕ) (s : PacketCodeBlockState) (b : StoredBlock) : Prop where
  x : b.xIdx = i % width
  y : b.yIdx = i / width
  included : b.hasBeenIncluded = s.previouslyIncluded
  lBlock : b.block.lBlock = s.lBlock

/-- The leaves of a block that is not included yet tell whether this layer includes it. -/
def Due (first zeros layer : ℕ) (view : CodeBlockView) : Prop :=
  if view.numCodingPasses = 0 then layer < first
  else first = layer ∧ zeros = view.numZeroBitplanes

/-- The bytes of a block in the body. -/
def bodyOf (view : CodeBlockView) : List ℕ := if view.numCodingPasses > 0 then view.data else []

section
variable {style : CodeBlockStyle} {layer width height i : ℕ} {f g : ℕ → ℕ → ℕ}
variable {inclusion inclusion' zero zero' : TagTreeEncoder} {view : CodeBlockView}
variable {b : StoredBlock} {c : BlockContents} {s s' : PacketCodeBlockState} {h : HeaderState}
variable {fields : List HeaderField} {r' : BitStuffing.BitReader}

theorem BlockContents.receive_idle (hpasses : view.numCodingPasses = 0)
    (hreceive : b.contents.receive style view layer = some c) :
    b.layers[layer]? = some none ∧ b.contents = c := by
  unfold BlockContents.receive at hreceive
  split_ifs at hreceive with hlayer
  exact ⟨not_not.mp hlayer,Option.some.inj hreceive⟩

theorem BlockContents.receive_some (hpasses : view.numCodingPasses ≠ 0)
    (hreceive : b.contents.receive style view layer = some c) :
    b.layers[layer]? = some none ∧ b.contents.Admits style view ∧
      c = ⟨true,if b.hasBeenIncluded then b.block.missingBitPlanes else view.numZeroBitplanes,
        b.block.numberOfCodingPasses + view.numCodingPasses,b.block.nonEmptyLayerCount + 1,
        b.layers.set layer (some (b.contents.segments style view))⟩ := by
  unfold BlockContents.receive at hreceive
  split_ifs at hreceive with hlayer hadmits hincluded
  · refine ⟨not_not.mp hlayer,hadmits,?_⟩
    rw [← Option.some.inj hreceive,if_pos (show b.hasBeenIncluded = true from hincluded)]
    rfl
  · refine ⟨not_not.mp hlayer,hadmits,?_⟩
    rw [← Option.some.inj hreceive,if_neg (show ¬b.hasBeenIncluded = true from hincluded)]
    rfl

/-- The agreement of writer and reader inside a precinct. -/
structure HeadersAgree (width height : ℕ) (f g : ℕ → ℕ → ℕ) (layer : ℕ)
    (inclusion zero : TagTreeEncoder) (h : HeaderState) : Prop where
  inclusion : TreesAgree width height f (layer + 1) inclusion h.codeInclusionTree
  zero : TreesAgree width height g 0 zero h.zeroBitplaneTree

/-- What reading the header makes of a block: it then takes its bytes of the body, and holds what
the contribution brings. -/
def Announced (width i layer : ℕ) (view : CodeBlockView) (s' : PacketCodeBlockState)
    (c : BlockContents) (b' : StoredBlock) : Prop :=
  ∃ b'', Takes (readBlock layer) b' (bodyOf view) b'' ∧ Paired width i s' b'' ∧ b''.contents = c

/-- A block that the packet leaves out. -/
theorem resolveBlock_idle (hpair : Paired width i s b) (hpasses : view.numCodingPasses = 0)
    (hreceive : b.contents.receive style view layer = some c) {h' : HeaderState}
    (hread : readInclusion layer b h = some (false,h')) :
    resolveBlock style layer b h = .ok (b,h') ∧ Announced width i layer view s c b := by
  obtain ⟨hlayer,hcontents⟩ := BlockContents.receive_idle hpasses hreceive
  constructor
  · unfold resolveBlock resolveCodeBlockInclusion
    rw [hread]
    rfl
  · refine ⟨b,?_,hpair,hcontents⟩
    rw [bodyOf,if_neg (by omega)]
    exact takes_nothing hlayer

/-- A block that the packet includes, with its bit planes known. -/
theorem resolveBlock_included (hpair : Paired width i s b) (hpasses : view.numCodingPasses ≠ 0)
    {b₁ : StoredBlock} {h' : HeaderState} {lBlock' : ℕ}
    (hread : resolveCodeBlockInclusion layer b h = some (true,b₁,h'))
    (hlayer : b.layers[layer]? = some none) (hadmits : b.contents.Admits style view)
    (hb₁ : b₁ = { b with
      hasBeenIncluded := true
      block := { b.block with missingBitPlanes := c.missingBitPlanes } })
    (hc : c = ⟨true,c.missingBitPlanes,b.block.numberOfCodingPasses + view.numCodingPasses,
      b.block.nonEmptyLayerCount + 1,b.layers.set layer (some (b.contents.segments style view))⟩)
    (hfields : PacketHeaders.contributionFields view.packetData s.lBlock = .ok (fields,lBlock'))
    (hp : Presents h'.reader (bitsOfFields fields) r') :
    ∃ b', resolveBlock style layer b h = .ok (b',{ h' with reader := r' }) ∧
      Announced width i layer view ⟨true,lBlock'⟩ c b' := by
  subst hb₁
  rw [← hpair.lBlock] at hfields
  have hadmits' : ({ b with
      hasBeenIncluded := true
      block := { b.block with missingBitPlanes := c.missingBitPlanes } } : StoredBlock).contents.Admits
      style view := ⟨hadmits.1,hadmits.2.1,nofun,hadmits.2.2.2.1,hadmits.2.2.2.2⟩
  obtain ⟨b',hresolve,htakes⟩ := resolveContribution_reads hadmits' hlayer hfields hp
  rw [← if_pos (c := view.numCodingPasses > 0) (t := view.data) (e := []) (by omega)] at htakes
  refine ⟨b',?_,_,htakes,⟨hpair.x,hpair.y,rfl,rfl⟩,?_⟩
  · unfold resolveBlock
    rw [hread]
    simp only [orError,ok_bind]
    rw [hresolve]
    rfl
  · rw [hc]
    rfl

/-- Step lemma: the fields of a block are read, and the block holds what they announce. -/
theorem formBlock_reads (hwidth : 0 < width) (hi : i < width * height) (hpair : Paired width i s b)
    (hagree : HeadersAgree width height f g layer inclusion zero h)
    (hdue : s.previouslyIncluded = false →
      Due (f (i % width) (i / width)) (g (i % width) (i / width)) layer view)
    (hreceive : b.contents.receive style view layer = some c)
    (hform : formBlock layer (i % width) (i / width) view.packetData inclusion zero s =
      .ok (fields,inclusion',zero',s'))
    (hp : Presents h.reader (bitsOfFields fields) r') :
    s'.previouslyIncluded = (s.previouslyIncluded || decide (0 < view.numCodingPasses)) ∧
    ∃ b' h', resolveBlock style layer b h = .ok (b',h') ∧ h'.reader = r' ∧
      HeadersAgree width height f g layer inclusion' zero' h' ∧
      Announced width i layer view s' c b' := by
  have hx : i % width < width := Nat.mod_lt _ hwidth
  have hy : i / width < height := Nat.div_lt_of_lt_mul hi
  have hpassesEq : view.packetData.numCodingPasses = view.numCodingPasses := rfl
  have hzerosEq : view.packetData.numZeroBitplanes = view.numZeroBitplanes := rfl
  unfold formBlock at hform
  rw [hpassesEq,hzerosEq] at hform
  by_cases hincluded : s.previouslyIncluded = true
  · have hb : b.hasBeenIncluded = true := hpair.included.trans hincluded
    rw [if_pos hincluded] at hform
    by_cases hpasses : view.numCodingPasses > 0
    · rw [if_pos hpasses] at hform
      obtain ⟨⟨rest,lBlock'⟩,hfields,hform⟩ := bind_eq_ok.mp hform
      cases hform
      obtain ⟨r₁,hp₁,hp₂⟩ := presents_append.mp hp
      obtain ⟨hlayer,hadmits,hc⟩ := BlockContents.receive_some hpasses.ne' hreceive
      rw [if_pos hb] at hc
      have hread : readInclusion layer b h = some (true,{ h with reader := r₁ }) := by
        unfold readInclusion
        rw [if_pos hb,readBits_field hp₁ (by decide) (by decide)]
        rfl
      have hresolve : resolveCodeBlockInclusion layer b h =
          some (true,b,{ h with reader := r₁ }) := by
        unfold resolveCodeBlockInclusion
        simp [hread,hb]
      have hsame : b = { b with
          hasBeenIncluded := true
          block := { b.block with missingBitPlanes := c.missingBitPlanes } } := by
        rw [hc,← hb]
      obtain ⟨b',hblock,hannounced⟩ := resolveBlock_included (c := c) hpair hpasses.ne' hresolve
        hlayer hadmits hsame (by rw [hc]) hfields hp₂
      exact ⟨by simp [hincluded],b',_,hblock,rfl,⟨hagree.inclusion,hagree.zero⟩,hannounced⟩
    · rw [if_neg hpasses] at hform
      cases hform
      have hzero : view.numCodingPasses = 0 := by omega
      have hread : readInclusion layer b h = some (false,{ h with reader := r' }) := by
        unfold readInclusion
        rw [if_pos hb,readBits_field (by simpa using hp) (by decide) (by decide)]
        rfl
      obtain ⟨hblock,hannounced⟩ := resolveBlock_idle hpair hzero hreceive hread
      exact ⟨by simp [hzero],b,_,hblock,rfl,⟨hagree.inclusion,hagree.zero⟩,hannounced⟩
  · have hs : s.previouslyIncluded = false := Bool.eq_false_iff.mpr hincluded
    have hb : b.hasBeenIncluded = false := hpair.included.trans hs
    have hdue := hdue hs
    rw [if_neg hincluded] at hform
    obtain ⟨bits,tree,hencode,hquery⟩ := hagree.inclusion.query (layer + 1) (layer + 1)
      hx hy (fun _ => rfl) (.inl rfl)
    rw [hencode,ok_bind] at hform
    dsimp only at hform
    by_cases hpasses : view.numCodingPasses = 0
    · rw [if_pos hpasses] at hform
      cases hform
      rw [bitsOfFields_bitFields] at hp
      obtain ⟨answer,tree',hanswer,hagrees,-,hopen⟩ := hquery _ _ hp
      rw [Due,if_pos hpasses] at hdue
      have hlate := hopen hdue
      have hread : readInclusion layer b h =
          some (false,{ h with codeInclusionTree := tree', reader := r' }) := by
        unfold readInclusion
        rw [hb,hpair.x,hpair.y,hanswer]
        simp
        omega
      obtain ⟨hblock,hannounced⟩ := resolveBlock_idle hpair hpasses hreceive hread
      exact ⟨by simp [hpasses],b,_,hblock,rfl,⟨hagrees,hagree.zero⟩,hannounced⟩
    · rw [if_neg hpasses] at hform
      obtain ⟨⟨zeroBits,zeroTree⟩,hzero,hform⟩ := bind_eq_ok.mp hform
      obtain ⟨⟨rest,lBlock'⟩,hfields,hform⟩ := bind_eq_ok.mp hform
      cases hform
      rw [Due,if_neg hpasses] at hdue
      obtain ⟨hfirst,hzeros⟩ := hdue
      obtain ⟨hlayer,hadmits,hc⟩ := BlockContents.receive_some hpasses hreceive
      have hsmall : view.numZeroBitplanes ≤ 255 := hadmits.2.2.1 hb
      rw [bitsOfFields_append,bitsOfFields_append,bitsOfFields_bitFields,bitsOfFields_bitFields,
        List.append_assoc] at hp
      obtain ⟨r₁,hp₁,hp⟩ := presents_append.mp hp
      obtain ⟨r₂,hp₂,hp₃⟩ := presents_append.mp hp
      obtain ⟨answer,tree',hanswer,hagrees,hbelow,-⟩ := hquery _ _ hp₁
      obtain ⟨bits₀,tree₀,hencode₀,hquery₀⟩ := hagree.zero.query (view.numZeroBitplanes + 1)
        (2 ^ 32 - 1) hx hy (by omega) (.inr ⟨by omega,by omega⟩)
      rw [hzero] at hencode₀
      cases hencode₀
      obtain ⟨value,tree₁,hvalue,hagrees₁,hbelow₁,-⟩ := hquery₀ _ _ hp₂
      have hanswered : answer = layer := (hbelow (by omega)).trans hfirst
      have hvalued : value = view.numZeroBitplanes := (hbelow₁ (by omega)).trans hzeros
      have hread : readInclusion layer b h =
          some (true,{ h with codeInclusionTree := tree', reader := r₁ }) := by
        unfold readInclusion
        rw [hb,hpair.x,hpair.y,hanswer]
        simp
        omega
      rw [hb] at hc
      have hresolve : resolveCodeBlockInclusion layer b h = some (true,
          { b with
            hasBeenIncluded := true
            block := { b.block with missingBitPlanes := c.missingBitPlanes } },
          ⟨tree',tree₁,r₂⟩) := by
        unfold resolveCodeBlockInclusion
        simp only [hread,hb,hpair.x,hpair.y,hvalue,hvalued,hc,Option.bind_eq_bind,Option.bind_some]
        simp
        omega
      obtain ⟨b',hblock,hannounced⟩ := resolveBlock_included (c := c) hpair hpasses hresolve hlayer
        hadmits rfl (by rw [hc]) hfields hp₃
      exact ⟨by simp [Nat.pos_of_ne_zero hpasses],b',_,hblock,rfl,⟨hagrees,hagrees₁⟩,hannounced⟩

end

/-! ## The blocks of a precinct -/

/-- The blocks from an index on. -/
def PairedFrom (width : ℕ) : ℕ → List PacketCodeBlockState → List StoredBlock → Prop
  | _, [], [] => True
  | i, s :: states, b :: blocks => Paired width i s b ∧ PairedFrom width (i + 1) states blocks
  | _, _, _ => False

/-- Which blocks are included behind a packet. -/
def includedBehind (views : List CodeBlockView) (states : List PacketCodeBlockState) : List Bool :=
  List.zipWith (fun view s => s.previouslyIncluded || decide (0 < view.numCodingPasses)) views states

section
variable {style : CodeBlockStyle} {layer width height i : ℕ} {f g : ℕ → ℕ → ℕ}
variable {inclusion inclusion' zero zero' : TagTreeEncoder} {views : List CodeBlockView}
variable {blocks : List StoredBlock} {contents : List BlockContents}
variable {states states' : List PacketCodeBlockState} {h : HeaderState}
variable {fields : List HeaderField} {r' : BitStuffing.BitReader} {bodyLen bodyLen' : ℕ}

/-- Run lemma: the blocks of a precinct. -/
theorem formBlocks_reads (hwidth : 0 < width) (hi : i + views.length ≤ width * height)
    (hpaired : PairedFrom width i states blocks)
    (hagree : HeadersAgree width height f g layer inclusion zero h)
    (hdue : ∀ (k : ℕ) view s, views[k]? = some view → states[k]? = some s →
      s.previouslyIncluded = false →
      Due (f ((i + k) % width) ((i + k) / width)) (g ((i + k) % width) ((i + k) / width)) layer view)
    (hreceive : receiveBlocks style layer views (blocks.map (·.contents)) = some contents)
    (hform : formBlocks layer width i ((views.map (·.packetData)).zip states) inclusion zero bodyLen =
      .ok (fields,inclusion',zero',states',bodyLen'))
    (hp : Presents h.reader (bitsOfFields fields) r') :
    states'.map (·.previouslyIncluded) = includedBehind views states ∧
    ∃ blocks' h', threadM (resolveBlock style layer) blocks h = .ok (blocks',h') ∧ h'.reader = r' ∧
      HeadersAgree width height f g layer inclusion' zero' h' ∧
      ∃ blocks'', Takes (threadM (readBlock layer)) blocks' (views.flatMap bodyOf) blocks'' ∧
        PairedFrom width i states' blocks'' ∧ blocks''.map (·.contents) = contents := by
  induction views generalizing i states blocks inclusion zero h contents fields bodyLen states' with
  | nil =>
      cases blocks with
      | cons b blocks => simp [receiveBlocks] at hreceive
      | nil =>
          simp only [List.map_nil,List.zip_nil_left,formBlocks,Except.ok.injEq,Prod.mk.injEq] at hform
          obtain ⟨rfl,rfl,rfl,rfl,rfl⟩ := hform
          simp only [receiveBlocks,List.map_nil,Option.some.injEq] at hreceive
          subst hreceive
          cases hp
          exact ⟨rfl,[],h,rfl,rfl,hagree,[],.nil,trivial,rfl⟩
  | cons view views ih =>
      cases blocks with
      | nil => simp [receiveBlocks] at hreceive
      | cons b blocks =>
          cases states with
          | nil => exact absurd hpaired (by simp [PairedFrom])
          | cons s states =>
              obtain ⟨hpair,hpaired⟩ := hpaired
              simp only [List.map_cons,receiveBlocks,Option.bind_eq_bind,Option.bind_eq_some_iff]
                at hreceive
              obtain ⟨c,hc,cs,hcs,hreceive⟩ := hreceive
              cases hreceive
              simp only [List.map_cons,List.zip_cons_cons,formBlocks] at hform
              by_cases hindex : i ≥ 2 ^ 32
              · rw [if_pos hindex] at hform
                cases hform
              rw [if_neg hindex] at hform
              obtain ⟨⟨fields₁,inclusion₁,zero₁,s₁⟩,hblock,hform⟩ := bind_eq_ok.mp hform
              obtain ⟨bodyLen₁,-,hform⟩ := bind_eq_ok.mp hform
              obtain ⟨⟨fields₂,inclusion₂,zero₂,states₂,bodyLen₂⟩,hrest,hform⟩ := bind_eq_ok.mp hform
              cases hform
              rw [bitsOfFields_append] at hp
              obtain ⟨r₁,hp₁,hp₂⟩ := presents_append.mp hp
              rw [List.length_cons] at hi
              obtain ⟨hincluded,b',h₁,hresolve,hreader,hagree₁,b'',htakes,hpair',hcontents⟩ :=
                formBlock_reads hwidth (by omega) hpair hagree
                  (hdue 0 view s rfl rfl) hc hblock hp₁
              subst hreader
              obtain ⟨hall,blocks',h₂,hthread,hreader,hagree₂,blocks'',htakes',hpaired',hcontents'⟩ :=
                ih (i := i + 1) (by omega) hpaired hagree₁ (fun k view' s' hview hs => by
                  rw [Nat.add_right_comm i 1 k]
                  exact hdue (k + 1) view' s' hview hs) hcs hrest hp₂
              refine ⟨?_,b' :: blocks',h₂,?_,hreader,hagree₂,b'' :: blocks'',htakes.cons htakes',
                ⟨hpair',hpaired'⟩,?_⟩
              · rw [List.map_cons,hincluded,hall]
                rfl
              · unfold threadM
                rw [hresolve,ok_bind]
                dsimp only
                rw [hthread]
                rfl
              · rw [List.map_cons,hcontents,hcontents']

/-- In a packet without data every block stays as it is. -/
theorem receiveBlocks_idle (hviews : ∀ view ∈ views, view.numCodingPasses = 0)
    (hreceive : receiveBlocks style layer views (blocks.map (·.contents)) = some contents) :
    blocks.map (·.contents) = contents := by
  induction views generalizing blocks contents with
  | nil =>
      cases blocks with
      | nil => exact Option.some.inj hreceive
      | cons b blocks => simp [receiveBlocks] at hreceive
  | cons view views ih =>
      cases blocks with
      | nil => simp [receiveBlocks] at hreceive
      | cons b blocks =>
          simp only [List.map_cons,receiveBlocks,Option.bind_eq_bind,Option.bind_eq_some_iff]
            at hreceive
          obtain ⟨c,hc,cs,hcs,hreceive⟩ := hreceive
          cases hreceive
          obtain ⟨hview,hviews⟩ := List.forall_mem_cons.mp hviews
          rw [List.map_cons,ih hviews hcs,(BlockContents.receive_idle hview hc).2]

end

/-! ## Precincts -/

/-- The leaves of a block against its contributions to come, each with its layer. -/
def Foretells (first zeros : ℕ) (contributions : List (ℕ × CodeBlockView)) : Prop :=
  match contributions.find? fun c => 0 < c.2.numCodingPasses with
  | some c => first = c.1 ∧ zeros = c.2.numZeroBitplanes
  | none => first = (2 ^ 32 - 1) / 2

/-- The contributions of the coming packets to the block of an index. -/
def contributionsTo (i : ℕ) (coming : List (ℕ × SubbandView)) : List (ℕ × CodeBlockView) :=
  coming.filterMap fun c => c.2.codeBlocks[i]?.map fun view => (c.1,view)

section
variable {first zeros layer : ℕ} {contributions : List (ℕ × CodeBlockView)} {view : CodeBlockView}

theorem Foretells.idle (hview : view.numCodingPasses = 0) :
    Foretells first zeros ((layer,view) :: contributions) ↔ Foretells first zeros contributions := by
  unfold Foretells
  rw [List.find?_cons_of_neg (by simp [hview])]

theorem Foretells.due (h : Foretells first zeros ((layer,view) :: contributions))
    (hlayer : layer < (2 ^ 32 - 1) / 2) (hlater : ∀ c ∈ contributions, layer < c.1) :
    Due first zeros layer view := by
  unfold Due
  split_ifs with hview
  · have hrest := (Foretells.idle hview).mp h
    unfold Foretells at hrest
    cases hfind : contributions.find? fun c => 0 < c.2.numCodingPasses with
    | none =>
        rw [hfind] at hrest
        exact hrest ▸ hlayer
    | some c =>
        rw [hfind] at hrest
        exact hrest.1 ▸ hlater c (List.mem_of_find?_eq_some hfind)
  · unfold Foretells at h
    rwa [List.find?_cons_of_pos (by simp; omega)] at h

end

/-- Writer and reader agree on a precinct and its trees foretell the coming packets. -/
structure PrecinctAgrees (coming : List (ℕ × SubbandView)) (e : PacketSubbandState) (p : Precinct)
    (f g : ℕ → ℕ → ℕ) (bound : ℕ) : Prop where
  room : e.codeBlocks.length ≤ e.numCbsX * e.numCbsY
  inclusion : e.codeBlocks ≠ [] →
    TreesAgree e.numCbsX e.numCbsY f bound e.inclusionTree p.codeInclusionTree
  zero : e.codeBlocks ≠ [] → TreesAgree e.numCbsX e.numCbsY g 0 e.zeroBitplaneTree p.zeroBitplaneTree
  blocks : PairedFrom e.numCbsX 0 e.codeBlocks p.codeBlocks
  before : ∀ c ∈ coming, bound ≤ c.1 + 1
  foretold : ∀ (i : ℕ) s, e.codeBlocks[i]? = some s → s.previouslyIncluded = false →
    Foretells (f (i % e.numCbsX) (i / e.numCbsX)) (g (i % e.numCbsX) (i / e.numCbsX))
      (contributionsTo i coming)

def Precinct.contents (p : Precinct) : List BlockContents := p.codeBlocks.map (·.contents)

theorem PairedFrom.length_eq {width i : ℕ} {states : List PacketCodeBlockState}
    {blocks : List StoredBlock} (h : PairedFrom width i states blocks) :
    states.length = blocks.length := by
  induction states generalizing i blocks with
  | nil =>
      cases blocks with
      | nil => rfl
      | cons b blocks => cases h
  | cons s states ih =>
      cases blocks with
      | nil => cases h
      | cons b blocks => exact congrArg (· + 1) (ih h.2)

section
variable {style : CodeBlockStyle} {layer bound : ℕ} {f g : ℕ → ℕ → ℕ}
variable {subband : SubbandView} {coming : List (ℕ × SubbandView)}
variable {e : PacketSubbandState} {p : Precinct} {contents : List BlockContents}
variable {inclusion zero : TagTreeEncoder} {states : List PacketCodeBlockState}
variable {fields : List HeaderField} {r r' : BitStuffing.BitReader} {bodyLen bodyLen' i : ℕ}

theorem contributionsTo_cons {view : CodeBlockView} (h : subband.codeBlocks[i]? = some view) :
    contributionsTo i ((layer,subband) :: coming) = (layer,view) :: contributionsTo i coming := by
  simp [contributionsTo,h]

theorem mem_contributionsTo {c : ℕ × CodeBlockView} (h : c ∈ contributionsTo i coming) :
    ∃ c' ∈ coming, c'.1 = c.1 := by
  obtain ⟨c',hc',heq⟩ := List.mem_filterMap.mp h
  obtain ⟨view,-,rfl⟩ := Option.map_eq_some_iff.mp heq
  exact ⟨c',hc',rfl⟩

/-- Which views and states a block that is still open came from. -/
theorem open_behind {views : List CodeBlockView} {before behind : List PacketCodeBlockState}
    (h : behind.map (·.previouslyIncluded) = includedBehind views before) {s : PacketCodeBlockState}
    (hs : behind[i]? = some s) (hopen : s.previouslyIncluded = false) :
    ∃ view s', views[i]? = some view ∧ before[i]? = some s' ∧ s'.previouslyIncluded = false ∧
      view.numCodingPasses = 0 := by
  have hbehind : (includedBehind views before)[i]? = some false := by
    rw [← h,List.getElem?_map,hs,← hopen]
    rfl
  rw [includedBehind,List.getElem?_zipWith_eq_some] at hbehind
  obtain ⟨view,s',hview,hs',hfalse⟩ := hbehind
  simp only [Bool.or_eq_false_iff,decide_eq_false_iff_not] at hfalse
  exact ⟨view,s',hview,hs',hfalse.1,by omega⟩

/-- Step lemma: a precinct. -/
theorem formPrecinct_reads (hagree : PrecinctAgrees ((layer,subband) :: coming) e p f g bound)
    (hlayer : layer < (2 ^ 32 - 1) / 2) (hlater : ∀ c ∈ coming, layer < c.1)
    (hlength : e.codeBlocks.length = subband.codeBlocks.length)
    (hreceive : receiveBlocks style layer subband.codeBlocks p.contents = some contents)
    (hform : formBlocks layer e.numCbsX 0 ((subband.codeBlocks.map (·.packetData)).zip e.codeBlocks)
      e.inclusionTree e.zeroBitplaneTree bodyLen = .ok (fields,inclusion,zero,states,bodyLen'))
    (hp : Presents r (bitsOfFields fields) r') :
    ∃ p', resolveSegments style layer p r = .ok (p',r') ∧
      ∃ p'', Takes (readPrecinct layer) p' (subband.codeBlocks.flatMap bodyOf) p'' ∧
        PrecinctAgrees coming
          { e with
            inclusionTree := inclusion
            zeroBitplaneTree := zero
            codeBlocks := states } p'' f g (layer + 1) ∧
        p''.contents = contents := by
  by_cases hempty : e.codeBlocks = []
  · have hsubband : subband.codeBlocks = [] := by
      rw [← List.length_eq_zero_iff,← hlength,hempty]
      rfl
    have hblocks : p.codeBlocks = [] := by
      rw [← List.length_eq_zero_iff,← hagree.blocks.length_eq,hempty]
      rfl
    rw [hsubband,hempty] at hform
    cases hform
    cases hp
    rw [hsubband,Precinct.contents,hblocks] at hreceive
    cases hreceive
    refine ⟨p,?_,p,fun pre post => ?_,⟨Nat.zero_le _,fun h => absurd rfl h,fun h => absurd rfl h,?_,
      fun c hc => ?_,nofun⟩,?_⟩
    · unfold resolveSegments
      rw [hblocks]
      cases p
      cases hblocks
      rfl
    · unfold readPrecinct
      rw [hblocks,hsubband]
      cases p
      cases hblocks
      simp [threadM]
    · rw [hblocks]
      trivial
    · have := hlater c hc
      omega
    · rw [Precinct.contents,hblocks]
      rfl
  · have hpos : 0 < e.codeBlocks.length := List.length_pos_iff.mpr hempty
    have hroom := hagree.room
    have hwidth : 0 < e.numCbsX := Nat.pos_of_mul_pos_right (hpos.trans_le hroom)
    have hbefore := hagree.before (layer,subband) List.mem_cons_self
    have hheaders : HeadersAgree e.numCbsX e.numCbsY f g layer e.inclusionTree e.zeroBitplaneTree
        ⟨p.codeInclusionTree,p.zeroBitplaneTree,r⟩ :=
      ⟨(hagree.inclusion hempty).mono hbefore,hagree.zero hempty⟩
    have hdue : ∀ (k : ℕ) view s, subband.codeBlocks[k]? = some view → e.codeBlocks[k]? = some s →
        s.previouslyIncluded = false → Due (f ((0 + k) % e.numCbsX) ((0 + k) / e.numCbsX))
          (g ((0 + k) % e.numCbsX) ((0 + k) / e.numCbsX)) layer view := by
      intro k view s hview hs hopen
      rw [Nat.zero_add]
      have hforetold := hagree.foretold k s hs hopen
      rw [contributionsTo_cons hview] at hforetold
      apply hforetold.due hlayer
      intro c hc
      obtain ⟨c',hc',heq⟩ := mem_contributionsTo hc
      exact heq ▸ hlater c' hc'
    obtain ⟨hincluded,blocks',h',hthread,hreader,hheaders',blocks'',htakes,hpaired,hcontents⟩ :=
      formBlocks_reads hwidth (by omega) hagree.blocks hheaders hdue hreceive hform hp
    have hcount : states.length = e.codeBlocks.length := by
      have := congrArg List.length hincluded
      simpa [includedBehind,← hlength] using this
    subst hreader
    refine ⟨⟨h'.codeInclusionTree,h'.zeroBitplaneTree,blocks'⟩,?_,
      ⟨h'.codeInclusionTree,h'.zeroBitplaneTree,blocks''⟩,fun pre post => ?_,?_,hcontents⟩
    · unfold resolveSegments
      rw [hthread]
      rfl
    · unfold readPrecinct
      rw [htakes pre post]
      rfl
    · refine ⟨hcount.trans_le hroom,fun _ => hheaders'.inclusion,fun _ => hheaders'.zero,hpaired,
        fun c hc => ?_,fun k s hs hopen => ?_⟩
      · have := hlater c hc
        omega
      · obtain ⟨view,s',hview,hs',hopen',hpasses⟩ := open_behind hincluded hs hopen
        have hforetold := hagree.foretold k s' hs' hopen'
        rw [contributionsTo_cons hview] at hforetold
        exact (Foretells.idle hpasses).mp hforetold

/-- A packet that brings a precinct nothing. -/
theorem PrecinctAgrees.idle (hagree : PrecinctAgrees ((layer,subband) :: coming) e p f g bound)
    (hlength : e.codeBlocks.length = subband.codeBlocks.length)
    (hviews : ∀ view ∈ subband.codeBlocks, view.numCodingPasses = 0) :
    PrecinctAgrees coming e p f g bound := by
  refine ⟨hagree.room,hagree.inclusion,hagree.zero,hagree.blocks,
    fun c hc => hagree.before c (List.mem_cons_of_mem _ hc),fun k s hs hopen => ?_⟩
  have hk : k < subband.codeBlocks.length := by
    rw [← hlength]
    exact (List.getElem?_eq_some_iff.mp hs).1
  have hview := List.getElem?_eq_getElem hk
  have hforetold := hagree.foretold k s hs hopen
  rw [contributionsTo_cons hview] at hforetold
  exact (Foretells.idle (hviews _ (List.getElem_mem hk))).mp hforetold

end

end J2kNative.PacketParsing
