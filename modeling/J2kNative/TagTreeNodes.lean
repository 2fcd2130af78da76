import J2kNative.TagTreeDecoder

/-!
# Nodes of the decoder's tag trees

All tag trees of a tile lie in one vector of nodes, whose size is planned from the levels of
each tree. The builder splits an area into quarters and pushes a quarter behind all that it
has pushed for it, unless the quarter is empty; the root comes last.
-/
namespace J2kNative.TagTreeNodes
open TagTrees (levelSize levelStart divCeil2 lt_levelSize levelStart_succ levelSize_succ)

structure TagNode where
  width : ℕ
  height : ℕ
  value : ℕ
  initialized : Bool
  level : ℕ
  /-- The children in the vector; a child that does not exist has no place. -/
  children : List (Option ℕ)
  deriving DecidableEq, Repr

/-- `push`, the closure of `TagNode::build`: where the child is, and the vector with it. -/
def push (node : TagNode) (nodes : List TagNode) : Option ℕ × List TagNode :=
  if node.width > 0 ∧ node.height > 0 then (some nodes.length,nodes ++ [node]) else (none,nodes)

/-- `TagNode::build`; no value where its assertion fails. -/
def build : ℕ → ℕ → ℕ → List TagNode → Option (TagNode × List TagNode)
  | 0, width, height, nodes =>
      if width ≤ 1 ∧ height ≤ 1 then
        some (⟨width,height,0,false,0,[none,none,none,none]⟩,nodes)
      else none
  | level + 1, width, height, nodes => do
      let topLeftWidth := TagTrees.TagTree.topLeftSize (level + 1) width
      let topLeftHeight := TagTrees.TagTree.topLeftSize (level + 1) height
      let (n₁,nodes) ← build level topLeftWidth topLeftHeight nodes
      let (c₁,nodes) := push n₁ nodes
      let (n₂,nodes) ← build level (width - topLeftWidth) topLeftHeight nodes
      let (c₂,nodes) := push n₂ nodes
      let (n₃,nodes) ← build level topLeftWidth (height - topLeftHeight) nodes
      let (c₃,nodes) := push n₃ nodes
      let (n₄,nodes) ← build level (width - topLeftWidth) (height - topLeftHeight) nodes
      let (c₄,nodes) := push n₄ nodes
      some (⟨width,height,0,false,level + 1,[c₁,c₂,c₃,c₄]⟩,nodes)

structure TagTree where
  root : ℕ
  width : ℕ
  height : ℕ
  deriving DecidableEq, Repr

/-- `TagTree::new`. -/
def TagTree.new (width height : ℕ) (nodes : List TagNode) : Option (TagTree × List TagNode) := do
  let (node,nodes) ← build (TagTrees.ceilLog2 (max width height)) width height nodes
  some (⟨nodes.length,width,height⟩,nodes ++ [node])

/-! ## The plan -/

inductive BuildError where
  | imageTooLarge
  | hostAllocationFailed
  | invalidPrecinct
  /-- The assertion of the tree builder. -/
  | assertion
  deriving DecidableEq, Repr

def usizeMax : ℕ := 2 ^ 64 - 1

/-- The loop of `tag_tree_node_count`. A `u32` is one after 32 halvings. -/
def nodeCountLoop : ℕ → ℕ → ℕ → ℕ → Except BuildError ℕ
  | 0, _, _, _ => .error .imageTooLarge
  | turns + 1, levelWidth, levelHeight, count =>
      if levelWidth * levelHeight > usizeMax then .error .imageTooLarge
      else if count + levelWidth * levelHeight > usizeMax then .error .imageTooLarge
      else if levelWidth = 1 ∧ levelHeight = 1 then .ok (count + levelWidth * levelHeight)
      else nodeCountLoop turns (divCeil2 levelWidth) (divCeil2 levelHeight)
        (count + levelWidth * levelHeight)

/-- `tag_tree_node_count`. -/
def tagTreeNodeCount (width height : ℕ) : Except BuildError ℕ :=
  if width = 0 ∨ height = 0 then .ok 1 else nodeCountLoop 33 width height 0

/-- The part of `build_precincts` that builds both trees of a precinct. -/
def buildPrecinctTrees (capacity columns rows : ℕ) (nodes : List TagNode) :
    Except BuildError (TagTree × TagTree × List TagNode) := do
  let treeNodeCount ← tagTreeNodeCount columns rows
  if treeNodeCount * 2 > usizeMax ∨ nodes.length + treeNodeCount * 2 > usizeMax then
    .error .imageTooLarge
  else if nodes.length + treeNodeCount * 2 > capacity then .error .hostAllocationFailed
  else match (do
      let (codeInclusionTree,nodes) ← TagTree.new columns rows nodes
      let (zeroBitplaneTree,nodes) ← TagTree.new columns rows nodes
      some (codeInclusionTree,zeroBitplaneTree,nodes)) with
    | none => .error .assertion
    | some (codeInclusionTree,zeroBitplaneTree,nodes') =>
        if nodes'.length ≠ nodes.length + treeNodeCount * 2 then .error .invalidPrecinct
        else .ok (codeInclusionTree,zeroBitplaneTree,nodes')

/-! ## Quarters -/

theorem levelSize_zero (level : ℕ) : levelSize 0 level = 0 := by
  have := @lt_levelSize 0 level 0
  omega

theorem levelSize_one {size level : ℕ} (hpos : 0 < size) (hle : size ≤ 2 ^ level) :
    levelSize size level = 1 := by
  have h0 := (@lt_levelSize size level 0).mpr (by omega)
  have h1 := TagTrees.levelSize_le_one.mpr hle
  omega

/-- Cells of two halves, of which the first is full or the second empty. -/
theorem levelSize_add {a b level top : ℕ} (hlevel : level ≤ top) (h : a = 2 ^ top ∨ b = 0) :
    levelSize (a + b) level = levelSize a level + levelSize b level := by
  rcases h with rfl | rfl
  · have hcell : ∀ c, c < levelSize (2 ^ top + b) level ↔
        c < levelSize (2 ^ top) level + levelSize b level := by
      intro c
      have hfull : levelSize (2 ^ top) level = 2 ^ (top - level) := by
        have hlt : ∀ c, c < levelSize (2 ^ top) level ↔ c < 2 ^ (top - level) := fun c => by
          rw [lt_levelSize,← Nat.pow_sub_mul_pow 2 hlevel,Nat.mul_lt_mul_right (Nat.two_pow_pos level)]
        exact le_antisymm (not_lt.mp fun h => Nat.lt_irrefl _ ((hlt _).mp h))
          (not_lt.mp fun h => Nat.lt_irrefl _ ((hlt _).mpr h))
      have htop : 2 ^ (top - level) * 2 ^ level = 2 ^ top := Nat.pow_sub_mul_pow 2 hlevel
      rw [hfull,lt_levelSize]
      by_cases hc : c < 2 ^ (top - level)
      · have : c * 2 ^ level < 2 ^ (top - level) * 2 ^ level :=
          Nat.mul_lt_mul_of_pos_right hc (Nat.two_pow_pos level)
        omega
      · obtain ⟨d,rfl⟩ := Nat.exists_eq_add_of_le (not_lt.mp hc)
        rw [Nat.add_lt_add_iff_left,lt_levelSize,Nat.add_mul,htop]
        omega
    exact le_antisymm (not_lt.mp fun h => Nat.lt_irrefl _ ((hcell _).mp h))
      (not_lt.mp fun h => Nat.lt_irrefl _ ((hcell _).mpr h))
  · rw [Nat.add_zero,levelSize_zero,Nat.add_zero]

/-- The nodes of the four quarters are those below the whole. -/
theorem levelStart_quarters {a b c d top : ℕ} (hab : a = 2 ^ top ∨ b = 0) (hcd : c = 2 ^ top ∨ d = 0) :
    levelStart (a + b) (c + d) (top + 1) = levelStart a c (top + 1) + levelStart b c (top + 1) +
      levelStart a d (top + 1) + levelStart b d (top + 1) := by
  unfold levelStart
  rw [← Finset.sum_add_distrib,← Finset.sum_add_distrib,← Finset.sum_add_distrib]
  refine Finset.sum_congr rfl fun level hlevel => ?_
  have hle : level ≤ top := by
    have := Finset.mem_range.mp hlevel
    omega
  rw [levelSize_add hle hab,levelSize_add hle hcd]
  ring

/-- With its nodes below, a quarter is counted as one more level, also where it is empty. -/
theorem levelStart_quarter {width height level : ℕ} (hw : width ≤ 2 ^ level)
    (hh : height ≤ 2 ^ level) : levelStart width height (level + 1) =
      levelStart width height level + if width > 0 ∧ height > 0 then 1 else 0 := by
  rw [levelStart_succ]
  congr 1
  split_ifs with h
  · rw [levelSize_one h.1 hw,levelSize_one h.2 hh]
  · rcases Nat.eq_zero_or_pos width with rfl | hpos
    · rw [levelSize_zero,Nat.zero_mul]
    · obtain rfl : height = 0 := by omega
      rw [levelSize_zero,Nat.mul_zero]

/-! ## The builder -/

/-- The children of a node lie in the vector from `first` to `last`. -/
def TagNode.Within (node : TagNode) (first last : ℕ) : Prop :=
  ∀ c ∈ node.children, ∀ i ∈ c, first ≤ i ∧ i < last

theorem TagNode.Within.mono {node : TagNode} {first last first' last' : ℕ}
    (h : node.Within first last) (hfirst : first' ≤ first) (hlast : last ≤ last') :
    node.Within first' last' := fun c hc i hi =>
  ⟨hfirst.trans (h c hc i hi).1,(h c hc i hi).2.trans_le hlast⟩

/-- What the builder has pushed for an area: `count` nodes that know their children among them. -/
structure Pushed (nodes pushed : List TagNode) (count : ℕ) : Prop where
  length : pushed.length = count
  within : ∀ node ∈ pushed, node.Within nodes.length (nodes.length + pushed.length)

theorem Pushed.append {nodes pushed pushed' : List TagNode} {count count' : ℕ}
    (h : Pushed nodes pushed count) (h' : Pushed (nodes ++ pushed) pushed' count') :
    Pushed nodes (pushed ++ pushed') (count + count') := by
  refine ⟨by rw [List.length_append,h.length,h'.length],fun node hnode => ?_⟩
  rw [List.length_append]
  rcases List.mem_append.mp hnode with hnode | hnode
  · exact (h.within node hnode).mono le_rfl (by omega)
  · have hwithin := h'.within node hnode
    rw [List.length_append] at hwithin
    exact hwithin.mono (by omega) (by omega)

/-- A quarter that has been built is pushed behind its nodes, unless it is empty. -/
theorem push_spec {node : TagNode} {nodes pushed : List TagNode} {count : ℕ}
    (h : Pushed nodes pushed count) (hnode : node.Within nodes.length (nodes.length + pushed.length)) :
    ∃ c pushed', push node (nodes ++ pushed) = (c,nodes ++ pushed') ∧
      Pushed nodes pushed' (count + if node.width > 0 ∧ node.height > 0 then 1 else 0) ∧
      ∀ i ∈ c, nodes.length ≤ i ∧ i < nodes.length + pushed'.length := by
  unfold push
  split_ifs with hsize
  · refine ⟨some (nodes ++ pushed).length,pushed ++ [node],by rw [List.append_assoc],?_,?_⟩
    · refine ⟨by rw [List.length_append,h.length]; rfl,fun x hx => ?_⟩
      rw [List.length_append]
      rcases List.mem_append.mp hx with hx | hx
      · exact (h.within x hx).mono le_rfl (by omega)
      · obtain rfl := List.mem_singleton.mp hx
        exact hnode.mono le_rfl (by omega)
    · rintro i hi
      obtain rfl := Option.mem_some_iff.mp hi
      simp only [List.length_append,List.length_cons,List.length_nil]
      omega
  · exact ⟨none,pushed,rfl,h,fun i hi => by cases hi⟩

/-- The builder of an area ends, with the node of the area and those below it pushed. -/
def Builds (level width height : ℕ) (nodes : List TagNode) : Prop :=
  ∃ node pushed, build level width height nodes = some (node,nodes ++ pushed) ∧
    node.width = width ∧ node.height = height ∧
    Pushed nodes pushed (levelStart width height level) ∧
    node.Within nodes.length (nodes.length + pushed.length)

/-- A quarter and its nodes. -/
theorem Builds.child {level width height : ℕ} {nodes : List TagNode}
    (h : Builds level width height nodes) (hw : width ≤ 2 ^ level) (hh : height ≤ 2 ^ level) :
    ∃ node nodes' c pushed, build level width height nodes = some (node,nodes') ∧
      push node nodes' = (c,nodes ++ pushed) ∧
      Pushed nodes pushed (levelStart width height (level + 1)) ∧
      ∀ i ∈ c, nodes.length ≤ i ∧ i < nodes.length + pushed.length := by
  obtain ⟨node,pushed,hbuild,rfl,rfl,hpushed,hnode⟩ := h
  obtain ⟨c,pushed',hpush,hpushed',hc⟩ := push_spec hpushed hnode
  rw [← levelStart_quarter hw hh] at hpushed'
  exact ⟨node,_,c,pushed',hbuild,hpush,hpushed',hc⟩

theorem topLeftSize_cases {level size : ℕ} (h : size ≤ 2 ^ (level + 1)) :
    ∃ a b, size = a + b ∧ TagTrees.TagTree.topLeftSize (level + 1) size = a ∧
      (a = 2 ^ level ∨ b = 0) ∧ a ≤ 2 ^ level ∧ b ≤ 2 ^ level := by
  unfold TagTrees.TagTree.topLeftSize
  rw [Nat.pow_succ] at h
  rw [Nat.add_sub_cancel]
  exact ⟨min (2 ^ level) size,size - min (2 ^ level) size,by omega,rfl,by omega,by omega,by omega⟩

theorem builds {level width height : ℕ} (hw : width ≤ 2 ^ level) (hh : height ≤ 2 ^ level)
    (nodes : List TagNode) : Builds level width height nodes := by
  induction level generalizing width height nodes with
  | zero =>
      refine ⟨⟨width,height,0,false,0,[none,none,none,none]⟩,[],?_,rfl,rfl,⟨rfl,nofun⟩,?_⟩
      · rw [build,if_pos ⟨hw,hh⟩,List.append_nil]
      · intro c hc i hi
        obtain rfl : c = none := by simpa using hc
        cases hi
  | succ level ih =>
      obtain ⟨a,b,rfl,ha,hab,hale,hble⟩ := topLeftSize_cases hw
      obtain ⟨c,d,rfl,hc,hcd,hcle,hdle⟩ := topLeftSize_cases hh
      obtain ⟨n₁,m₁,c₁,p₁,hbuild₁,hpush₁,hp₁,hc₁⟩ := (ih hale hcle nodes).child hale hcle
      obtain ⟨n₂,m₂,c₂,p₂,hbuild₂,hpush₂,hp₂,hc₂⟩ := (ih hble hcle (nodes ++ p₁)).child hble hcle
      obtain ⟨n₃,m₃,c₃,p₃,hbuild₃,hpush₃,hp₃,hc₃⟩ :=
        (ih hale hdle (nodes ++ p₁ ++ p₂)).child hale hdle
      obtain ⟨n₄,m₄,c₄,p₄,hbuild₄,hpush₄,hp₄,hc₄⟩ :=
        (ih hble hdle (nodes ++ p₁ ++ p₂ ++ p₃)).child hble hdle
      have hall : Pushed nodes (p₁ ++ (p₂ ++ (p₃ ++ p₄))) (levelStart (a + b) (c + d) (level + 1)) := by
        rw [levelStart_quarters hab hcd,Nat.add_assoc,Nat.add_assoc]
        refine hp₁.append (hp₂.append (hp₃.append ?_))
        exact hp₄
      refine ⟨⟨a + b,c + d,0,false,level + 1,[c₁,c₂,c₃,c₄]⟩,p₁ ++ (p₂ ++ (p₃ ++ p₄)),?_,rfl,rfl,hall,?_⟩
      · rw [build]
        simp only [ha,hc,Nat.add_sub_cancel_left,hbuild₁,hpush₁,hbuild₂,hpush₂,hbuild₃,hpush₃,hbuild₄,hpush₄,
          Option.bind_eq_bind,Option.bind_some]
        rw [List.append_assoc,List.append_assoc,List.append_assoc]
      · simp only [List.length_append] at hc₂ hc₃ hc₄ ⊢
        intro x hx i hi
        simp only [List.mem_cons,List.not_mem_nil,or_false] at hx
        rcases hx with rfl | rfl | rfl | rfl
        · have := hc₁ i hi
          omega
        · have := hc₂ i hi
          omega
        · have := hc₃ i hi
          omega
        · have := hc₄ i hi
          omega

/-! ## Trees in the vector -/

/-- Nodes of a tag tree: those of every level, and a root where there is no leaf. -/
def treeSize (width height : ℕ) : ℕ :=
  levelStart width height (TagTrees.ceilLog2 (max width height)) + 1

/-- A tree whose nodes are those of the vector from `first` to `last`. -/
structure Occupies (nodes : List TagNode) (tree : TagTree) (first last : ℕ) : Prop where
  le_length : last ≤ nodes.length
  root : tree.root + 1 = last
  nonempty : first < last
  within : ∀ i, first ≤ i → ∀ (h : i < nodes.length), i < last → nodes[i].Within first last

theorem Occupies.append {nodes : List TagNode} {tree : TagTree} {first last : ℕ}
    (h : Occupies nodes tree first last) (more : List TagNode) :
    Occupies (nodes ++ more) tree first last := by
  refine ⟨h.le_length.trans (by simp),h.root,h.nonempty,fun i hi hlt hlast => ?_⟩
  have hold : i < nodes.length := hlast.trans_le h.le_length
  rw [List.getElem_append_left hold]
  exact h.within i hi hold hlast

theorem TagTree.new_spec (width height : ℕ) (nodes : List TagNode) :
    ∃ tree pushed, TagTree.new width height nodes = some (tree,nodes ++ pushed) ∧
      tree.width = width ∧ tree.height = height ∧ pushed.length = treeSize width height ∧
      Occupies (nodes ++ pushed) tree nodes.length (nodes.length + treeSize width height) := by
  have hle := TagTrees.ceilLog2_le.mp (le_refl (TagTrees.ceilLog2 (max width height)))
  rw [max_le_iff] at hle
  obtain ⟨node,pushed,hbuild,-,-,hpushed,hnode⟩ := builds hle.1 hle.2 nodes
  have hlength : (pushed ++ [node]).length = treeSize width height := by
    rw [List.length_append,hpushed.length]
    rfl
  refine ⟨⟨(nodes ++ pushed).length,width,height⟩,pushed ++ [node],?_,rfl,rfl,hlength,?_⟩
  · unfold TagTree.new
    rw [hbuild]
    simp only [Option.bind_eq_bind,Option.bind_some,List.append_assoc]
  · have hsize : treeSize width height = pushed.length + 1 := by
      rw [← hlength,List.length_append]
      rfl
    refine ⟨by rw [List.length_append,hlength],?_,by omega,fun i hi hlt hlast => ?_⟩
    · show (nodes ++ pushed).length + 1 = nodes.length + treeSize width height
      rw [List.length_append]
      omega
    · have hmem : (nodes ++ (pushed ++ [node]))[i] ∈ pushed ++ [node] := by
        rw [List.getElem_append_right hi]
        exact List.getElem_mem _
      rw [hsize]
      rcases List.mem_append.mp hmem with hmem | hmem
      · exact (hpushed.within _ hmem).mono le_rfl (by omega)
      · rw [List.mem_singleton.mp hmem]
        exact hnode.mono le_rfl (by omega)

/-! ## The planned number -/

theorem levelStart_shift (width height level : ℕ) : levelStart width height (level + 1) =
    width * height + levelStart (divCeil2 width) (divCeil2 height) level := by
  unfold levelStart
  rw [Finset.sum_range_succ']
  exact Nat.add_comm _ _

theorem ceilLog2_divCeil2 {size : ℕ} (h : 1 < size) :
    TagTrees.ceilLog2 size = TagTrees.ceilLog2 (divCeil2 size) + 1 := by
  have hiff : ∀ level, TagTrees.ceilLog2 size ≤ level + 1 ↔
      TagTrees.ceilLog2 (divCeil2 size) + 1 ≤ level + 1 := by
    intro level
    rw [Nat.add_le_add_iff_right,TagTrees.ceilLog2_le,TagTrees.ceilLog2_le,divCeil2,Nat.pow_succ]
    omega
  have hpos : 0 < TagTrees.ceilLog2 size := by
    by_contra h0
    have := TagTrees.ceilLog2_le.mp (Nat.le_zero.mpr (Nat.eq_zero_of_not_pos h0))
    omega
  obtain ⟨k,hk⟩ := Nat.exists_eq_succ_of_ne_zero hpos.ne'
  rw [hk]
  exact le_antisymm (not_lt.mp fun h => by
    have := (hiff (TagTrees.ceilLog2 (divCeil2 size))).mpr le_rfl
    omega) ((hiff k).mp hk.le)

/-- The plan counts the nodes of a tree from the given level on, if there are not too many. -/
theorem nodeCountLoop_eq {turns width height count : ℕ} (hw : 0 < width) (hh : 0 < height)
    (hturns : TagTrees.ceilLog2 (max width height) < turns) :
    nodeCountLoop turns width height count =
      if count + treeSize width height ≤ usizeMax then .ok (count + treeSize width height)
      else .error .imageTooLarge := by
  induction turns generalizing width height count with
  | zero => omega
  | succ turns ih =>
      unfold nodeCountLoop
      by_cases hone : width = 1 ∧ height = 1
      · obtain ⟨rfl,rfl⟩ := hone
        have hsize : treeSize 1 1 = 1 * 1 := rfl
        rw [hsize]
        split_ifs <;> first | rfl | omega
      · have hmax : 1 < max width height := by omega
        have hdiv : max (divCeil2 width) (divCeil2 height) = divCeil2 (max width height) := by
          unfold divCeil2
          omega
        have hlevel := ceilLog2_divCeil2 hmax
        have hsize : treeSize width height =
            width * height + treeSize (divCeil2 width) (divCeil2 height) := by
          unfold treeSize
          rw [hdiv,hlevel,levelStart_shift,Nat.add_assoc]
        rw [if_neg hone,ih (by unfold divCeil2; omega) (by unfold divCeil2; omega)
          (by rw [hdiv]; omega),hsize,Nat.add_assoc]
        split_ifs <;> first | rfl | omega

theorem tagTreeNodeCount_eq {width height : ℕ} (hw : width < 2 ^ 32) (hh : height < 2 ^ 32) :
    tagTreeNodeCount width height =
      if treeSize width height ≤ usizeMax then .ok (treeSize width height)
      else .error .imageTooLarge := by
  have hempty : width = 0 ∨ height = 0 → treeSize width height = 1 := by
    intro hempty
    unfold treeSize levelStart
    rw [Finset.sum_eq_zero fun level _ => ?_]
    rcases hempty with rfl | rfl
    · rw [levelSize_zero,Nat.zero_mul]
    · rw [levelSize_zero,Nat.mul_zero]
  unfold tagTreeNodeCount
  split_ifs with h hfits hfits
  · rw [hempty h]
  · exact absurd (by rw [hempty h]; decide) hfits
  all_goals
    rw [not_or] at h
    have hturns : TagTrees.ceilLog2 (max width height) < 33 :=
      Nat.lt_succ_of_le (TagTrees.ceilLog2_le.mpr (max_le hw.le hh.le))
    rw [nodeCountLoop_eq (Nat.pos_of_ne_zero h.1) (Nat.pos_of_ne_zero h.2) hturns,Nat.zero_add]
  · exact if_pos hfits
  · exact if_neg hfits

theorem tagTreeNodeCount_ok {width height count : ℕ} (hw : width < 2 ^ 32) (hh : height < 2 ^ 32)
    (h : tagTreeNodeCount width height = .ok count) : count = treeSize width height := by
  rw [tagTreeNodeCount_eq hw hh] at h
  split_ifs at h
  exact (Except.ok.inj h).symm

/-! ## One tree behind the other -/

/-- Trees of the given sizes, built one after the other. -/
def newTrees : List (ℕ × ℕ) → List TagNode → Option (List TagTree × List TagNode)
  | [], nodes => some ([],nodes)
  | (width,height) :: sizes, nodes => do
      let (tree,nodes) ← TagTree.new width height nodes
      let (trees,nodes) ← newTrees sizes nodes
      some (tree :: trees,nodes)

/-- A vector in which each tree begins where the tree before it ends. -/
structure Adjacent (nodes nodes' : List TagNode) (trees : List TagTree) (counts : List ℕ) : Prop where
  kept : nodes <+: nodes'
  length : nodes'.length = nodes.length + counts.sum
  trees_length : trees.length = counts.length
  occupies : ∀ i, ∀ (h : i < trees.length), Occupies nodes' trees[i]
    (nodes.length + (counts.take i).sum) (nodes.length + (counts.take (i + 1)).sum)

theorem newTrees_adjacent {sizes : List (ℕ × ℕ)} {counts : List ℕ}
    (hsizes : ∀ s ∈ sizes, s.1 < 2 ^ 32 ∧ s.2 < 2 ^ 32)
    (hcounts : sizes.mapM (fun s => tagTreeNodeCount s.1 s.2) = .ok counts) (nodes : List TagNode) :
    ∃ trees nodes', newTrees sizes nodes = some (trees,nodes') ∧ Adjacent nodes nodes' trees counts := by
  induction sizes generalizing counts nodes with
  | nil =>
      obtain rfl : [] = counts := Except.ok.inj hcounts
      exact ⟨[],nodes,rfl,List.prefix_rfl,rfl,rfl,nofun⟩
  | cons s sizes ih =>
      obtain ⟨width,height⟩ := s
      rw [List.mapM_cons] at hcounts
      obtain ⟨count,hcount,hcounts⟩ := Fallible.bind_eq_ok.mp hcounts
      obtain ⟨rest,hrest,hcounts⟩ := Fallible.bind_eq_ok.mp hcounts
      obtain rfl : count :: rest = counts := Except.ok.inj hcounts
      have hsize := hsizes (width,height) List.mem_cons_self
      obtain rfl := tagTreeNodeCount_ok hsize.1 hsize.2 hcount
      obtain ⟨tree,pushed,hnew,-,-,hlength,hoccupies⟩ := TagTree.new_spec width height nodes
      obtain ⟨trees,nodes',htrees,h⟩ :=
        ih (fun s hs => hsizes s (List.mem_cons_of_mem _ hs)) hrest (nodes ++ pushed)
      refine ⟨tree :: trees,nodes',?_,(List.prefix_append nodes pushed).trans h.kept,?_,?_,?_⟩
      · rw [newTrees,hnew]
        simp only [Option.bind_eq_bind,Option.bind_some,htrees]
      · rw [h.length,List.length_append,hlength,List.sum_cons,Nat.add_assoc]
      · rw [List.length_cons,List.length_cons,h.trees_length]
      · intro i hi
        cases i with
        | zero =>
            obtain ⟨more,rfl⟩ := h.kept
            simpa using hoccupies.append more
        | succ i =>
            have hnext := h.occupies i (Nat.lt_of_succ_lt_succ hi)
            rw [List.length_append,hlength] at hnext
            simp only [List.getElem_cons_succ,List.take_succ_cons,List.sum_cons,← Nat.add_assoc]
            exact hnext

/-- The trees of a precinct fill what is planned for them. -/
theorem buildPrecinctTrees_planned (capacity : ℕ) {columns rows : ℕ} (hcolumns : columns < 2 ^ 32)
    (hrows : rows < 2 ^ 32) (nodes : List TagNode) :
    (∃ trees, buildPrecinctTrees capacity columns rows nodes = .ok trees) ∨
      buildPrecinctTrees capacity columns rows nodes = .error .imageTooLarge ∨
      buildPrecinctTrees capacity columns rows nodes = .error .hostAllocationFailed := by
  unfold buildPrecinctTrees
  rw [tagTreeNodeCount_eq hcolumns hrows]
  split_ifs with hfits
  · obtain ⟨tree,pushed,hnew,-,-,hlength,-⟩ := TagTree.new_spec columns rows nodes
    obtain ⟨tree',pushed',hnew',-,-,hlength',-⟩ := TagTree.new_spec columns rows (nodes ++ pushed)
    have hend : (nodes ++ pushed ++ pushed').length = nodes.length + treeSize columns rows * 2 := by
      rw [List.length_append,List.length_append,hlength,hlength']
      omega
    rw [Fallible.ok_bind]
    split_ifs
    · exact .inr (.inl rfl)
    · exact .inr (.inr rfl)
    · simp only [hnew,hnew',Option.bind_eq_bind,Option.bind_some,hend,ne_eq,not_true_eq_false,
        if_false]
      exact .inl ⟨_,rfl⟩
  · exact .inr (.inl rfl)

/-- The plan reserves the nodes that the builder pushes, so that the trees of any sizes lie in
ranges of the planned sizes, each behind the one before it. -/
theorem tag_tree_node_count (nodes : List TagNode) {sizes : List (ℕ × ℕ)}
    (hsizes : ∀ s ∈ sizes, s.1 < 2 ^ 32 ∧ s.2 < 2 ^ 32) :
    (∀ s ∈ sizes, ∃ tree pushed, TagTree.new s.1 s.2 nodes = some (tree,nodes ++ pushed) ∧
      tagTreeNodeCount s.1 s.2 =
        if pushed.length ≤ usizeMax then .ok pushed.length else .error .imageTooLarge) ∧
    ∀ counts, sizes.mapM (fun s => tagTreeNodeCount s.1 s.2) = .ok counts →
      ∃ trees nodes', newTrees sizes nodes = some (trees,nodes') ∧
        Adjacent nodes nodes' trees counts := by
  refine ⟨fun s hs => ?_,fun counts hcounts => newTrees_adjacent hsizes hcounts nodes⟩
  obtain ⟨tree,pushed,hnew,-,-,hlength,-⟩ := TagTree.new_spec s.1 s.2 nodes
  refine ⟨tree,pushed,hnew,?_⟩
  rw [hlength]
  exact tagTreeNodeCount_eq (hsizes s hs).1 (hsizes s hs).2

/-- A tree without leaves between trees of 15 and of 2 leaves. -/
theorem tag_tree_node_count_three : ∃ trees nodes',
    newTrees [(5,3),(0,7),(1,2)] [] = some (trees,nodes') ∧
      Adjacent [] nodes' trees [24,1,3] :=
  (tag_tree_node_count [] (by decide)).2 [24,1,3] (by decide)

end J2kNative.TagTreeNodes
