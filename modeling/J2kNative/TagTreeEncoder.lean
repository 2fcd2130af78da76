import J2kNative.CodestreamWriter
import J2kNative.Fallible
import J2kNative.CountedLoops
import Mathlib.Algebra.BigOperators.Group.Finset.Basic
import Mathlib.Algebra.Order.BigOperators.Group.Finset
import Mathlib.Algebra.Order.Floor.Div
import Mathlib.Logic.Function.Iterate

/-!
# Tag-tree encoder

The levels of the tree lie one behind the other in a flat vector, the leaves first. Over it
stands the pyramid, in which a node is found by its level and its cell. The bits written are
a list, memory that cannot be had is left out, and the indices within a level fit where its
number of nodes does.
-/
namespace J2kNative.TagTrees
open CodestreamWriter CountedLoops Fallible

structure TagNode where
  value : ℕ
  currentValue : ℕ
  known : Bool
  deriving DecidableEq, Repr

structure TagTreeEncoder where
  nodes : Buffer TagNode
  width : ℕ
  height : ℕ
  levelOffsets : List ℕ

def maxTagTreeLevels : ℕ := 33

def divCeil2 (n : ℕ) : ℕ := (n + 1) / 2

/-- Nodes along an edge of a level. -/
def levelSize (n level : ℕ) : ℕ := divCeil2^[level] n

/-- The loop of `try_new`: the offsets of the levels. -/
def levelLoop : ℕ → ℕ → ℕ → ℕ → Except EncodeError (List ℕ)
  | 0, _, _, _ => .error (.internalInvariant "tag-tree depth exceeded the u32 geometry bound")
  | levels + 1, w, h, totalNodes =>
      if w * h ≥ 2 ^ 32 then .error (.arithmeticOverflow "tag-tree level node count")
      else if totalNodes + w * h ≥ 2 ^ 64 then .error (.arithmeticOverflow "tag-tree total node count")
      else if w ≤ 1 ∧ h ≤ 1 then .ok [totalNodes]
      else do
        let levelOffsets ← levelLoop levels (divCeil2 w) (divCeil2 h) (totalNodes + w * h)
        .ok (totalNodes :: levelOffsets)

def tryNew (width height : ℕ) : Except EncodeError TagTreeEncoder :=
  if (width = 0) ≠ (height = 0) then
    .error (.invalidInput "tag-tree dimensions must both be zero or both be nonzero")
  else do
    let levelOffsets ← levelLoop maxTagTreeLevels width height 0
    .ok ⟨fun _ => ⟨0,0,false⟩,width,height,levelOffsets⟩

/-- What one node of the path writes. -/
def TagNode.encode (node : TagNode) (parentVal maxVal : ℕ) :
    List Bool × TagNode :=
  if node.known then ([],node)
  else
    let start := max node.currentValue parentVal
    let target := min node.value maxVal
    (List.replicate (target - start) false ++ if node.value < maxVal then [true] else [],
      { node with
        known := node.value < maxVal
        currentValue := target })

namespace TagTreeEncoder
variable (e : TagTreeEncoder)

def numLevels : ℕ := e.levelOffsets.length

/-- `checked_node_index`, at a level. -/
def nodeIndex (level x y : ℕ) : ℕ :=
  e.levelOffsets.getD level 0 + (y * levelSize e.width level + x)

/-- The cells under a cell, as far as they exist. -/
def children (level cx cy : ℕ) : List (ℕ × ℕ) :=
  (List.range' (cy * 2) (min ((cy + 1) * 2) (levelSize e.height level) - cy * 2)).flatMap fun ccy =>
    (List.range' (cx * 2) (min ((cx + 1) * 2) (levelSize e.width level) - cx * 2)).map fun ccx =>
      (ccx,ccy)

def minVal (nodes : Buffer TagNode) (level cx cy : ℕ) : ℕ :=
  (e.children level cx cy).foldl
    (fun m child => min m (nodes (e.nodeIndex level child.1 child.2)).value) (2 ^ 32 - 1)

/-- One turn of the loop of `set_value`. -/
def propagate (x y : ℕ) (nodes : Buffer TagNode) (level : ℕ) : Buffer TagNode :=
  let parentIdx := e.nodeIndex level (x / 2 ^ level) (y / 2 ^ level)
  nodes.set parentIdx { nodes parentIdx with
    value := e.minVal nodes (level - 1) (x / 2 ^ level) (y / 2 ^ level) }

def setValue (x y value : ℕ) : Except EncodeError TagTreeEncoder :=
  if x ≥ e.width ∨ y ≥ e.height then
    .error (.invalidInput "tag-tree leaf coordinate is out of range")
  else
    let idx := e.nodeIndex 0 x y
    .ok { e with
      nodes := (List.range' 1 (e.numLevels - 1)).foldl (e.propagate x y)
        (e.nodes.set idx { e.nodes idx with value }) }

/-- The loop of `encode` over the path, from the root on. -/
def encodePath (x y maxVal : ℕ) : ℕ → ℕ → Buffer TagNode → List Bool × Buffer TagNode
  | 0, _, nodes => ([],nodes)
  | level + 1, parentVal, nodes =>
      let i := e.nodeIndex level (x / 2 ^ level) (y / 2 ^ level)
      let node := (nodes i).encode parentVal maxVal
      let rest := encodePath x y maxVal level node.2.currentValue (nodes.set i node.2)
      (node.1 ++ rest.1,rest.2)

def encode (x y maxVal : ℕ) : Except EncodeError (List Bool × TagTreeEncoder) :=
  if x ≥ e.width ∨ y ≥ e.height then
    .error (.invalidInput "tag-tree encode coordinate is out of range")
  else
    let path := e.encodePath x y maxVal e.numLevels 0 e.nodes
    .ok (path.1,{ e with nodes := path.2 })

end TagTreeEncoder

/-! ## Geometry -/

theorem levelSize_succ (n level : ℕ) : levelSize n (level + 1) = divCeil2 (levelSize n level) :=
  Function.iterate_succ_apply' _ _ _

/-- A cell of a level exists where its first leaf does. -/
theorem lt_levelSize {n level c : ℕ} : c < levelSize n level ↔ c * 2 ^ level < n := by
  induction level generalizing c with
  | zero => rw [Nat.pow_zero,Nat.mul_one]; rfl
  | succ level ih =>
      rw [levelSize_succ,divCeil2,Nat.pow_succ,Nat.mul_comm (2 ^ level) 2,← Nat.mul_assoc,← ih]
      omega

theorem div_lt_levelSize {n x : ℕ} (h : x < n) (level : ℕ) : x / 2 ^ level < levelSize n level :=
  lt_levelSize.mpr ((Nat.div_mul_le_self _ _).trans_lt h)

theorem div_two_div (x level : ℕ) : x / 2 ^ level / 2 = x / 2 ^ (level + 1) := by
  rw [Nat.div_div_eq_div_mul,Nat.pow_succ]

/-- Nodes before a level. -/
def levelStart (width height level : ℕ) : ℕ :=
  ∑ i ∈ Finset.range level, levelSize width i * levelSize height i

theorem levelStart_succ (width height level : ℕ) : levelStart width height (level + 1) =
    levelStart width height level + levelSize width level * levelSize height level :=
  Finset.sum_range_succ _ _

theorem levelStart_mono (width height : ℕ) {a b : ℕ} (h : a ≤ b) :
    levelStart width height a ≤ levelStart width height b :=
  Finset.sum_le_sum_of_subset (Finset.range_mono h)

/-- The flat vector holds one level behind the other, the last of a single node. -/
structure Laid (e : TagTreeEncoder) : Prop where
  levels : 0 < e.numLevels
  offsets : ∀ level < e.numLevels,
    e.levelOffsets.getD level 0 = levelStart e.width e.height level
  top : levelSize e.width (e.numLevels - 1) ≤ 1 ∧ levelSize e.height (e.numLevels - 1) ≤ 1
  below : ∀ level < e.numLevels - 1,
    ¬(levelSize e.width level ≤ 1 ∧ levelSize e.height level ≤ 1)

theorem levelLoop_ok {turns w h totalNodes : ℕ} {offsets : List ℕ}
    (hok : levelLoop turns w h totalNodes = .ok offsets) :
    ∃ top, offsets.length = top + 1 ∧
      (∀ level < top + 1, offsets.getD level 0 = totalNodes + levelStart w h level) ∧
      (levelSize w top ≤ 1 ∧ levelSize h top ≤ 1) ∧
      ∀ level < top, ¬(levelSize w level ≤ 1 ∧ levelSize h level ≤ 1) := by
  induction turns generalizing w h totalNodes offsets with
  | zero => cases hok
  | succ turns ih =>
      unfold levelLoop at hok
      split_ifs at hok with h32 h64 hsmall
      · cases hok
        refine ⟨0,rfl,fun level hlevel => ?_,hsmall,nofun⟩
        obtain rfl : level = 0 := by omega
        rfl
      · obtain ⟨rest,hrest,hok⟩ := bind_eq_ok.mp hok
        cases hok
        obtain ⟨top,hlength,hoffsets,htop,hbelow⟩ := ih hrest
        refine ⟨top + 1,congrArg (· + 1) hlength,fun level hlevel => ?_,htop,fun level hlevel => ?_⟩
        · cases level with
          | zero => rfl
          | succ level =>
              rw [List.getD_cons_succ,hoffsets level (by omega)]
              unfold levelStart
              rw [Finset.sum_range_succ',Nat.add_assoc,Nat.add_comm (w * h)]
              rfl
        · cases level with
          | zero => exact hsmall
          | succ level => exact hbelow level (by omega)

theorem laid_of_tryNew {width height : ℕ} {e : TagTreeEncoder} (h : tryNew width height = .ok e) :
    Laid e ∧ e.width = width ∧ e.height = height ∧ e.nodes = fun _ => ⟨0,0,false⟩ := by
  unfold tryNew at h
  split_ifs at h
  obtain ⟨offsets,hloop,h⟩ := bind_eq_ok.mp h
  cases h
  obtain ⟨top,hlength,hoffsets,htop,hbelow⟩ := levelLoop_ok hloop
  have hlevels : (⟨fun _ => ⟨0,0,false⟩,width,height,offsets⟩ : TagTreeEncoder).numLevels =
      top + 1 := hlength
  refine ⟨⟨by omega,fun level hlevel => ?_,?_,fun level hlevel => ?_⟩,rfl,rfl,rfl⟩
  · rw [hoffsets level (by omega),Nat.zero_add]
  · rwa [hlevels,Nat.add_sub_cancel]
  · exact hbelow level (by omega)

/-! ## The pyramid -/

abbrev Pyramid := ℕ → ℕ → ℕ → TagNode

def Pyramid.set (p : Pyramid) (level cx cy : ℕ) (node : TagNode) : Pyramid :=
  fun l x y => if l = level ∧ x = cx ∧ y = cy then node else p l x y

@[simp] theorem Pyramid.set_self (p : Pyramid) (level cx cy : ℕ) (node : TagNode) :
    p.set level cx cy node level cx cy = node := if_pos ⟨rfl,rfl,rfl⟩

theorem Pyramid.set_of_ne (p : Pyramid) {level cx cy l x y : ℕ} (node : TagNode)
    (h : ¬(l = level ∧ x = cx ∧ y = cy)) : p.set level cx cy node l x y = p l x y := if_neg h

/-- `encode` in the pyramid. -/
def Pyramid.encodePath (x y maxVal : ℕ) : ℕ → ℕ → Pyramid → List Bool × Pyramid
  | 0, _, p => ([],p)
  | level + 1, parentVal, p =>
      let node := (p level (x / 2 ^ level) (y / 2 ^ level)).encode parentVal maxVal
      let rest := encodePath x y maxVal level node.2.currentValue
        (p.set level (x / 2 ^ level) (y / 2 ^ level) node.2)
      (node.1 ++ rest.1,rest.2)

/-- The cell exists. -/
def Cell (width height level cx cy : ℕ) : Prop :=
  cx < levelSize width level ∧ cy < levelSize height level

/-- The flat vector shows the pyramid. -/
def Shows (e : TagTreeEncoder) (nodes : Buffer TagNode) (p : Pyramid) : Prop :=
  ∀ level < e.numLevels, ∀ cx cy, Cell e.width e.height level cx cy →
    nodes (e.nodeIndex level cx cy) = p level cx cy

section
variable {e : TagTreeEncoder} {nodes : Buffer TagNode} {p : Pyramid} {level cx cy : ℕ}

theorem Laid.nodeIndex_bounds (he : Laid e) (hlevel : level < e.numLevels)
    (hcell : Cell e.width e.height level cx cy) :
    levelStart e.width e.height level ≤ e.nodeIndex level cx cy ∧
      e.nodeIndex level cx cy < levelStart e.width e.height (level + 1) := by
  have hrow : (cy + 1) * levelSize e.width level ≤
      levelSize e.height level * levelSize e.width level := Nat.mul_le_mul_right _ hcell.2
  have hx := hcell.1
  unfold TagTreeEncoder.nodeIndex
  rw [he.offsets level hlevel,levelStart_succ,Nat.mul_comm (levelSize e.width level)]
  rw [Nat.add_one_mul] at hrow
  omega

/-- No two cells share a place of the flat vector. -/
theorem Laid.nodeIndex_inj (he : Laid e) {level' cx' cy' : ℕ} (hlevel : level < e.numLevels)
    (hlevel' : level' < e.numLevels) (hcell : Cell e.width e.height level cx cy)
    (hcell' : Cell e.width e.height level' cx' cy')
    (heq : e.nodeIndex level cx cy = e.nodeIndex level' cx' cy') :
    level = level' ∧ cx = cx' ∧ cy = cy' := by
  have hb := he.nodeIndex_bounds hlevel hcell
  have hb' := he.nodeIndex_bounds hlevel' hcell'
  obtain rfl : level = level' := by
    rcases Nat.lt_trichotomy level level' with hlt | rfl | hgt
    · have := levelStart_mono e.width e.height (show level + 1 ≤ level' from hlt)
      omega
    · rfl
    · have := levelStart_mono e.width e.height (show level' + 1 ≤ level from hgt)
      omega
  unfold TagTreeEncoder.nodeIndex at heq
  have hrow : cy * levelSize e.width level + cx = cy' * levelSize e.width level + cx' := by omega
  have hx : cx = cx' := by
    have := congrArg (· % levelSize e.width level) hrow
    simpa only [Nat.mul_add_mod',Nat.mod_eq_of_lt hcell.1,Nat.mod_eq_of_lt hcell'.1] using this
  refine ⟨rfl,hx,?_⟩
  have hpos : 0 < levelSize e.width level := by have := hcell.1; omega
  exact Nat.eq_of_mul_eq_mul_right hpos (by omega)

theorem Shows.set (h : Shows e nodes p) (he : Laid e) (hlevel : level < e.numLevels)
    (hcell : Cell e.width e.height level cx cy) (node : TagNode) :
    Shows e (nodes.set (e.nodeIndex level cx cy) node) (p.set level cx cy node) := by
  intro l hl x y hxy
  by_cases hsame : l = level ∧ x = cx ∧ y = cy
  · obtain ⟨rfl,rfl,rfl⟩ := hsame
    rw [Buffer.set_self,Pyramid.set_self]
  · rw [Buffer.set_of_ne _ _ fun heq => hsame (he.nodeIndex_inj hl hlevel hxy hcell heq),
      Pyramid.set_of_ne _ _ hsame]
    exact h l hl x y hxy

/-- The flat encoder refines the one of the pyramid. -/
theorem Shows.encodePath (h : Shows e nodes p) (he : Laid e) {x y : ℕ} (hx : x < e.width)
    (hy : y < e.height) (maxVal parentVal : ℕ) (hlevel : level ≤ e.numLevels) :
    (e.encodePath x y maxVal level parentVal nodes).1 =
        (p.encodePath x y maxVal level parentVal).1 ∧
      Shows e (e.encodePath x y maxVal level parentVal nodes).2
        (p.encodePath x y maxVal level parentVal).2 := by
  induction level generalizing parentVal nodes p with
  | zero => exact ⟨rfl,h⟩
  | succ level ih =>
      have hcell : Cell e.width e.height level (x / 2 ^ level) (y / 2 ^ level) :=
        ⟨div_lt_levelSize hx level,div_lt_levelSize hy level⟩
      have hnode := h level hlevel _ _ hcell
      unfold TagTreeEncoder.encodePath Pyramid.encodePath
      dsimp only
      rw [hnode]
      obtain ⟨hbits,hshows⟩ := ih (h.set he hlevel hcell
        ((p level (x / 2 ^ level) (y / 2 ^ level)).encode parentVal maxVal).2) _ (by omega)
      exact ⟨by rw [hbits],hshows⟩

end

/-! ## Values -/

theorem foldl_min_le {α : Type} (f : α → ℕ) (l : List α) (start : ℕ) :
    l.foldl (fun m a => min m (f a)) start ≤ start ∧
      ∀ a ∈ l, l.foldl (fun m a => min m (f a)) start ≤ f a := by
  induction l generalizing start with
  | nil => exact ⟨le_rfl,nofun⟩
  | cons b l ih =>
      obtain ⟨hstart,hmem⟩ := ih (min start (f b))
      refine ⟨hstart.trans (min_le_left _ _),fun a ha => ?_⟩
      rcases List.mem_cons.mp ha with rfl | ha
      · exact hstart.trans (min_le_right _ _)
      · exact hmem a ha

/-- No node has a larger value than one under it, but for one cell of a level and its parent. -/
def OrderedBut (e : TagTreeEncoder) (nodes : Buffer TagNode) (x y open' : ℕ) : Prop :=
  ∀ level, level + 1 < e.numLevels → ∀ cx cy, Cell e.width e.height level cx cy →
    ¬(level = open' ∧ cx = x / 2 ^ open' ∧ cy = y / 2 ^ open') →
    (nodes (e.nodeIndex (level + 1) (cx / 2) (cy / 2))).value ≤
      (nodes (e.nodeIndex level cx cy)).value

section
variable {e : TagTreeEncoder} {nodes : Buffer TagNode}

theorem mem_children {level cx cy : ℕ} (h : Cell e.width e.height level cx cy) :
    (cx,cy) ∈ e.children level (cx / 2) (cy / 2) := by
  obtain ⟨hx,hy⟩ := h
  unfold TagTreeEncoder.children
  rw [List.mem_flatMap]
  exact ⟨cy,List.mem_range'_1.mpr (by omega),
    List.mem_map.mpr ⟨cx,List.mem_range'_1.mpr (by omega),rfl⟩⟩

theorem cell_parent {width height level cx cy : ℕ} (h : Cell width height level cx cy) :
    Cell width height (level + 1) (cx / 2) (cy / 2) := by
  obtain ⟨hx,hy⟩ := h
  unfold Cell
  rw [levelSize_succ,levelSize_succ,divCeil2,divCeil2]
  omega

/-- Step lemma: a level of the path is repaired, at the cost of the next. -/
theorem OrderedBut.propagate (he : Laid e) {x y level : ℕ} (hx : x < e.width) (hy : y < e.height)
    (h : OrderedBut e nodes x y level) (hlevel : level + 1 < e.numLevels) :
    OrderedBut e (e.propagate x y nodes (level + 1)) x y (level + 1) := by
  have hpath : Cell e.width e.height (level + 1) (x / 2 ^ (level + 1)) (y / 2 ^ (level + 1)) :=
    ⟨div_lt_levelSize hx _,div_lt_levelSize hy _⟩
  intro l hl cx cy hcell hother
  have hchild : (e.propagate x y nodes (level + 1)) (e.nodeIndex l cx cy) =
      nodes (e.nodeIndex l cx cy) :=
    Buffer.set_of_ne _ _ fun heq =>
      hother (he.nodeIndex_inj (by omega) hlevel hcell hpath heq)
  rw [hchild]
  by_cases hparent : l + 1 = level + 1 ∧ cx / 2 = x / 2 ^ (level + 1) ∧ cy / 2 = y / 2 ^ (level + 1)
  · obtain ⟨hsame,hcx,hcy⟩ := hparent
    obtain rfl : l = level := by omega
    unfold TagTreeEncoder.propagate
    dsimp only
    rw [hcx,hcy,Buffer.set_self]
    dsimp only
    unfold TagTreeEncoder.minVal
    rw [← hcx,← hcy]
    exact (foldl_min_le _ _ _).2 (cx,cy) (mem_children hcell)
  · have hsame : (e.propagate x y nodes (level + 1)) (e.nodeIndex (l + 1) (cx / 2) (cy / 2)) =
        nodes (e.nodeIndex (l + 1) (cx / 2) (cy / 2)) :=
      Buffer.set_of_ne _ _ fun heq =>
        hparent (he.nodeIndex_inj hl hlevel (cell_parent hcell) hpath heq)
    rw [hsame]
    refine h l hl cx cy hcell fun hopen => hparent ?_
    obtain ⟨rfl,rfl,rfl⟩ := hopen
    exact ⟨rfl,div_two_div x l,div_two_div y l⟩

/-- The nodes above the leaves have the least values under them, no query was answered, and the
leaves before a place have these values. -/
structure Assigned (e : TagTreeEncoder) (f : ℕ → ℕ → ℕ) (n : ℕ) : Prop where
  ordered : ∀ level, level + 1 < e.numLevels → ∀ cx cy, Cell e.width e.height level cx cy →
    (e.nodes (e.nodeIndex (level + 1) (cx / 2) (cy / 2))).value ≤
      (e.nodes (e.nodeIndex level cx cy)).value
  fresh : ∀ i, (e.nodes i).currentValue = 0 ∧ (e.nodes i).known = false
  leaves : ∀ x < e.width, ∀ y < e.height, y * e.width + x < n →
    (e.nodes (e.nodeIndex 0 x y)).value = f x y

theorem propagate_fresh {x y level : ℕ}
    (h : ∀ i, (nodes i).currentValue = 0 ∧ (nodes i).known = false) (i : ℕ) :
    ((e.propagate x y nodes level) i).currentValue = 0 ∧
      ((e.propagate x y nodes level) i).known = false := by
  unfold TagTreeEncoder.propagate
  dsimp only
  by_cases hi : i = e.nodeIndex level (x / 2 ^ level) (y / 2 ^ level)
  · rw [hi,Buffer.set_self]
    exact h _
  · rw [Buffer.set_of_ne _ _ hi]
    exact h i

/-- Run lemma: all levels of the path, one by one. -/
theorem propagate_all (he : Laid e) {x y : ℕ} (hx : x < e.width) (hy : y < e.height) {k : ℕ}
    (hk : k < e.numLevels) (h : OrderedBut e nodes x y 0)
    (hfresh : ∀ i, (nodes i).currentValue = 0 ∧ (nodes i).known = false) :
    OrderedBut e ((List.range' 1 k).foldl (e.propagate x y) nodes) x y k ∧
      (∀ i, (((List.range' 1 k).foldl (e.propagate x y) nodes) i).currentValue = 0 ∧
        (((List.range' 1 k).foldl (e.propagate x y) nodes) i).known = false) ∧
      ∀ cx cy, Cell e.width e.height 0 cx cy →
        ((List.range' 1 k).foldl (e.propagate x y) nodes) (e.nodeIndex 0 cx cy) =
          nodes (e.nodeIndex 0 cx cy) := by
  induction k with
  | zero => exact ⟨h,hfresh,fun _ _ _ => rfl⟩
  | succ k ih =>
      obtain ⟨hordered,hf,hleaves⟩ := ih (by omega)
      rw [List.range'_1_concat,List.foldl_append,List.foldl_cons,List.foldl_nil,Nat.add_comm 1 k]
      refine ⟨hordered.propagate he hx hy hk,propagate_fresh hf,fun cx cy hcell => ?_⟩
      rw [← hleaves cx cy hcell]
      refine Buffer.set_of_ne _ _ fun heq => ?_
      have := (he.nodeIndex_inj (by omega) hk hcell
        ⟨div_lt_levelSize hx _,div_lt_levelSize hy _⟩ heq).1
      omega

theorem Assigned.setValue (he : Laid e) {f : ℕ → ℕ → ℕ} {x y : ℕ} (hx : x < e.width)
    (hy : y < e.height) (h : Assigned e f (y * e.width + x)) :
    ∃ nodes, e.setValue x y (f x y) = .ok { e with nodes } ∧
      Assigned { e with nodes } f (y * e.width + x + 1) := by
  have hlevels := he.levels
  have hleaf : Cell e.width e.height 0 x y := ⟨hx,hy⟩
  have hstart : OrderedBut e (e.nodes.set (e.nodeIndex 0 x y)
      { e.nodes (e.nodeIndex 0 x y) with value := f x y }) x y 0 := by
    intro level hlevel cx cy hcell hother
    rw [Nat.pow_zero,Nat.div_one,Nat.div_one] at hother
    rw [Buffer.set_of_ne _ _ fun heq => hother (he.nodeIndex_inj (by omega) hlevels hcell hleaf heq),
      Buffer.set_of_ne _ _ fun heq => absurd
        (he.nodeIndex_inj hlevel hlevels (cell_parent hcell) hleaf heq).1 (Nat.succ_ne_zero _)]
    exact h.ordered level hlevel cx cy hcell
  have hfresh : ∀ i, ((e.nodes.set (e.nodeIndex 0 x y)
      { e.nodes (e.nodeIndex 0 x y) with value := f x y }) i).currentValue = 0 ∧
      ((e.nodes.set (e.nodeIndex 0 x y)
        { e.nodes (e.nodeIndex 0 x y) with value := f x y }) i).known = false := fun i => by
    by_cases hi : i = e.nodeIndex 0 x y
    · rw [hi,Buffer.set_self]
      exact h.fresh _
    · rw [Buffer.set_of_ne _ _ hi]
      exact h.fresh i
  obtain ⟨hordered,hf,hleaves⟩ := propagate_all he hx hy (k := e.numLevels - 1) (by omega) hstart
    hfresh
  refine ⟨(List.range' 1 (e.numLevels - 1)).foldl (e.propagate x y)
      (e.nodes.set (e.nodeIndex 0 x y) { e.nodes (e.nodeIndex 0 x y) with value := f x y }),
    by rw [TagTreeEncoder.setValue,if_neg (by omega)],
    fun level hlevel cx cy hcell => hordered level hlevel cx cy hcell ?_,hf,
    fun cx hcx cy hcy hlt => ?_⟩
  · rintro ⟨rfl,-⟩
    have : e.numLevels - 1 + 1 < e.numLevels := hlevel
    omega
  · dsimp only at hcx hcy hlt ⊢
    refine (congrArg TagNode.value (hleaves cx cy ⟨hcx,hcy⟩)).trans ?_
    by_cases hsame : e.nodeIndex 0 cx cy = e.nodeIndex 0 x y
    · obtain ⟨-,rfl,rfl⟩ := he.nodeIndex_inj hlevels hlevels ⟨hcx,hcy⟩ hleaf hsame
      rw [Buffer.set_self]
    · rw [Buffer.set_of_ne _ _ hsame]
      have hne : ¬(cy * e.width + cx = y * e.width + x) := fun heq => hsame (by
        unfold TagTreeEncoder.nodeIndex levelSize
        exact congrArg _ heq)
      exact h.leaves cx hcx cy hcy (by omega)

/-- All leaves, row by row, as the packet state is made. -/
def assignLeaves (e : TagTreeEncoder) (f : ℕ → ℕ → ℕ) : Except EncodeError TagTreeEncoder :=
  (List.range (e.width * e.height)).foldlM
    (fun e' index => e'.setValue (index % e.width) (index / e.width)
      (f (index % e.width) (index / e.width))) e

/-- The tree of all leaves is built. -/
theorem assignLeaves_ok (he : Laid e) (hnodes : e.nodes = fun _ => ⟨0,0,false⟩) (f : ℕ → ℕ → ℕ) :
    ∃ nodes, assignLeaves e f = .ok { e with nodes } ∧
      Assigned { e with nodes } f (e.width * e.height) := by
  have hall : ∀ n ≤ e.width * e.height, ∃ nodes,
      (List.range n).foldlM (fun e' index => e'.setValue (index % e.width) (index / e.width)
        (f (index % e.width) (index / e.width))) e = .ok { e with nodes } ∧
      Assigned { e with nodes } f n := by
    intro n
    induction n with
    | zero =>
        intro _
        refine ⟨e.nodes,rfl,⟨fun _ _ _ _ _ => ?_,fun i => ?_,fun _ _ _ _ hlt => absurd hlt (by omega)⟩⟩
        · dsimp only
          rw [hnodes]
        · dsimp only
          rw [hnodes]
          exact ⟨rfl,rfl⟩
    | succ n ih =>
        intro hn
        obtain ⟨nodes,hrun,hassigned⟩ := ih (by omega)
        have hpos : 0 < e.width := Nat.pos_of_ne_zero fun hzero => by
          rw [hzero,Nat.zero_mul] at hn
          omega
        have hplace : n / e.width * e.width + n % e.width = n := Nat.div_add_mod' n e.width
        have hy : n / e.width < e.height := Nat.div_lt_of_lt_mul (by omega)
        obtain ⟨nodes',hset,hassigned'⟩ := Assigned.setValue (e := { e with nodes })
          ⟨he.levels,he.offsets,he.top,he.below⟩ (Nat.mod_lt n hpos) hy
          (f := f) (by dsimp only; rwa [hplace])
        dsimp only at hassigned'
        rw [hplace] at hassigned'
        refine ⟨nodes',?_,hassigned'⟩
        rw [List.range_succ,List.foldlM_append,hrun,ok_bind,List.foldlM_cons]
        exact bind_eq_ok.mpr ⟨_,hset,rfl⟩
  exact hall _ le_rfl

end

end J2kNative.TagTrees
