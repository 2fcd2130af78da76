import J2kNative.TagTreeEncoder
import J2kNative.BitStuffing
import Mathlib.Data.Nat.Log

/-!
# Tag-tree decoder

The decoder splits its area into quarters down to single leaves and keeps what it has read
in the nodes. Next to the encoder's pyramid a node of the decoder covers the leaves of one cell,
and what both know of it answers for the same bits.
-/
namespace J2kNative.TagTrees
open BitStuffing

/-- A node with its children; a child that does not exist is absent. -/
inductive TagTree where
  | absent
  | node (width height value : ℕ) (initialized : Bool) (level : ℕ)
      (topLeft topRight bottomLeft bottomRight : TagTree)
  deriving DecidableEq, Repr

def ceilLog2 (value : ℕ) : ℕ := if value ≤ 1 then 0 else (value - 1).log2 + 1

namespace TagTree

def topLeftSize (level size : ℕ) : ℕ := min (2 ^ (level - 1)) size

/-- `TagNode::build`. -/
def build : ℕ → ℕ → ℕ → TagTree
  | 0, width, height => .node width height 0 false 0 .absent .absent .absent .absent
  | level + 1, width, height =>
      let topLeftWidth := topLeftSize (level + 1) width
      let topLeftHeight := topLeftSize (level + 1) height
      let child (w h : ℕ) := if w > 0 ∧ h > 0 then build level w h else .absent
      .node width height 0 false (level + 1) (child topLeftWidth topLeftHeight)
        (child (width - topLeftWidth) topLeftHeight) (child topLeftWidth (height - topLeftHeight))
        (child (width - topLeftWidth) (height - topLeftHeight))

/-- `TagTree::new`. -/
def new (width height : ℕ) : TagTree := build (ceilLog2 (max width height)) width height

/-- The loop of `read_tag_node`, which has as many turns as the value is short of the maximum: the
value, and whether it is final. -/
def readValue : ℕ → ℕ → BitStuffing.BitReader → Option (ℕ × Bool × BitStuffing.BitReader)
  | 0, val, r => some (val,false,r)
  | turns + 1, val, r => do
      let (bit,r) ← r.readBitsWithStuffing 1
      if bit = 0 then readValue turns (val + 1) r else some (val,true,r)

/-- The part of `read_tag_node` that reads of the node itself. -/
def readOwn (initialized : Bool) (value parentVal maxVal : ℕ) (r : BitStuffing.BitReader) :
    Option (ℕ × Bool × BitStuffing.BitReader) :=
  if initialized then some (value,true,r)
  else readValue (maxVal - max parentVal value) (max parentVal value) r

/-- `read_tag_node`: what it returns, the node behind it and the reader. -/
def read :
    TagTree → ℕ → ℕ → ℕ → ℕ → BitStuffing.BitReader → Option (ℕ × TagTree × BitStuffing.BitReader)
  | .absent, _, _, _, _, _ => none
  | .node width height value initialized level c₀ c₁ c₂ c₃, x, y, parentVal, maxVal, r => do
      let (value,initialized,r) ← readOwn initialized value parentVal maxVal r
      if value ≥ maxVal ∨ level = 0 then
        some (value,.node width height value initialized level c₀ c₁ c₂ c₃,r)
      else
        let topLeftWidth := topLeftSize level width
        let topLeftHeight := topLeftSize level height
        if y < topLeftHeight then
          if x < topLeftWidth then do
            let (result,c₀,r) ← c₀.read x y value maxVal r
            some (result,.node width height value initialized level c₀ c₁ c₂ c₃,r)
          else do
            let (result,c₁,r) ← c₁.read (x - topLeftWidth) y value maxVal r
            some (result,.node width height value initialized level c₀ c₁ c₂ c₃,r)
        else if x < topLeftWidth then do
          let (result,c₂,r) ← c₂.read x (y - topLeftHeight) value maxVal r
          some (result,.node width height value initialized level c₀ c₁ c₂ c₃,r)
        else do
          let (result,c₃,r) ← c₃.read (x - topLeftWidth) (y - topLeftHeight) value maxVal r
          some (result,.node width height value initialized level c₀ c₁ c₂ c₃,r)

end TagTree

/-! ## Geometry -/

/-- Leaves of a cell along an edge. -/
def span (size level c : ℕ) : ℕ := min (2 ^ level) (size - c * 2 ^ level)

theorem span_pos {size level c : ℕ} : 0 < span size level c ↔ c * 2 ^ level < size := by
  have := Nat.two_pow_pos level
  unfold span
  omega

theorem topLeftSize_span (size level c : ℕ) :
    TagTree.topLeftSize (level + 1) (span size (level + 1) c) = span size level (2 * c) := by
  have hmul : 2 * c * 2 ^ level = c * 2 ^ (level + 1) := by rw [Nat.pow_succ]; ring
  have hpow : 2 ^ (level + 1) = 2 * 2 ^ level := by rw [Nat.pow_succ]; ring
  unfold TagTree.topLeftSize span
  rw [Nat.add_sub_cancel,hmul,hpow]
  omega

theorem span_sub_topLeftSize (size level c : ℕ) :
    span size (level + 1) c - TagTree.topLeftSize (level + 1) (span size (level + 1) c) =
      span size level (2 * c + 1) := by
  have hmul : (2 * c + 1) * 2 ^ level = c * 2 ^ (level + 1) + 2 ^ level := by
    rw [Nat.pow_succ]
    ring
  have hpow : 2 ^ (level + 1) = 2 * 2 ^ level := by rw [Nat.pow_succ]; ring
  unfold TagTree.topLeftSize span
  rw [Nat.add_sub_cancel,hmul,hpow]
  omega

/-- Below a cell the leaf is in the first or the second half, at this place of it. -/
theorem half_cases {size x : ℕ} (hx : x < size) (level : ℕ) :
    (x % 2 ^ (level + 1) < TagTree.topLeftSize (level + 1) (span size (level + 1) (x / 2 ^ (level + 1))) ∧
      x / 2 ^ level = 2 * (x / 2 ^ (level + 1)) ∧ x % 2 ^ (level + 1) = x % 2 ^ level) ∨
    (¬x % 2 ^ (level + 1) <
        TagTree.topLeftSize (level + 1) (span size (level + 1) (x / 2 ^ (level + 1))) ∧
      x / 2 ^ level = 2 * (x / 2 ^ (level + 1)) + 1 ∧
      x % 2 ^ (level + 1) - TagTree.topLeftSize (level + 1) (span size (level + 1) (x / 2 ^ (level + 1))) =
        x % 2 ^ level) := by
  have hpos := Nat.two_pow_pos level
  have hpow : 2 ^ (level + 1) = 2 * 2 ^ level := by rw [Nat.pow_succ]; ring
  have hsplit := Nat.div_add_mod' x (2 ^ (level + 1))
  have hlow := Nat.mod_lt x hpos
  have hrem : x % 2 ^ (level + 1) = x % 2 ^ level + 2 ^ level * (x / 2 ^ level % 2) :=
    Nat.mod_pow_succ
  have hdiv : x / 2 ^ level = 2 * (x / 2 ^ (level + 1)) + x / 2 ^ level % 2 := by
    rw [← div_two_div]
    omega
  unfold TagTree.topLeftSize span
  rw [Nat.add_sub_cancel]
  generalize x / 2 ^ (level + 1) * 2 ^ (level + 1) = start at *
  rcases Nat.mod_two_eq_zero_or_one (x / 2 ^ level) with hbit | hbit
  · rw [hbit] at hrem hdiv
    left
    omega
  · rw [hbit] at hrem hdiv
    right
    omega

theorem ceilLog2_le {value level : ℕ} : ceilLog2 value ≤ level ↔ value ≤ 2 ^ level := by
  have := Nat.two_pow_pos level
  unfold ceilLog2
  split_ifs with h
  · omega
  · rw [Nat.succ_le_iff,Nat.log2_lt (by omega)]
    omega

theorem levelSize_le_one {size level : ℕ} : levelSize size level ≤ 1 ↔ size ≤ 2 ^ level := by
  have := @lt_levelSize size level 1
  omega

theorem Laid.ceilLog2 {e : TagTreeEncoder} (he : Laid e) :
    TagTrees.ceilLog2 (max e.width e.height) = e.numLevels - 1 := by
  have htop := he.top
  rw [levelSize_le_one,levelSize_le_one] at htop
  refine le_antisymm (ceilLog2_le.mpr (max_le htop.1 htop.2)) ?_
  by_contra hlt
  have hle := ceilLog2_le.mp (le_refl (TagTrees.ceilLog2 (max e.width e.height)))
  refine he.below _ (not_le.mp hlt) ?_
  rw [levelSize_le_one,levelSize_le_one]
  exact max_le_iff.mp hle

/-! ## One node -/

/-- What encoder and decoder know of a node, up to what is known of the nodes above. -/
structure Agrees (bound value : ℕ) (initialized : Bool) (node : TagNode) : Prop where
  known : initialized = node.known
  value_eq : node.known = true → value = node.value
  current : max value bound = max node.currentValue bound

/-- A tree of the decoder and the nodes of a cell and under it. -/
def Matches (W H : ℕ) (p : Pyramid) : TagTree → ℕ → ℕ → ℕ → ℕ → Prop
  | .absent, _, level, cx, cy => ¬(cx * 2 ^ level < W ∧ cy * 2 ^ level < H)
  | .node width height value initialized level' c₀ c₁ c₂ c₃, bound, level, cx, cy =>
      (width = span W level cx ∧ height = span H level cy ∧ level' = level) ∧
        Agrees bound value initialized (p level cx cy) ∧
        (level = 0 ∨
          Matches W H p c₀ (max value bound) (level - 1) (2 * cx) (2 * cy) ∧
          Matches W H p c₁ (max value bound) (level - 1) (2 * cx + 1) (2 * cy) ∧
          Matches W H p c₂ (max value bound) (level - 1) (2 * cx) (2 * cy + 1) ∧
          Matches W H p c₃ (max value bound) (level - 1) (2 * cx + 1) (2 * cy + 1))

section
variable {W H : ℕ} {p p' : Pyramid} {tree : TagTree} {bound level cx cy : ℕ}

theorem Agrees.mono {value bound' : ℕ} {initialized : Bool} {node : TagNode}
    (h : Agrees bound value initialized node) (hle : bound ≤ bound') :
    Agrees bound' value initialized node := by
  have := h.current
  exact ⟨h.known,h.value_eq,by omega⟩

/-- More knowledge of the nodes above does no harm. -/
theorem Matches.mono (h : Matches W H p tree bound level cx cy) {bound' : ℕ} (hle : bound ≤ bound') :
    Matches W H p tree bound' level cx cy := by
  induction tree generalizing bound bound' level cx cy with
  | absent => exact h
  | node width height value initialized level' c₀ c₁ c₂ c₃ ih₀ ih₁ ih₂ ih₃ =>
      obtain ⟨hsize,hagrees,hchildren⟩ := h
      have hmax : max value bound ≤ max value bound' := max_le_max_left _ hle
      refine ⟨hsize,hagrees.mono hle,hchildren.imp_right ?_⟩
      rintro ⟨h₀,h₁,h₂,h₃⟩
      exact ⟨ih₀ h₀ hmax,ih₁ h₁ hmax,ih₂ h₂ hmax,ih₃ h₃ hmax⟩

theorem div_pow_of_child {x level j c b : ℕ} (hj : j ≤ level)
    (h : x / 2 ^ (level - j) = 2 * c + b) (hb : b < 2) : x / 2 ^ (level + 1 - j) = c := by
  rw [Nat.succ_sub hj,← div_two_div,h]
  omega

/-- Only the nodes of the cell and under it are looked at. -/
theorem Matches.congr (h : Matches W H p tree bound level cx cy)
    (hsame : ∀ j ≤ level, ∀ a b, a / 2 ^ (level - j) = cx → b / 2 ^ (level - j) = cy →
      p' j a b = p j a b) : Matches W H p' tree bound level cx cy := by
  induction tree generalizing bound level cx cy with
  | absent => exact h
  | node width height value initialized level' c₀ c₁ c₂ c₃ ih₀ ih₁ ih₂ ih₃ =>
      obtain ⟨hsize,hagrees,hchildren⟩ := h
      refine ⟨hsize,?_,?_⟩
      · rw [hsame level le_rfl cx cy (by simp) (by simp)]
        exact hagrees
      · cases level with
        | zero => exact .inl rfl
        | succ level =>
            obtain ⟨h₀,h₁,h₂,h₃⟩ := hchildren.resolve_left (Nat.succ_ne_zero _)
            have hdown : ∀ {u v : ℕ}, u < 2 → v < 2 → ∀ j ≤ level, ∀ a b,
                a / 2 ^ (level - j) = 2 * cx + u → b / 2 ^ (level - j) = 2 * cy + v →
                p' j a b = p j a b := fun hu hv j hj a b ha hb =>
              hsame j (by omega) a b (div_pow_of_child hj ha hu) (div_pow_of_child hj hb hv)
            exact .inr ⟨ih₀ h₀ (hdown (by decide : 0 < 2) (by decide : 0 < 2)),
              ih₁ h₁ (hdown (by decide : 1 < 2) (by decide : 0 < 2)),
              ih₂ h₂ (hdown (by decide : 0 < 2) (by decide : 1 < 2)),
              ih₃ h₃ (hdown (by decide : 1 < 2) (by decide : 1 < 2))⟩

/-- A tree that was just built matches a pyramid of which nothing was told. -/
theorem matches_build (hfresh : ∀ l a b, Cell W H l a b →
      (p l a b).currentValue = 0 ∧ (p l a b).known = false)
    (hx : cx * 2 ^ level < W) (hy : cy * 2 ^ level < H) :
    Matches W H p (TagTree.build level (span W level cx) (span H level cy)) bound level cx cy := by
  induction level generalizing bound cx cy with
  | zero =>
      obtain ⟨hcurrent,hknown⟩ := hfresh 0 cx cy ⟨lt_levelSize.mpr hx,lt_levelSize.mpr hy⟩
      exact ⟨⟨rfl,rfl,rfl⟩,⟨hknown.symm,fun h => absurd (hknown.symm.trans h) (by decide),
        by rw [hcurrent]⟩,.inl rfl⟩
  | succ level ih =>
      obtain ⟨hcurrent,hknown⟩ := hfresh (level + 1) cx cy ⟨lt_levelSize.mpr hx,lt_levelSize.mpr hy⟩
      have hchild : ∀ a b, Matches W H p (if span W level a > 0 ∧ span H level b > 0 then
          TagTree.build level (span W level a) (span H level b) else .absent)
          (max 0 bound) level a b := fun a b => by
        by_cases hab : span W level a > 0 ∧ span H level b > 0
        · rw [if_pos hab]
          exact ih (span_pos.mp hab.1) (span_pos.mp hab.2)
        · rw [if_neg hab]
          exact fun hcell => hab ⟨span_pos.mpr hcell.1,span_pos.mpr hcell.2⟩
      unfold TagTree.build
      simp only [span_sub_topLeftSize]
      simp only [topLeftSize_span]
      exact ⟨⟨rfl,rfl,rfl⟩,⟨hknown.symm,fun h => absurd (hknown.symm.trans h) (by decide),
        by rw [hcurrent]⟩,.inr ⟨hchild _ _,hchild _ _,hchild _ _,hchild _ _⟩⟩

end

end J2kNative.TagTrees
