import J2kNative.TagTreeDecoder

/-!
# Tag trees back and forth

A query that the encoder writes is read back. Either the decoder comes down to the leaf with
the encoder, or it stops at a node where the encoder has nothing more to write.
-/
namespace J2kNative.TagTrees
open BitStuffing CodestreamWriter CountedLoops Fallible BitStuffing.BitReader

/-! ## The encoder's path -/

/-- What the encoder knows of its nodes. -/
structure Sound (W H levels : ℕ) (p : Pyramid) : Prop where
  low : ∀ level < levels, ∀ cx cy, Cell W H level cx cy →
    (p level cx cy).currentValue ≤ (p level cx cy).value
  known : ∀ level < levels, ∀ cx cy, Cell W H level cx cy → (p level cx cy).known = true →
    (p level cx cy).currentValue = (p level cx cy).value
  ordered : ∀ level, level + 1 < levels → ∀ cx cy, Cell W H level cx cy →
    (p (level + 1) (cx / 2) (cy / 2)).value ≤ (p level cx cy).value

theorem TagNode.encode_known {node : TagNode} (h : node.known = true) (parentVal maxVal : ℕ) :
    node.encode parentVal maxVal = ([],node) := if_pos h

theorem TagNode.encode_open {node : TagNode} (h : node.known = false) (parentVal maxVal : ℕ) :
    node.encode parentVal maxVal =
      (List.replicate (min node.value maxVal - max node.currentValue parentVal) false ++
        if node.value < maxVal then [true] else [],
        ⟨node.value,min node.value maxVal,node.value < maxVal⟩) := by
  unfold TagNode.encode
  rw [if_neg (by rw [h]; exact Bool.false_ne_true)]

theorem TagNode.encode_value (node : TagNode) (parentVal maxVal : ℕ) :
    (node.encode parentVal maxVal).2.value = node.value := by
  cases h : node.known with
  | false => rw [TagNode.encode_open h]
  | true => rw [TagNode.encode_known h]

section
variable {W H levels : ℕ} {p : Pyramid} {x y t : ℕ}

theorem Sound.encode_low (h : Sound W H levels p) {level cx cy : ℕ} (hlevel : level < levels)
    (hcell : Cell W H level cx cy) (parentVal : ℕ) :
    ((p level cx cy).encode parentVal t).2.currentValue ≤ (p level cx cy).value := by
  cases hknown : (p level cx cy).known with
  | false =>
      rw [TagNode.encode_open hknown]
      exact min_le_left _ _
  | true =>
      rw [TagNode.encode_known hknown]
      exact h.low level hlevel cx cy hcell

/-- Step lemma. -/
theorem Sound.set (h : Sound W H levels p) {level cx cy : ℕ} (hlevel : level < levels)
    (hcell : Cell W H level cx cy) (parentVal : ℕ) :
    Sound W H levels (p.set level cx cy ((p level cx cy).encode parentVal t).2) := by
  have hvalue : ∀ l a b, (p.set level cx cy ((p level cx cy).encode parentVal t).2 l a b).value =
      (p l a b).value := fun l a b => by
    by_cases hsame : l = level ∧ a = cx ∧ b = cy
    · obtain ⟨rfl,rfl,rfl⟩ := hsame
      rw [Pyramid.set_self,TagNode.encode_value]
    · rw [Pyramid.set_of_ne _ _ hsame]
  refine ⟨fun l hl a b hab => ?_,fun l hl a b hab hknown => ?_,fun l hl a b hab => ?_⟩
  · rw [hvalue]
    by_cases hsame : l = level ∧ a = cx ∧ b = cy
    · obtain ⟨rfl,rfl,rfl⟩ := hsame
      rw [Pyramid.set_self]
      exact h.encode_low hlevel hcell parentVal
    · rw [Pyramid.set_of_ne _ _ hsame]
      exact h.low l hl a b hab
  · rw [hvalue]
    by_cases hsame : l = level ∧ a = cx ∧ b = cy
    · obtain ⟨rfl,rfl,rfl⟩ := hsame
      rw [Pyramid.set_self] at hknown ⊢
      cases hbefore : (p l a b).known with
      | false =>
          rw [TagNode.encode_open hbefore] at hknown ⊢
          exact min_eq_left (of_decide_eq_true hknown).le
      | true =>
          rw [TagNode.encode_known hbefore]
          exact h.known l hlevel a b hcell hbefore
    · rw [Pyramid.set_of_ne _ _ hsame] at hknown ⊢
      exact h.known l hl a b hab hknown
  · rw [hvalue,hvalue]
    exact h.ordered l hl a b hab

theorem cell_path (hx : x < W) (hy : y < H) (level : ℕ) :
    Cell W H level (x / 2 ^ level) (y / 2 ^ level) :=
  ⟨div_lt_levelSize hx level,div_lt_levelSize hy level⟩

/-- On the way down to a leaf the values do not fall. -/
theorem Sound.path_le (h : Sound W H levels p) (hx : x < W) (hy : y < H) {level : ℕ}
    (hlevel : level < levels) :
    (p level (x / 2 ^ level) (y / 2 ^ level)).value ≤ (p 0 x y).value := by
  induction level with
  | zero => simp
  | succ level ih =>
      have hstep := h.ordered level hlevel _ _ (cell_path hx hy level)
      rw [div_two_div,div_two_div] at hstep
      exact hstep.trans (ih (by omega))

/-- Nodes off the path, and those of the upper levels, remain. -/
theorem encodePath_other (x y t : ℕ) {level l a b : ℕ} (parentVal : ℕ)
    (h : ¬(l < level ∧ a = x / 2 ^ l ∧ b = y / 2 ^ l)) :
    (p.encodePath x y t level parentVal).2 l a b = p l a b := by
  induction level generalizing parentVal p with
  | zero => rfl
  | succ level ih =>
      unfold Pyramid.encodePath
      dsimp only
      rw [ih _ fun hpath => h ⟨by omega,hpath.2⟩]
      exact Pyramid.set_of_ne _ _ fun hsame => h ⟨by omega,by rw [hsame.2.1,hsame.1],
        by rw [hsame.2.2,hsame.1]⟩

theorem encodePath_self (x y t level parentVal : ℕ) :
    (p.encodePath x y t (level + 1) parentVal).2 level (x / 2 ^ level) (y / 2 ^ level) =
      ((p level (x / 2 ^ level) (y / 2 ^ level)).encode parentVal t).2 := by
  unfold Pyramid.encodePath
  dsimp only
  rw [encodePath_other x y t _ (by omega),Pyramid.set_self]

/-- Run lemma. -/
theorem Sound.encodePath (h : Sound W H levels p) (hx : x < W) (hy : y < H) {level : ℕ}
    (hlevel : level ≤ levels) (parentVal : ℕ) :
    Sound W H levels (p.encodePath x y t level parentVal).2 := by
  induction level generalizing parentVal p with
  | zero => exact h
  | succ level ih =>
      unfold Pyramid.encodePath
      exact ih (h.set (by omega) (cell_path hx hy level) parentVal) (by omega) _

/-! ## Where the decoder stops -/

/-- A query asks for no less than an earlier one did at a node that it will not settle. -/
def Ready (p : Pyramid) (x y t level : ℕ) : Prop :=
  ∀ l < level, (p l (x / 2 ^ l) (y / 2 ^ l)).known = false →
    t ≤ (p l (x / 2 ^ l) (y / 2 ^ l)).value → (p l (x / 2 ^ l) (y / 2 ^ l)).currentValue ≤ t

theorem Ready.set {level : ℕ} (h : Ready p x y t (level + 1)) (node : TagNode) :
    Ready (p.set level (x / 2 ^ level) (y / 2 ^ level) node) x y t level := by
  intro l hl
  rw [Pyramid.set_of_ne _ _ (by omega)]
  exact h l (by omega)

/-- Below a node that has reached the threshold nothing is written. -/
theorem encodeNode_idle {node : TagNode} {parentVal : ℕ} (hparent : t ≤ parentVal)
    (hvalue : parentVal ≤ node.value) :
    (node.encode parentVal t).1 = [] ∧ (node.known = false →
      (node.encode parentVal t).2 = { node with known := false, currentValue := t }) ∧
      (node.known = true → (node.encode parentVal t).2 = node) := by
  cases hknown : node.known with
  | false =>
      have hlt : ¬node.value < t := by omega
      rw [TagNode.encode_open hknown,if_neg hlt,List.append_nil,
        Nat.sub_eq_zero_of_le (by omega),decide_eq_false hlt,min_eq_right (by omega)]
      exact ⟨rfl,fun _ => rfl,fun h => absurd h Bool.false_ne_true⟩
  | true =>
      rw [TagNode.encode_known hknown]
      exact ⟨rfl,fun h => absurd h.symm Bool.false_ne_true,fun _ => rfl⟩

theorem idle_current (h : Sound W H levels p) {level cx cy parentVal : ℕ} (hlevel : level < levels)
    (hcell : Cell W H level cx cy) (hparent : t ≤ parentVal)
    (hvalue : parentVal ≤ (p level cx cy).value) :
    t ≤ ((p level cx cy).encode parentVal t).2.currentValue := by
  obtain ⟨-,hopen,hshut⟩ := encodeNode_idle hparent hvalue
  cases hknown : (p level cx cy).known with
  | false => rw [hopen hknown]
  | true =>
      rw [hshut hknown,h.known level hlevel cx cy hcell hknown]
      omega

theorem current_le_child (h : Sound W H levels p) (hx : x < W) (hy : y < H) {level : ℕ}
    (hlevel : level + 1 < levels) (parentVal : ℕ) :
    ((p (level + 1) (x / 2 ^ (level + 1)) (y / 2 ^ (level + 1))).encode parentVal t).2.currentValue ≤
      (p level (x / 2 ^ level) (y / 2 ^ level)).value := by
  have hstep := h.ordered level hlevel _ _ (cell_path hx hy level)
  rw [div_two_div,div_two_div] at hstep
  exact (h.encode_low hlevel (cell_path hx hy (level + 1)) parentVal).trans hstep

theorem encodePath_idle (h : Sound W H levels p) (hx : x < W) (hy : y < H) {level parentVal : ℕ}
    (hlevel : level < levels) (hparent : t ≤ parentVal)
    (hvalue : parentVal ≤ (p level (x / 2 ^ level) (y / 2 ^ level)).value) :
    (p.encodePath x y t (level + 1) parentVal).1 = [] := by
  induction level generalizing parentVal p with
  | zero =>
      unfold Pyramid.encodePath
      dsimp only
      rw [(encodeNode_idle hparent hvalue).1]
      rfl
  | succ level ih =>
      have hcell := cell_path hx hy (level + 1)
      unfold Pyramid.encodePath
      dsimp only
      rw [(encodeNode_idle hparent hvalue).1,List.nil_append]
      refine ih (h.set hlevel hcell parentVal) (by omega)
        (idle_current h hlevel hcell hparent hvalue) ?_
      rw [Pyramid.set_of_ne _ _ (by omega)]
      exact current_le_child h hx hy hlevel parentVal

/-- A child that the path does not enter sees nothing of it. -/
theorem Matches.off_path {tree : TagTree} {bound level cx cy parentVal : ℕ}
    (h : Matches W H p tree bound level cx cy) (hoff : ¬(cx = x / 2 ^ level ∧ cy = y / 2 ^ level)) :
    Matches W H (p.encodePath x y t (level + 2) parentVal).2 tree bound level cx cy := by
  refine h.congr fun j hj a b ha hb => encodePath_other x y t parentVal fun hpath => hoff ?_
  obtain ⟨-,rfl,rfl⟩ := hpath
  rw [Nat.div_div_eq_div_mul,← Nat.pow_add,Nat.add_sub_cancel' hj] at ha hb
  exact ⟨ha.symm,hb.symm⟩

/-- A node that the decoder does not come to keeps its place. -/
theorem Matches.idle {tree : TagTree} {bound level parentVal : ℕ} (hsound : Sound W H levels p)
    (hx : x < W) (hy : y < H) (hlevel : level < levels)
    (h : Matches W H p tree bound level (x / 2 ^ level) (y / 2 ^ level))
    (hready : Ready p x y t (level + 1)) (hparent : t ≤ parentVal)
    (hvalue : parentVal ≤ (p level (x / 2 ^ level) (y / 2 ^ level)).value) (hbound : t ≤ bound) :
    Matches W H (p.encodePath x y t (level + 1) parentVal).2 tree bound level (x / 2 ^ level)
      (y / 2 ^ level) := by
  induction tree generalizing bound level parentVal p with
  | absent => exact h
  | node width height value initialized level' c₀ c₁ c₂ c₃ ih₀ ih₁ ih₂ ih₃ =>
      obtain ⟨hsize,hagrees,hchildren⟩ := h
      have hcell := cell_path hx hy level
      obtain ⟨-,hopen,hshut⟩ := encodeNode_idle hparent hvalue
      refine ⟨hsize,?_,?_⟩
      · rw [encodePath_self]
        cases hknown : (p level (x / 2 ^ level) (y / 2 ^ level)).known with
        | false =>
            have hle := hready level (Nat.lt_succ_self _) hknown (hparent.trans hvalue)
            have hcurrent := hagrees.current
            rw [hopen hknown]
            refine ⟨hagrees.known.trans hknown,fun h => absurd h Bool.false_ne_true,?_⟩
            dsimp only
            omega
        | true =>
            rw [hshut hknown]
            exact hagrees
      · cases level with
        | zero => exact .inl rfl
        | succ level =>
            have hchild : ∀ c a b, Matches W H p c (max value bound) level a b →
                (∀ {bound level parentVal : ℕ} {p : Pyramid}, Sound W H levels p → level < levels →
                  Matches W H p c bound level (x / 2 ^ level) (y / 2 ^ level) →
                  Ready p x y t (level + 1) → t ≤ parentVal →
                  parentVal ≤ (p level (x / 2 ^ level) (y / 2 ^ level)).value → t ≤ bound →
                  Matches W H (p.encodePath x y t (level + 1) parentVal).2 c bound level
                    (x / 2 ^ level) (y / 2 ^ level)) →
                Matches W H (p.encodePath x y t (level + 2) parentVal).2 c (max value bound) level
                  a b := by
              intro c a b hc ih
              by_cases hon : a = x / 2 ^ level ∧ b = y / 2 ^ level
              · obtain ⟨rfl,rfl⟩ := hon
                have hset : Matches W H (p.set (level + 1) (x / 2 ^ (level + 1)) (y / 2 ^ (level + 1))
                    ((p (level + 1) (x / 2 ^ (level + 1)) (y / 2 ^ (level + 1))).encode parentVal
                      t).2) c (max value bound) level (x / 2 ^ level) (y / 2 ^ level) :=
                  hc.congr fun j hj _ _ _ _ => Pyramid.set_of_ne _ _ (by omega)
                refine ih (hsound.set hlevel hcell parentVal) (by omega) hset (hready.set _)
                  (idle_current hsound hlevel hcell hparent hvalue) ?_ (by omega)
                rw [Pyramid.set_of_ne _ _ (by omega)]
                exact current_le_child hsound hx hy hlevel parentVal
              · exact hc.off_path hon
            obtain ⟨h₀,h₁,h₂,h₃⟩ := hchildren.resolve_left (Nat.succ_ne_zero _)
            exact .inr ⟨hchild _ _ _ h₀ fun hs hl hm hr hp hv hb => ih₀ hs hl hm hr hp hv hb,
              hchild _ _ _ h₁ fun hs hl hm hr hp hv hb => ih₁ hs hl hm hr hp hv hb,
              hchild _ _ _ h₂ fun hs hl hm hr hp hv hb => ih₂ hs hl hm hr hp hv hb,
              hchild _ _ _ h₃ fun hs hl hm hr hp hv hb => ih₃ hs hl hm hr hp hv hb⟩

end

/-! ## Where the decoder follows -/

theorem readBit_of_presents {r r' : BitStuffing.BitReader} {bit : Bool} {bits : List Bool}
    (h : Presents r (bit :: bits) r') :
    ∃ r₁, r.readBitsWithStuffing 1 = some (bit.toNat,r₁) ∧ Presents r₁ bits r' := by
  obtain ⟨r₁,hr,h⟩ := h
  refine ⟨r₁,?_,h⟩
  unfold readBitsWithStuffing readLoop
  rw [hr]
  cases bit <;> rfl

theorem readValue_zeros {r r' : BitStuffing.BitReader} {bits : List Bool} (n turns val : ℕ)
    (h : Presents r (List.replicate n false ++ bits) r') :
    ∃ r₁, Presents r₁ bits r' ∧
      TagTree.readValue (n + turns) val r = TagTree.readValue turns (val + n) r₁ := by
  induction n generalizing val r with
  | zero => exact ⟨r,h,by rw [Nat.zero_add]; rfl⟩
  | succ n ih =>
      obtain ⟨r₁,hread,h⟩ := readBit_of_presents h
      obtain ⟨r₂,hbits,hrest⟩ := ih (val + 1) h
      refine ⟨r₂,hbits,?_⟩
      rw [Nat.succ_add,TagTree.readValue,hread]
      simp only [Option.bind_eq_bind,Option.bind_some]
      rw [Bool.toNat_false,if_pos rfl,hrest,Nat.add_right_comm,Nat.add_assoc val n 1]

/-- What the encoder writes of one node is read of it, and both know the same of it then. -/
theorem Agrees.readOwn {node : TagNode} {bound value t t' : ℕ} {initialized : Bool}
    {r r' : BitStuffing.BitReader} (h : Agrees bound value initialized node)
    (hlow : node.currentValue ≤ node.value)
    (hknown : node.known = true → node.currentValue = node.value)
    (hready : node.known = false → t ≤ node.value → node.currentValue ≤ t) (hbound : bound ≤ t)
    (hvalue : bound ≤ node.value) (ht : t = t' ∨ node.value < t ∧ node.value < t')
    (hp : Presents r (node.encode bound t).1 r') :
    ∃ value' initialized',
      TagTree.readOwn initialized value bound t' r = some (value',initialized',r') ∧
      Agrees bound value' initialized' (node.encode bound t).2 ∧
      value' = (node.encode bound t).2.currentValue ∧ max value bound ≤ value' ∧
      (node.value < t → value' = node.value) ∧ (t ≤ node.value → t ≤ value') := by
  have hcurrent := h.current
  cases hopen : node.known with
  | true =>
      have hinit : initialized = true := h.known.trans hopen
      have hv := h.value_eq hopen
      have hc := hknown hopen
      rw [TagNode.encode_known hopen] at hp ⊢
      obtain rfl : r = r' := hp
      subst hinit
      refine ⟨value,true,rfl,h,by rw [hv,hc],by omega,fun _ => hv,fun hle => by omega⟩
  | false =>
      have hinit : initialized = false := h.known.trans hopen
      have hc := hready hopen
      rw [TagNode.encode_open hopen] at hp ⊢
      dsimp only at hp ⊢
      subst hinit
      unfold TagTree.readOwn
      rw [if_neg Bool.false_ne_true,max_comm bound value,hcurrent]
      by_cases hlt : node.value < t
      · have hlt' : node.value < t' := by omega
        rw [if_pos hlt,min_eq_left hlt.le] at hp
        obtain ⟨r₁,hone,hzeros⟩ := readValue_zeros _ (t' - node.value) (max node.currentValue bound) hp
        obtain ⟨r₂,hread,hend⟩ := readBit_of_presents hone
        obtain rfl : r₂ = r' := hend
        obtain ⟨turns,hturns⟩ : ∃ turns, t' - node.value = turns + 1 :=
          ⟨t' - node.value - 1,by omega⟩
        have hsum : node.value - max node.currentValue bound + (t' - node.value) =
            t' - max node.currentValue bound := by omega
        have hval : max node.currentValue bound + (node.value - max node.currentValue bound) =
            node.value := by omega
        rw [hsum,hval,hturns,TagTree.readValue,hread] at hzeros
        refine ⟨node.value,true,hzeros,⟨by simp [hlt],fun _ => rfl,?_⟩,(min_eq_left hlt.le).symm,?_,
          fun _ => rfl,fun hle => by omega⟩
        · rw [min_eq_left hlt.le]
        · omega
      · have hsame : t = t' := by omega
        subst hsame
        rw [if_neg hlt,min_eq_right (by omega)] at hp
        obtain ⟨r₁,hend,hzeros⟩ := readValue_zeros _ 0 (max node.currentValue bound) hp
        obtain rfl : r₁ = r' := hend
        have hval : max node.currentValue bound + (t - max node.currentValue bound) = t := by omega
        rw [Nat.add_zero,hval] at hzeros
        have htarget : min node.value t = t := min_eq_right (by omega)
        refine ⟨t,false,hzeros,⟨by simp [hlt],fun hfin => absurd hfin (by simp [hlt]),?_⟩,
          htarget.symm,?_,fun h => absurd h hlt,fun _ => le_rfl⟩
        · rw [htarget]
        · omega

section
variable {W H levels : ℕ} {p : Pyramid} {x y t t' : ℕ}

/-- The children of a node that the decoder does not go beyond. -/
theorem Matches.child_idle {c : TagTree} {bound bound' level a b parentVal : ℕ}
    (hsound : Sound W H levels p) (hx : x < W) (hy : y < H) (hlevel : level + 1 < levels)
    (hc : Matches W H p c bound level a b) (hle : bound ≤ bound')
    (hready : Ready p x y t (level + 2)) (hbound : t ≤ bound')
    (hcurrent : t ≤ ((p (level + 1) (x / 2 ^ (level + 1)) (y / 2 ^ (level + 1))).encode parentVal
      t).2.currentValue) :
    Matches W H (p.encodePath x y t (level + 2) parentVal).2 c bound' level a b := by
  by_cases hon : a = x / 2 ^ level ∧ b = y / 2 ^ level
  · obtain ⟨rfl,rfl⟩ := hon
    have hset : Matches W H (p.set (level + 1) (x / 2 ^ (level + 1)) (y / 2 ^ (level + 1))
        ((p (level + 1) (x / 2 ^ (level + 1)) (y / 2 ^ (level + 1))).encode parentVal t).2) c bound'
        level (x / 2 ^ level) (y / 2 ^ level) :=
      (hc.mono hle).congr fun j hj _ _ _ _ => Pyramid.set_of_ne _ _ (by omega)
    refine hset.idle (hsound.set hlevel (cell_path hx hy (level + 1)) parentVal) hx hy (by omega)
      (hready.set _) hcurrent ?_ hbound
    rw [Pyramid.set_of_ne _ _ (by omega)]
    exact current_le_child hsound hx hy hlevel parentVal
  · exact (hc.mono hle).off_path hon

/-- The bits of a query below a node answer it, and both trees match again. -/
def Answers (W H levels x y t t' : ℕ) (r' : BitStuffing.BitReader) (tree : TagTree) : Prop :=
  ∀ (p : Pyramid) (bound level : ℕ) (r : BitStuffing.BitReader), Sound W H levels p →
    level < levels → Matches W H p tree bound level (x / 2 ^ level) (y / 2 ^ level) →
    Ready p x y t (level + 1) → bound ≤ t →
    bound ≤ (p level (x / 2 ^ level) (y / 2 ^ level)).value →
    (t = t' ∨ (p 0 x y).value < t ∧ (p 0 x y).value < t') →
    Presents r (p.encodePath x y t (level + 1) bound).1 r' →
    ∃ a tree', tree.read (x % 2 ^ level) (y % 2 ^ level) bound t' r = some (a,tree',r') ∧
      Matches W H (p.encodePath x y t (level + 1) bound).2 tree' bound level (x / 2 ^ level)
        (y / 2 ^ level) ∧
      ((p 0 x y).value < t → a = (p 0 x y).value) ∧ (t ≤ (p 0 x y).value → t ≤ a)

/-- Behind a node that has reached the threshold the encoder writes nothing. -/
theorem below_idle {level bound : ℕ} (hsound : Sound W H levels p) (hx : x < W) (hy : y < H)
    (hlevel : level + 1 < levels)
    (hcurrent : t ≤ ((p (level + 1) (x / 2 ^ (level + 1)) (y / 2 ^ (level + 1))).encode bound
      t).2.currentValue) :
    ((p.set (level + 1) (x / 2 ^ (level + 1)) (y / 2 ^ (level + 1))
      ((p (level + 1) (x / 2 ^ (level + 1)) (y / 2 ^ (level + 1))).encode bound
        t).2).encodePath x y t (level + 1) ((p (level + 1) (x / 2 ^ (level + 1))
          (y / 2 ^ (level + 1))).encode bound t).2.currentValue).1 = [] := by
  refine encodePath_idle (hsound.set hlevel (cell_path hx hy (level + 1)) bound) hx hy (by omega)
    hcurrent ?_
  rw [Pyramid.set_of_ne _ _ (by omega)]
  exact current_le_child hsound hx hy hlevel bound

section
variable {bound level value value' : ℕ} {rm r' : BitStuffing.BitReader}
  (hsound : Sound W H levels p) (hx : x < W) (hy : y < H) (hlevel : level + 1 < levels)
  (hready : Ready p x y t (level + 2))
  (hcurrent : value' = ((p (level + 1) (x / 2 ^ (level + 1)) (y / 2 ^ (level + 1))).encode bound
    t).2.currentValue)
include hsound hx hy hlevel hready hcurrent

/-- Children of a node at which the decoder stops. -/
theorem Matches.stop {c₀ c₁ c₂ c₃ : TagTree} {cx cy : ℕ} (hle : max value bound ≤ value')
    (hbound : t ≤ value')
    (h : Matches W H p c₀ (max value bound) level (2 * cx) (2 * cy) ∧
      Matches W H p c₁ (max value bound) level (2 * cx + 1) (2 * cy) ∧
      Matches W H p c₂ (max value bound) level (2 * cx) (2 * cy + 1) ∧
      Matches W H p c₃ (max value bound) level (2 * cx + 1) (2 * cy + 1)) :
    Matches W H (p.encodePath x y t (level + 2) bound).2 c₀ (max value' bound) level (2 * cx)
        (2 * cy) ∧
      Matches W H (p.encodePath x y t (level + 2) bound).2 c₁ (max value' bound) level (2 * cx + 1)
        (2 * cy) ∧
      Matches W H (p.encodePath x y t (level + 2) bound).2 c₂ (max value' bound) level (2 * cx)
        (2 * cy + 1) ∧
      Matches W H (p.encodePath x y t (level + 2) bound).2 c₃ (max value' bound) level (2 * cx + 1)
        (2 * cy + 1) := by
  have hidle : ∀ c a b, Matches W H p c (max value bound) level a b →
      Matches W H (p.encodePath x y t (level + 2) bound).2 c (max value' bound) level a b :=
    fun c a b hc => hc.child_idle hsound hx hy hlevel (by omega) hready (by omega) (by omega)
  obtain ⟨h₀,h₁,h₂,h₃⟩ := h
  exact ⟨hidle _ _ _ h₀,hidle _ _ _ h₁,hidle _ _ _ h₂,hidle _ _ _ h₃⟩

/-- The child that holds the leaf answers what is left of the query. -/
theorem Answers.child {c : TagTree} (hanswers : Answers W H levels x y t t' r' c)
    (hc : Matches W H p c (max value bound) level (x / 2 ^ level) (y / 2 ^ level))
    (hmono : max value bound ≤ value') (hle : value' ≤ t)
    (ht : t = t' ∨ (p 0 x y).value < t ∧ (p 0 x y).value < t')
    (hrest : Presents rm ((p.set (level + 1) (x / 2 ^ (level + 1)) (y / 2 ^ (level + 1))
      ((p (level + 1) (x / 2 ^ (level + 1)) (y / 2 ^ (level + 1))).encode bound t).2).encodePath x y t
        (level + 1) ((p (level + 1) (x / 2 ^ (level + 1)) (y / 2 ^ (level + 1))).encode bound
          t).2.currentValue).1 r') :
    ∃ a c', c.read (x % 2 ^ level) (y % 2 ^ level) value' t' rm = some (a,c',r') ∧
      Matches W H (p.encodePath x y t (level + 2) bound).2 c' (max value' bound) level
        (x / 2 ^ level) (y / 2 ^ level) ∧
      ((p 0 x y).value < t → a = (p 0 x y).value) ∧ (t ≤ (p 0 x y).value → t ≤ a) := by
  obtain ⟨q,hq⟩ : ∃ q, q = p.set (level + 1) (x / 2 ^ (level + 1)) (y / 2 ^ (level + 1))
      ((p (level + 1) (x / 2 ^ (level + 1)) (y / 2 ^ (level + 1))).encode bound t).2 := ⟨_,rfl⟩
  have hbelow : ∀ j ≤ level, ∀ a b, q j a b = p j a b := fun j hj a b => by
    rw [hq,Pyramid.set_of_ne _ _ (by omega)]
  have hpathEq : (p.encodePath x y t (level + 2) bound).2 =
      (q.encodePath x y t (level + 1) value').2 := by
    rw [hcurrent,hq]
    rfl
  have hsound' : Sound W H levels q := by
    rw [hq]
    exact hsound.set hlevel (cell_path hx hy (level + 1)) bound
  have hready' : Ready q x y t (level + 1) := by
    rw [hq]
    exact hready.set _
  have hnext : value' ≤ (q level (x / 2 ^ level) (y / 2 ^ level)).value := by
    rw [hbelow level le_rfl,hcurrent]
    exact current_le_child hsound hx hy hlevel bound
  have hon : Matches W H q c value' level (x / 2 ^ level) (y / 2 ^ level) :=
    (hc.mono hmono).congr fun j hj a b _ _ => hbelow j hj a b
  rw [← hq,← hcurrent] at hrest
  rw [← hbelow 0 (by omega)] at ht ⊢
  rw [hpathEq,show max value' bound = value' by omega]
  exact hanswers q value' level rm hsound' (by omega) hon hready' hle hnext ht hrest

end

/-- Step lemma. -/
theorem Matches.read {r' : BitStuffing.BitReader} (hx : x < W) (hy : y < H) (tree : TagTree) :
    Answers W H levels x y t t' r' tree := by
  induction tree with
  | absent =>
      intro p bound level r _ _ h
      exact absurd ⟨(Nat.div_mul_le_self _ _).trans_lt hx,(Nat.div_mul_le_self _ _).trans_lt hy⟩ h
  | node width height value initialized level' c₀ c₁ c₂ c₃ ih₀ ih₁ ih₂ ih₃ =>
      intro p bound level r hsound hlevel h hready hbound hvalue ht hp
      obtain ⟨⟨rfl,rfl,hsame⟩,hagrees,hchildren⟩ := h
      obtain rfl : level = level' := hsame.symm
      have hcell := cell_path hx hy level
      have hpath := hsound.path_le hx hy hlevel
      have hself : (p.encodePath x y t (level + 1) bound).2 level (x / 2 ^ level) (y / 2 ^ level) =
          ((p level (x / 2 ^ level) (y / 2 ^ level)).encode bound t).2 := encodePath_self x y t level bound
      have hnear : t = t' ∨ (p level (x / 2 ^ level) (y / 2 ^ level)).value < t ∧
          (p level (x / 2 ^ level) (y / 2 ^ level)).value < t' := by omega
      obtain ⟨rm,hown,hrest⟩ := presents_append.mp hp
      obtain ⟨value',initialized',hread,hagrees',hcurrent,hmono,hsettled,hunsettled⟩ :=
        hagrees.readOwn (hsound.low level hlevel _ _ hcell) (hsound.known level hlevel _ _ hcell)
          (hready level (Nat.lt_succ_self _)) hbound hvalue hnear hown
      have hlowValue := hsound.encode_low (t := t) hlevel hcell bound
      rw [← hself] at hagrees'
      unfold TagTree.read
      rw [hread]
      simp only [Option.bind_eq_bind,Option.bind_some]
      by_cases hstop : value' ≥ t' ∨ level = 0
      · -- the node is the leaf, or has reached the threshold
        rw [if_pos hstop]
        refine ⟨value',.node (span W level (x / 2 ^ level)) (span H level (y / 2 ^ level)) value'
          initialized' level c₀ c₁ c₂ c₃,?_,⟨⟨rfl,rfl,rfl⟩,hagrees',?_⟩,?_,fun hle => ?_⟩
        · cases level with
          | zero => rw [show rm = r' from hrest]
          | succ level =>
              have hge : t' ≤ value' := hstop.resolve_right (Nat.succ_ne_zero _)
              rw [below_idle hsound hx hy hlevel (by omega)] at hrest
              rw [show rm = r' from hrest]
        · cases level with
          | zero => exact .inl rfl
          | succ level =>
              have hge : t' ≤ value' := hstop.resolve_right (Nat.succ_ne_zero _)
              exact .inr (Matches.stop hsound hx hy hlevel hready hcurrent hmono (by omega)
                (hchildren.resolve_left (Nat.succ_ne_zero _)))
        · intro hlt
          have hV : (p level (x / 2 ^ level) (y / 2 ^ level)).value < t := by omega
          rcases hstop with hge | rfl
          · have := hsettled hV
            omega
          · have := hsettled hV
            simpa using this
        · by_cases hV : (p level (x / 2 ^ level) (y / 2 ^ level)).value < t
          · have := hsettled hV
            rcases hstop with hge | rfl
            · omega
            · have hleaf : (p 0 (x / 2 ^ 0) (y / 2 ^ 0)).value = (p 0 x y).value := by simp
              omega
          · exact hunsettled (by omega)
      · -- both go down to the child that holds the leaf
        rw [if_neg hstop]
        obtain ⟨level,rfl⟩ : ∃ k, level = k + 1 := ⟨level - 1,by omega⟩
        obtain ⟨h₀,h₁,h₂,h₃⟩ := hchildren.resolve_left (Nat.succ_ne_zero _)
        have hV : (p (level + 1) (x / 2 ^ (level + 1)) (y / 2 ^ (level + 1))).value < t := by
          by_contra hge
          have := hunsettled (by omega)
          omega
        have hv := hsettled hV
        have hdown : ∀ c, Answers W H levels x y t t' r' c →
            Matches W H p c (max value bound) level (x / 2 ^ level) (y / 2 ^ level) → _ :=
          fun c hanswers hc => hanswers.child hsound hx hy hlevel hready hcurrent hc hmono (by omega) ht
            hrest
        have hoff : ∀ c a b, Matches W H p c (max value bound) level a b →
            ¬(a = x / 2 ^ level ∧ b = y / 2 ^ level) →
            Matches W H (p.encodePath x y t (level + 2) bound).2 c (max value' bound) level a b :=
          fun c a b hc hne => (hc.mono (by omega)).off_path hne
        rcases half_cases hx level with ⟨hxlt,hxc,hxr⟩ | ⟨hxlt,hxc,hxr⟩ <;>
          rcases half_cases hy level with ⟨hylt,hyc,hyr⟩ | ⟨hylt,hyc,hyr⟩
        · obtain ⟨a,c,hchild,hmatches,hanswer⟩ := hdown c₀ ih₀ (by rw [hxc,hyc]; exact h₀)
          rw [hxc,hyc] at hmatches
          refine ⟨a,.node _ _ value' initialized' (level + 1) c c₁ c₂ c₃,?_,
            ⟨⟨rfl,rfl,rfl⟩,hagrees',.inr ⟨hmatches,hoff _ _ _ h₁ (by omega),hoff _ _ _ h₂ (by omega),
              hoff _ _ _ h₃ (by omega)⟩⟩,hanswer⟩
          rw [if_pos hylt,if_pos hxlt,hxr,hyr,hchild]
          rfl
        · obtain ⟨a,c,hchild,hmatches,hanswer⟩ := hdown c₂ ih₂ (by rw [hxc,hyc]; exact h₂)
          rw [hxc,hyc] at hmatches
          refine ⟨a,.node _ _ value' initialized' (level + 1) c₀ c₁ c c₃,?_,
            ⟨⟨rfl,rfl,rfl⟩,hagrees',.inr ⟨hoff _ _ _ h₀ (by omega),hoff _ _ _ h₁ (by omega),hmatches,
              hoff _ _ _ h₃ (by omega)⟩⟩,hanswer⟩
          rw [if_neg hylt,if_pos hxlt,hxr,hyr,hchild]
          rfl
        · obtain ⟨a,c,hchild,hmatches,hanswer⟩ := hdown c₁ ih₁ (by rw [hxc,hyc]; exact h₁)
          rw [hxc,hyc] at hmatches
          refine ⟨a,.node _ _ value' initialized' (level + 1) c₀ c c₂ c₃,?_,
            ⟨⟨rfl,rfl,rfl⟩,hagrees',.inr ⟨hoff _ _ _ h₀ (by omega),hmatches,hoff _ _ _ h₂ (by omega),
              hoff _ _ _ h₃ (by omega)⟩⟩,hanswer⟩
          rw [if_pos hylt,if_neg hxlt,hxr,hyr,hchild]
          rfl
        · obtain ⟨a,c,hchild,hmatches,hanswer⟩ := hdown c₃ ih₃ (by rw [hxc,hyc]; exact h₃)
          rw [hxc,hyc] at hmatches
          refine ⟨a,.node _ _ value' initialized' (level + 1) c₀ c₁ c₂ c,?_,
            ⟨⟨rfl,rfl,rfl⟩,hagrees',.inr ⟨hoff _ _ _ h₀ (by omega),hoff _ _ _ h₁ (by omega),
              hoff _ _ _ h₂ (by omega),hmatches⟩⟩,hanswer⟩
          rw [if_neg hylt,if_neg hxlt,hxr,hyr,hchild]
          rfl

end

/-! ## Runs of queries -/

/-- A query of a leaf, with the thresholds of the encoder and of the decoder. -/
structure Query where
  x : ℕ
  y : ℕ
  threshold : ℕ
  readThreshold : ℕ
  deriving DecidableEq, Repr

/-- The bits that the encoder writes for every query. -/
def encodeQueries : TagTreeEncoder → List Query →
    Except EncodeError (List (List Bool) × TagTreeEncoder)
  | e, [] => .ok ([],e)
  | e, q :: queries => do
      let (bits,e) ← e.encode q.x q.y q.threshold
      let (rest,e) ← encodeQueries e queries
      .ok (bits :: rest,e)

/-- What the decoder answers every query, and where it stands then. -/
def readQueries : TagTree → BitStuffing.BitReader → List Query → Option (List (ℕ × BitStuffing.BitReader))
  | _, _, [] => some []
  | tree, r, q :: queries => do
      let (answer,tree,r) ← tree.read q.x q.y 0 q.readThreshold r
      let answers ← readQueries tree r queries
      some ((answer,r) :: answers)

/-- The query stops short of the value. -/
def Query.Short (f : ℕ → ℕ → ℕ) (q : Query) : Prop := q.threshold ≤ f q.x q.y

/-- Encoder and decoder after these queries. -/
structure Synced (f : ℕ → ℕ → ℕ) (past : List Query) (e : TagTreeEncoder) (p : Pyramid)
    (tree : TagTree) : Prop where
  laid : Laid e
  shows : Shows e e.nodes p
  sound : Sound e.width e.height e.numLevels p
  matching : Matches e.width e.height p tree 0 (e.numLevels - 1) 0 0
  leaf : ∀ x < e.width, ∀ y < e.height, (p 0 x y).value = f x y
  past : ∀ level < e.numLevels, ∀ cx cy, Cell e.width e.height level cx cy →
    (p level cx cy).known = false → (p level cx cy).currentValue = 0 ∨
      ∃ q ∈ past, q.Short f ∧ (p level cx cy).currentValue = q.threshold

section
variable {f : ℕ → ℕ → ℕ} {past : List Query} {e : TagTreeEncoder} {p : Pyramid} {tree : TagTree}

theorem Synced.ready (h : Synced f past e p tree) {q : Query} (hx : q.x < e.width)
    (hy : q.y < e.height) (hpast : ∀ q' ∈ past, q'.Short f → q.Short f → q'.threshold ≤ q.threshold) :
    Ready p q.x q.y q.threshold e.numLevels := by
  intro l hl hknown hle
  rcases h.past l hl _ _ (cell_path hx hy l) hknown with hzero | ⟨q',hq',hshort,hcurrent⟩
  · omega
  · rw [hcurrent]
    refine hpast q' hq' hshort (hle.trans ?_)
    rw [← h.leaf q.x hx q.y hy]
    exact h.sound.path_le hx hy hl

theorem encodePath_value (x y t : ℕ) {level parentVal : ℕ} (l a b : ℕ) :
    ((p.encodePath x y t level parentVal).2 l a b).value = (p l a b).value := by
  induction level generalizing parentVal p with
  | zero => rfl
  | succ level ih =>
      unfold Pyramid.encodePath
      dsimp only
      rw [ih]
      by_cases hsame : l = level ∧ a = x / 2 ^ level ∧ b = y / 2 ^ level
      · obtain ⟨rfl,rfl,rfl⟩ := hsame
        rw [Pyramid.set_self,TagNode.encode_value]
      · rw [Pyramid.set_of_ne _ _ hsame]

/-- What a query leaves open it leaves at its threshold. -/
theorem encodePath_open (x y t : ℕ) {level parentVal l a b : ℕ}
    (hopen : ((p.encodePath x y t level parentVal).2 l a b).known = false) :
    (p.encodePath x y t level parentVal).2 l a b = p l a b ∨
      (l < level ∧ a = x / 2 ^ l ∧ b = y / 2 ^ l ∧ t ≤ (p l a b).value ∧
        ((p.encodePath x y t level parentVal).2 l a b).currentValue = t) := by
  induction level generalizing parentVal p with
  | zero => exact .inl rfl
  | succ level ih =>
      unfold Pyramid.encodePath at hopen ⊢
      dsimp only at hopen ⊢
      by_cases hsame : l = level ∧ a = x / 2 ^ level ∧ b = y / 2 ^ level
      · obtain ⟨rfl,rfl,rfl⟩ := hsame
        rw [encodePath_other x y t _ (by omega),Pyramid.set_self] at hopen ⊢
        cases hknown : (p l (x / 2 ^ l) (y / 2 ^ l)).known with
        | true =>
            rw [TagNode.encode_known hknown]
            exact .inl rfl
        | false =>
            rw [TagNode.encode_open hknown] at hopen ⊢
            have hge : t ≤ (p l (x / 2 ^ l) (y / 2 ^ l)).value :=
              not_lt.mp (of_decide_eq_false hopen)
            exact .inr ⟨Nat.lt_succ_self _,rfl,rfl,hge,min_eq_right hge⟩
      · have hother := Pyramid.set_of_ne p
          ((p level (x / 2 ^ level) (y / 2 ^ level)).encode parentVal t).2 hsame
        rcases ih hopen with heq | ⟨hl,ha,hb,hle,hcurrent⟩
        · exact .inl (heq.trans hother)
        · exact .inr ⟨by omega,ha,hb,by rwa [hother] at hle,hcurrent⟩

/-- Step lemma: a query is answered, and both sides agree again. -/
theorem Synced.query (h : Synced f past e p tree) {q : Query} (hx : q.x < e.width)
    (hy : q.y < e.height) (hpast : ∀ q' ∈ past, q'.Short f → q.Short f → q'.threshold ≤ q.threshold)
    (ht : q.threshold = q.readThreshold ∨
      f q.x q.y < q.threshold ∧ f q.x q.y < q.readThreshold) :
    ∃ bits nodes, e.encode q.x q.y q.threshold = .ok (bits,{ e with nodes }) ∧
      ∃ p', ∀ r r', Presents r bits r' → ∃ answer tree',
        tree.read q.x q.y 0 q.readThreshold r = some (answer,tree',r') ∧
        Synced f (q :: past) { e with nodes } p' tree' ∧
        (f q.x q.y < q.threshold → answer = f q.x q.y) ∧ (q.Short f → q.threshold ≤ answer) := by
  obtain ⟨top,htop⟩ : ∃ top, e.numLevels = top + 1 := ⟨e.numLevels - 1,by have := h.laid.levels; omega⟩
  have hlast : e.numLevels - 1 = top := by omega
  have hsize := h.laid.top
  rw [levelSize_le_one,levelSize_le_one,hlast] at hsize
  have hx0 : q.x / 2 ^ top = 0 := Nat.div_eq_of_lt (hx.trans_le hsize.1)
  have hy0 : q.y / 2 ^ top = 0 := Nat.div_eq_of_lt (hy.trans_le hsize.2)
  have hxmod : q.x % 2 ^ top = q.x := Nat.mod_eq_of_lt (hx.trans_le hsize.1)
  have hymod : q.y % 2 ^ top = q.y := Nat.mod_eq_of_lt (hy.trans_le hsize.2)
  obtain ⟨hbits,hshows⟩ := h.shows.encodePath h.laid hx hy q.threshold 0 (le_refl e.numLevels)
  have hmatching : Matches e.width e.height p tree 0 top (q.x / 2 ^ top) (q.y / 2 ^ top) := by
    rw [hx0,hy0,← hlast]
    exact h.matching
  have hready := h.ready hx hy hpast
  rw [htop] at hready hbits hshows
  refine ⟨(p.encodePath q.x q.y q.threshold (top + 1) 0).1,
    (e.encodePath q.x q.y q.threshold (top + 1) 0 e.nodes).2,?_,
    (p.encodePath q.x q.y q.threshold (top + 1) 0).2,fun r r' hp => ?_⟩
  · unfold TagTreeEncoder.encode
    rw [if_neg (by omega)]
    dsimp only
    rw [htop,hbits]
  · obtain ⟨answer,tree',hread,hmatches,hbelow,hshort⟩ :=
      Matches.read hx hy tree p 0 top r h.sound (by omega) hmatching hready (Nat.zero_le _)
        (Nat.zero_le _) (by rwa [h.leaf q.x hx q.y hy]) hp
    rw [hxmod,hymod] at hread
    rw [h.leaf q.x hx q.y hy] at hbelow hshort
    rw [hx0,hy0] at hmatches
    refine ⟨answer,tree',hread,⟨⟨h.laid.levels,h.laid.offsets,h.laid.top,h.laid.below⟩,hshows,
      h.sound.encodePath hx hy (by omega) 0,?_,fun x hx y hy => ?_,fun level hlevel cx cy hcell hopen => ?_⟩,
      hbelow,hshort⟩
    · have hroot : ∀ level, level = top → Matches e.width e.height
          (p.encodePath q.x q.y q.threshold (top + 1) 0).2 tree' 0 level 0 0 := by
        rintro _ rfl
        exact hmatches
      exact hroot _ hlast
    · rw [encodePath_value]
      exact h.leaf x hx y hy
    · rcases encodePath_open q.x q.y q.threshold hopen with heq | ⟨hl,rfl,rfl,hle,hcurrent⟩
      · rw [heq] at hopen ⊢
        exact (h.past level hlevel cx cy hcell hopen).imp_right fun ⟨q',hq',hrest⟩ =>
          ⟨q',List.mem_cons_of_mem _ hq',hrest⟩
      · refine .inr ⟨q,List.mem_cons_self,?_,hcurrent⟩
        have hpath := h.sound.path_le hx hy hlevel
        rw [h.leaf q.x hx q.y hy] at hpath
        exact hle.trans hpath

/-- Run lemma: all queries, whatever stands before and behind them. -/
theorem Synced.queries {queries : List Query} (h : Synced f past e p tree)
    (hin : ∀ q ∈ queries, q.x < e.width ∧ q.y < e.height)
    (hpast : ∀ q' ∈ past, ∀ q ∈ queries, q'.Short f → q.Short f → q'.threshold ≤ q.threshold)
    (hpairs : queries.Pairwise fun q' q => q'.Short f → q.Short f → q'.threshold ≤ q.threshold)
    (ht : ∀ q ∈ queries, q.threshold = q.readThreshold ∨
      f q.x q.y < q.threshold ∧ f q.x q.y < q.readThreshold) :
    ∃ bits e', encodeQueries e queries = .ok (bits,e') ∧ ∀ pre post, ∃ answers,
      readQueries tree ⟨written (pre ++ bits.flatten ++ post),placeAfter pre⟩ queries =
        some answers ∧
      List.Forall₂ (fun q a => (f q.x q.y < q.threshold → a.1 = f q.x q.y) ∧
        (q.Short f → q.threshold ≤ a.1)) queries answers ∧
      answers.map Prod.snd = (List.range queries.length).map fun i =>
        ⟨written (pre ++ bits.flatten ++ post),placeAfter (pre ++ (bits.take (i + 1)).flatten)⟩ := by
  induction queries generalizing past e p tree with
  | nil => exact ⟨[],e,rfl,fun _ _ => ⟨[],rfl,.nil,rfl⟩⟩
  | cons q queries ih =>
      obtain ⟨hfirst,hpairs⟩ := List.pairwise_cons.mp hpairs
      obtain ⟨hx,hy⟩ := hin q List.mem_cons_self
      obtain ⟨bits,nodes,hencode,p',hquery⟩ := h.query hx hy
        (fun q' hq' => hpast q' hq' q List.mem_cons_self) (ht q List.mem_cons_self)
      have hnext : ∀ tree', Synced f (q :: past) { e with nodes } p' tree' → _ := fun tree' h' =>
        ih h' (fun q' hq' => hin q' (List.mem_cons_of_mem _ hq')) (fun q' hq' q'' hq'' => by
          rcases List.mem_cons.mp hq' with rfl | hq'
          · exact hfirst q'' hq''
          · exact hpast q' hq' q'' (List.mem_cons_of_mem _ hq'')) hpairs
          fun q' hq' => ht q' (List.mem_cons_of_mem _ hq')
      obtain ⟨answer₀,tree₀,-,hsynced₀,-⟩ := hquery _ _ (presents_written [] bits [])
      obtain ⟨rest,e',hrest,-⟩ := hnext tree₀ hsynced₀
      refine ⟨bits :: rest,e',?_,fun pre post => ?_⟩
      · unfold encodeQueries
        rw [hencode]
        simp only [ok_bind]
        rw [hrest]
        rfl
      · have hdata : pre ++ (bits :: rest).flatten ++ post =
            pre ++ bits ++ (rest.flatten ++ post) := by
          simp
        have hdata' : pre ++ (bits :: rest).flatten ++ post =
            pre ++ bits ++ rest.flatten ++ post := by
          simp
        obtain ⟨answer,tree',hread,hsynced,hanswer⟩ :=
          hquery _ _ (presents_written pre bits (rest.flatten ++ post))
        obtain ⟨rest',e'',hrest',hanswers⟩ := hnext tree' hsynced
        rw [hrest] at hrest'
        cases hrest'
        obtain ⟨answers,hreads,hcorrect,hplaces⟩ := hanswers (pre ++ bits) post
        rw [← hdata] at hread
        rw [← hdata'] at hreads hplaces
        refine ⟨(answer,⟨written (pre ++ (bits :: rest).flatten ++ post),placeAfter (pre ++ bits)⟩) ::
          answers,?_,.cons hanswer hcorrect,?_⟩
        · unfold readQueries
          rw [hread]
          simp only [Option.bind_eq_bind,Option.bind_some]
          rw [hreads]
          rfl
        · rw [List.map_cons,hplaces,List.length_cons,List.range_succ_eq_map,List.map_cons,List.map_map]
          congr 1
          · simp
          · refine List.map_congr_left fun i _ => ?_
            simp [List.append_assoc]

end

/-- Whatever the grid and the values of its leaves: the bits of all queries are read back query by
query, and each is answered with the value of its leaf, if that is below the threshold, and
otherwise with no less than the threshold. Of two queries that both stop short of their values
the later has no smaller threshold. The decoder may ask beyond the threshold where the
value is below it. -/
theorem tag_tree_round_trip {width height : ℕ} {f : ℕ → ℕ → ℕ} {e : TagTreeEncoder}
    {queries : List Query} (hnew : tryNew width height = .ok e)
    (hin : ∀ q ∈ queries, q.x < width ∧ q.y < height)
    (hpairs : queries.Pairwise fun q' q => q'.Short f → q.Short f → q'.threshold ≤ q.threshold)
    (ht : ∀ q ∈ queries, q.threshold = q.readThreshold ∨
      f q.x q.y < q.threshold ∧ f q.x q.y < q.readThreshold) :
    ∃ e₁ bits e₂, assignLeaves e f = .ok e₁ ∧ encodeQueries e₁ queries = .ok (bits,e₂) ∧
      ∀ pre post, ∃ answers,
        readQueries (.new width height) ⟨written (pre ++ bits.flatten ++ post),placeAfter pre⟩
          queries = some answers ∧
        List.Forall₂ (fun q a => (f q.x q.y < q.threshold → a.1 = f q.x q.y) ∧
          (q.Short f → q.threshold ≤ a.1)) queries answers ∧
        answers.map Prod.snd = (List.range queries.length).map fun i =>
          ⟨written (pre ++ bits.flatten ++ post),
            placeAfter (pre ++ (bits.take (i + 1)).flatten)⟩ := by
  obtain ⟨hlaid,rfl,rfl,hnodes⟩ := laid_of_tryNew hnew
  obtain ⟨nodes,hassign,hassigned⟩ := assignLeaves_ok hlaid hnodes f
  cases queries with
  | nil => exact ⟨_,[],_,hassign,rfl,fun _ _ => ⟨[],rfl,.nil,rfl⟩⟩
  | cons q queries =>
      obtain ⟨hx,hy⟩ := hin q List.mem_cons_self
      have hlaid' : Laid { e with nodes } := ⟨hlaid.levels,hlaid.offsets,hlaid.top,hlaid.below⟩
      have hsize := hlaid.top
      rw [levelSize_le_one,levelSize_le_one] at hsize
      have hspan : ∀ {n}, n ≤ 2 ^ (e.numLevels - 1) → span n (e.numLevels - 1) 0 = n := fun hn => by
        unfold span
        omega
      have hbuild := @matches_build e.width e.height (fun l a b => nodes (e.nodeIndex l a b)) 0
        (e.numLevels - 1) 0 0
        (fun l a b _ => hassigned.fresh _) (by omega) (by omega)
      rw [hspan hsize.1,hspan hsize.2,← hlaid.ceilLog2] at hbuild
      have hsynced : Synced f [] { e with nodes } (fun l a b => nodes (e.nodeIndex l a b))
          (.new e.width e.height) :=
        ⟨hlaid',fun _ _ _ _ _ => rfl,
          ⟨fun l _ a b _ => by
              have := (hassigned.fresh (e.nodeIndex l a b)).1
              dsimp only at this ⊢
              omega,
            fun l _ a b _ hknown => absurd (hknown.symm.trans (hassigned.fresh _).2) (by decide),
            fun l hl a b hab => hassigned.ordered l hl a b hab⟩,
          by
            rw [show ({ e with nodes } : TagTreeEncoder).numLevels - 1 = e.numLevels - 1 from rfl,
              ← hlaid.ceilLog2]
            exact hbuild,
          fun x hx y hy => hassigned.leaves x hx y hy (by
            dsimp only at hx hy ⊢
            calc y * e.width + x < y * e.width + e.width := by omega
              _ = (y + 1) * e.width := (Nat.succ_mul _ _).symm
              _ ≤ e.height * e.width := Nat.mul_le_mul_right _ hy
              _ = e.width * e.height := Nat.mul_comm _ _),
          fun l _ a b _ _ => .inl (hassigned.fresh _).1⟩
      obtain ⟨bits,e₂,hencode,hanswers⟩ := hsynced.queries hin nofun hpairs ht
      exact ⟨_,bits,e₂,hassign,hencode,hanswers⟩

/-- Layers asked for one after the other, and the value of a leaf once it is included. -/
def includingQueries : List Query :=
  [⟨0,0,1,1⟩,⟨2,1,1,1⟩,⟨0,0,2,2⟩,⟨1,1,4,4294967295⟩,⟨2,1,2,2⟩,⟨2,1,3,3⟩]

theorem tag_tree_round_trip_including : ∃ e e₁ bits e₂ answers, tryNew 3 2 = .ok e ∧
    assignLeaves e (fun x y => x + 2 * y) = .ok e₁ ∧
    encodeQueries e₁ includingQueries = .ok (bits,e₂) ∧
    readQueries (.new 3 2) ⟨written bits.flatten,0⟩ includingQueries = some answers ∧
    List.Forall₂ (fun q a => (q.x + 2 * q.y < q.threshold → a.1 = q.x + 2 * q.y) ∧
      (q.threshold ≤ q.x + 2 * q.y → q.threshold ≤ a.1)) includingQueries answers := by
  obtain ⟨e₁,bits,e₂,hassign,hencode,hread⟩ := tag_tree_round_trip (f := fun x y => x + 2 * y)
    (show tryNew 3 2 = .ok ⟨fun _ => ⟨0,0,false⟩,3,2,[0,6,8]⟩ from rfl)
    (show ∀ q ∈ includingQueries, q.x < 3 ∧ q.y < 2 by decide)
    (by unfold Query.Short; decide) (by decide)
  obtain ⟨answers,hanswers,hcorrect,-⟩ := hread [] []
  rw [List.nil_append,List.append_nil] at hanswers
  exact ⟨_,e₁,bits,e₂,answers,rfl,hassign,hencode,hanswers,hcorrect⟩

/-- Between two queries of one leaf another asks for less, and the encoder forgets what it wrote
of the root. -/
def lowerQueries : List Query := [⟨0,0,5,5⟩,⟨1,0,2,2⟩,⟨0,0,6,6⟩]

theorem tag_tree_lower_threshold : ¬∀ (width height : ℕ) (f : ℕ → ℕ → ℕ) (e : TagTreeEncoder)
    (queries : List Query), tryNew width height = .ok e →
    (∀ q ∈ queries, q.x < width ∧ q.y < height) →
    queries.Pairwise (fun q' q => q'.x = q.x → q'.y = q.y → q'.threshold ≤ q.threshold) →
    (∀ q ∈ queries, q.threshold = q.readThreshold) →
    ∃ e₁ bits e₂, assignLeaves e f = .ok e₁ ∧ encodeQueries e₁ queries = .ok (bits,e₂) ∧
      ∃ answers, readQueries (.new width height) ⟨written bits.flatten,0⟩ queries = some answers ∧
        answers.map Prod.snd = (List.range queries.length).map fun i =>
          ⟨written bits.flatten,placeAfter (bits.take (i + 1)).flatten⟩ := by
  intro h
  obtain ⟨e₁,bits,e₂,hassign,hencode,answers,hread,hplaces⟩ := h 2 1 (fun _ _ => 7)
    ⟨fun _ => ⟨0,0,false⟩,2,1,[0,2]⟩ lowerQueries rfl (by decide) (by decide) (by decide)
  cases hassign
  have hbits : bits = [List.replicate 5 false,[],List.replicate 4 false] :=
    (congrArg (fun x : Except EncodeError (List (List Bool) × TagTreeEncoder) =>
      match x with
      | .ok a => a.1
      | .error _ => []) hencode).symm
  subst hbits
  have hpositions : (readQueries (.new 2 1)
      ⟨written [List.replicate 5 false,[],List.replicate 4 false].flatten,0⟩ lowerQueries).map
        (·.map fun a => a.2.curPos) = some [5,5,6] := by decide
  rw [hread] at hpositions
  have hlast := congrArg (·.map BitStuffing.BitReader.curPos) hplaces
  rw [List.map_map] at hlast
  exact absurd ((Option.some.inj hpositions).symm.trans hlast) (by decide)

end J2kNative.TagTrees
