import CommonLib.SearchTree.Path
import Mathlib.Algebra.Group.Nat.Defs
import Mathlib.Data.Nat.Log

/- Red-black trees: what the colours promise of a tree and of a place in it, and the local
   repairs after an insertion and a removal. -/
namespace SearchTree
variable {α : Type}

structure Painted (α : Type) where
  red : Bool
  item : α
  deriving DecidableEq, Repr

def paint (red : Bool) : BinaryTree (Painted α) → BinaryTree (Painted α)
  | .nil => .nil
  | .node x l r => .node ⟨red, x.item⟩ l r

theorem paint_join (red : Bool) (s : Side) (t u : BinaryTree (Painted α)) (x : Painted α) :
    paint red (join s t x u) = join s t ⟨red, x.item⟩ u := by cases s <;> rfl

def redRoot : BinaryTree (Painted α) → Bool
  | .nil => false
  | .node x _ _ => x.red

theorem redRoot_join (s : Side) (t u : BinaryTree (Painted α)) (x : Painted α) :
    redRoot (join s t x u) = x.red := by cases s <;> rfl

/-- No red node has a red child, and every way down has `n` black nodes. -/
inductive Balanced : Nat → BinaryTree (Painted α) → Prop where
  | nil : Balanced 0 .nil
  | red {n : Nat} {x : α} {l r : BinaryTree (Painted α)} :
      Balanced n l → redRoot l = false → Balanced n r → redRoot r = false →
      Balanced n (.node ⟨true, x⟩ l r)
  | black {n : Nat} {x : α} {l r : BinaryTree (Painted α)} :
      Balanced n l → Balanced n r → Balanced (n + 1) (.node ⟨false, x⟩ l r)

def RedBlack (t : BinaryTree (Painted α)) : Prop := redRoot t = false ∧ ∃ n, Balanced n t

/-- A place that a subtree with `n` black nodes on each way down fits in, with a red root if
    `red` allows it. -/
def Admits : Bool → Nat → Path (Painted α) → Prop
  | red, _, [] => red = false
  | red, n, ⟨_, ⟨true, _⟩, rest⟩ :: path =>
    red = false ∧ Balanced n rest ∧ redRoot rest = false ∧ Admits true n path
  | _, n, ⟨_, ⟨false, _⟩, rest⟩ :: path => Balanced n rest ∧ Admits false (n + 1) path

section Local
variable {s : Side} {t u : BinaryTree (Painted α)} {x : α} {n : Nat} {path : Path (Painted α)}

theorem balanced_red : Balanced n (join s t ⟨true, x⟩ u) ↔
    Balanced n t ∧ redRoot t = false ∧ Balanced n u ∧ redRoot u = false := by
  cases s with
  | left =>
    constructor
    · rintro (_ | ⟨l, redL, r, redR⟩)
      exact ⟨l, redL, r, redR⟩
    · rintro ⟨l, redL, r, redR⟩
      exact .red l redL r redR
  | right =>
    constructor
    · rintro (_ | ⟨l, redL, r, redR⟩)
      exact ⟨r, redR, l, redL⟩
    · rintro ⟨l, redL, r, redR⟩
      exact .red r redR l redL

theorem balanced_black : Balanced (n + 1) (join s t ⟨false, x⟩ u) ↔
    Balanced n t ∧ Balanced n u := by
  cases s with
  | left =>
    constructor
    · rintro (_ | _ | ⟨l, r⟩)
      exact ⟨l, r⟩
    · exact fun both => .black both.1 both.2
  | right =>
    constructor
    · rintro (_ | _ | ⟨l, r⟩)
      exact ⟨r, l⟩
    · exact fun both => .black both.2 both.1

theorem Balanced.of_black {m : Nat} (balanced : Balanced m (join s t ⟨false, x⟩ u)) :
    ∃ n, m = n + 1 ∧ Balanced n t ∧ Balanced n u := by
  cases m with
  | zero => cases s <;> cases balanced
  | succ n => exact ⟨n, rfl, balanced_black.mp balanced⟩

theorem Balanced.ne_nil (balanced : Balanced (n + 1) t) : ∃ y l r, t = .node y l r := by
  cases balanced with
  | red => exact ⟨_, _, _, rfl⟩
  | black => exact ⟨_, _, _, rfl⟩

theorem Admits.mono (admits : Admits true n path) : Admits false n path := by
  match path, admits with
  | ⟨_, ⟨true, _⟩, _⟩ :: _, ⟨no, _⟩ => cases no
  | ⟨_, ⟨false, _⟩, _⟩ :: _, admits => exact admits

theorem Admits.above_red (admits : Admits true n path) :
    ∃ s' y rest above, path = ⟨s', ⟨false, y⟩, rest⟩ :: above ∧ Balanced n rest ∧
      Admits false (n + 1) above := by
  match path, admits with
  | [], no => cases no
  | ⟨_, ⟨true, _⟩, _⟩ :: _, ⟨no, _⟩ => cases no
  | ⟨s', ⟨false, y⟩, rest⟩ :: above, ⟨balanced, outer⟩ =>
    exact ⟨s', y, rest, above, rfl, balanced, outer⟩

theorem plug_redBlack {c : Bool} (balanced : Balanced n t) (colour : redRoot t = true → c = true)
    (admits : Admits c n path) : RedBlack (plug path t) := by
  induction path generalizing t n c with
  | nil =>
    refine ⟨?_, n, balanced⟩
    cases red : redRoot t with
    | false => exact red
    | true => exact absurd ((colour red).symm.trans admits) (by decide)
  | cons step path ih =>
    obtain ⟨side, ⟨red, y⟩, rest⟩ := step
    cases red with
    | true =>
      obtain ⟨black, beside, blackRest, outer⟩ := admits
      subst black
      have blackT : redRoot t = false := by simpa using colour
      exact ih (balanced_red.mpr ⟨balanced, blackT, beside, blackRest⟩) (fun _ => rfl) outer
    | false =>
      obtain ⟨beside, outer⟩ := admits
      exact ih (balanced_black.mpr ⟨balanced, beside⟩)
        (fun wrong => absurd wrong (by simp [redRoot_join])) outer

theorem RedBlack.at (whole : RedBlack (plug path t)) :
    ∃ n, Balanced n t ∧ Admits (redRoot t) n path := by
  induction path generalizing t with
  | nil =>
    obtain ⟨black, n, balanced⟩ := whole
    exact ⟨n, balanced, black⟩
  | cons step path ih =>
    obtain ⟨side, ⟨red, y⟩, rest⟩ := step
    obtain ⟨m, balanced, outer⟩ := ih whole
    dsimp only at balanced outer
    rw [redRoot_join] at outer
    cases red with
    | true =>
      obtain ⟨inner, blackT, beside, blackRest⟩ := balanced_red.mp balanced
      exact ⟨m, inner, blackT, beside, blackRest, outer⟩
    | false =>
      obtain ⟨n, rfl, inner, beside⟩ := balanced.of_black
      exact ⟨n, inner, beside, outer⟩

theorem Admits.item {c : Bool} {above : Path (Painted α)} {w : BinaryTree (Painted α)} {y z : α}
    {red : Bool} (admits : Admits c n (path ++ ⟨s, ⟨red, y⟩, w⟩ :: above)) :
    Admits c n (path ++ ⟨s, ⟨red, z⟩, w⟩ :: above) := by
  induction path generalizing c n with
  | nil =>
    cases red with
    | true => exact admits
    | false => exact admits
  | cons step path ih =>
    obtain ⟨side, ⟨colour, item⟩, rest⟩ := step
    cases colour with
    | true => exact ⟨admits.1, admits.2.1, admits.2.2.1, ih admits.2.2.2⟩
    | false => exact ⟨admits.1, ih admits.2⟩

theorem RedBlack.item {above : Path (Painted α)} {w : BinaryTree (Painted α)} {y z : α}
    {red : Bool} (whole : RedBlack (plug (path ++ ⟨s, ⟨red, y⟩, w⟩ :: above) t)) :
    RedBlack (plug (path ++ ⟨s, ⟨red, z⟩, w⟩ :: above) t) := by
  obtain ⟨n, balanced, admits⟩ := whole.at
  exact plug_redBlack balanced id admits.item

end Local

/-! ### After an insertion -/

structure Raised (n : Nat) (path : Path (Painted α)) (t : BinaryTree (Painted α)) : Prop where
  balanced : Balanced n t
  red : redRoot t = true
  admits : Admits false n path

section Raised
variable {s s' : Side} {t a u b c : BinaryTree (Painted α)} {g : Painted α} {x p : α} {n : Nat}
  {path : Path (Painted α)}

theorem Balanced.paint_black (balanced : Balanced n t) (red : redRoot t = true) :
    Balanced (n + 1) (paint false t) := by
  cases balanced with
  | nil => cases red
  | red l _ r _ => exact .black l r
  | black => cases red

theorem redRoot_paint (t : BinaryTree (Painted α)) : redRoot (paint false t) = false := by
  cases t <;> rfl

theorem Raised.at_top (raised : Raised n [] t) : RedBlack (paint false t) :=
  ⟨redRoot_paint t, n + 1, raised.balanced.paint_black raised.red⟩

theorem Raised.below_black (raised : Raised n (⟨s, ⟨false, x⟩, u⟩ :: path) t) :
    RedBlack (plug (⟨s, ⟨false, x⟩, u⟩ :: path) t) :=
  plug_redBlack (c := true) raised.balanced (fun _ => rfl) raised.admits

theorem Raised.grand (raised : Raised n (⟨s, ⟨true, p⟩, a⟩ :: path) t) :
    Balanced n a ∧ redRoot a = false ∧ ∃ s' y rest above, path = ⟨s', ⟨false, y⟩, rest⟩ :: above ∧
      Balanced n rest ∧ Admits false (n + 1) above := by
  obtain ⟨_, beside, black, outer⟩ := raised.admits
  exact ⟨beside, black, outer.above_red⟩

theorem Raised.recolour (raised : Raised n (⟨s, ⟨true, p⟩, a⟩ :: ⟨s', g, u⟩ :: path) t)
    (red : redRoot u = true) :
    Raised (n + 1) path (join s' (join s t ⟨false, p⟩ a) ⟨true, g.item⟩ (paint false u)) := by
  obtain ⟨beside, _, _, _, _, _, same, uncle, outer⟩ := raised.grand
  cases same
  have parent : Balanced (n + 1) (join s t ⟨false, p⟩ a) :=
    balanced_black.mpr ⟨raised.balanced, beside⟩
  refine ⟨balanced_red.mpr ⟨parent, redRoot_join s t a _, uncle.paint_black red, redRoot_paint u⟩,
    redRoot_join s' _ _ _, outer⟩

theorem Raised.turn (raised : Raised n (⟨s.other, ⟨true, p⟩, a⟩ :: path) (join s b ⟨true, x⟩ c)) :
    Raised n (⟨s, ⟨true, x⟩, c⟩ :: path) (join s a ⟨true, p⟩ b) := by
  obtain ⟨_, beside, black, outer⟩ := raised.admits
  obtain ⟨left, blackB, right, blackC⟩ := balanced_red.mp raised.balanced
  exact ⟨balanced_red.mpr ⟨beside, black, left, blackB⟩, redRoot_join s a b _, rfl, right, blackC,
    outer⟩

theorem Raised.top (raised : Raised n (⟨s, ⟨true, p⟩, a⟩ :: ⟨s, g, u⟩ :: path) t)
    (black : redRoot u = false) :
    RedBlack (plug path (join s t ⟨false, p⟩ (join s a ⟨true, g.item⟩ u))) := by
  obtain ⟨beside, blackA, _, _, _, _, same, uncle, outer⟩ := raised.grand
  have grand : Balanced n a → Balanced n u → Balanced n (join s a ⟨true, g.item⟩ u) :=
    fun inner outside => balanced_red.mpr ⟨inner, blackA, outside, black⟩
  cases same
  exact plug_redBlack (balanced_black.mpr ⟨raised.balanced, grand beside uncle⟩)
    (fun wrong => absurd wrong (by simp [redRoot_join])) outer

end Raised

/-! ### After a removal -/

/-- A subtree that is right once its red root is painted black, or that lacks a black node. -/
def Lacking (path : Path (Painted α)) (t : BinaryTree (Painted α)) : Prop :=
  ∃ n, redRoot t = true ∧ Balanced n (paint false t) ∧ Admits false n path ∨
    redRoot t = false ∧ Balanced n t ∧ Admits false (n + 1) path

section Lacking
variable {s : Side} {t w near far a b : BinaryTree (Painted α)} {p : Painted α} {x y : α}
  {path : Path (Painted α)}

theorem paint_black (black : redRoot t = false) : paint false t = t := by
  cases t with
  | nil => rfl
  | node z l r =>
    obtain ⟨red, item⟩ := z
    cases black
    rfl

theorem Lacking.done (lacking : Lacking path t) (stop : path = [] ∨ redRoot t = true) :
    RedBlack (plug path (paint false t)) := by
  obtain ⟨n, ⟨_, balanced, admits⟩ | ⟨black, balanced, _⟩⟩ := lacking
  · exact plug_redBlack balanced
      (fun wrong => absurd wrong (by simp [redRoot_paint])) admits
  · rcases stop with rfl | red
    · rw [paint_black black]
      exact ⟨black, n, balanced⟩
    · exact absurd (red.symm.trans black) (by decide)

theorem RedBlack.lacking (redBlack : RedBlack t) : Lacking [] t := by
  obtain ⟨black, n, balanced⟩ := redBlack
  exact ⟨n, .inr ⟨black, balanced, rfl⟩⟩

theorem RedBlack.unlink_black
    (whole : RedBlack (plug path (join s .nil ⟨false, x⟩ t))) : Lacking path t := by
  obtain ⟨m, balanced, admits⟩ := whole.at
  rw [redRoot_join] at admits
  obtain ⟨n, rfl, _, child⟩ := balanced.of_black
  refine ⟨if redRoot t then n + 1 else n, ?_⟩
  cases red : redRoot t with
  | true => exact .inl ⟨rfl, child.paint_black red, admits⟩
  | false => exact .inr ⟨rfl, child, admits⟩

theorem RedBlack.unlink_red
    (whole : RedBlack (plug path (join s .nil ⟨true, x⟩ t))) : RedBlack (plug path t) := by
  obtain ⟨n, balanced, admits⟩ := whole.at
  rw [redRoot_join] at admits
  obtain ⟨_, _, child, black⟩ := balanced_red.mp balanced
  exact plug_redBlack child (fun wrong => absurd (wrong.symm.trans black) (by decide)) admits

theorem Lacking.sibling (lacking : Lacking (⟨s, p, w⟩ :: path) t) (black : redRoot t = false) :
    ∃ n near z far, w = join s near z far ∧ Balanced n t ∧ Balanced (n + 1) w ∧
      (p.red = true → z.red = false ∧ Admits true (n + 1) path) ∧
      (p.red = false → Admits false (n + 2) path) := by
  obtain ⟨n, ⟨wrong, _⟩ | ⟨_, balanced, admits⟩⟩ := lacking
  · exact absurd (wrong.symm.trans black) (by decide)
  · obtain ⟨red, item⟩ := p
    cases red with
    | true =>
      obtain ⟨_, beside, blackW, outer⟩ := admits
      obtain ⟨z, l, r, rfl⟩ := beside.ne_nil
      obtain ⟨near, far, same⟩ := exists_join s z l r
      exact ⟨n, near, z, far, same, balanced, beside, fun _ => ⟨blackW, outer⟩,
        fun wrong => by cases wrong⟩
    | false =>
      obtain ⟨beside, outer⟩ := admits
      obtain ⟨z, l, r, rfl⟩ := beside.ne_nil
      obtain ⟨near, far, same⟩ := exists_join s z l r
      exact ⟨n, near, z, far, same, balanced, beside, (fun wrong => by cases wrong),
        fun _ => outer⟩

theorem Lacking.redSibling (lacking : Lacking (⟨s, p, join s near ⟨true, x⟩ far⟩ :: path) t)
    (black : redRoot t = false) :
    Lacking (⟨s, ⟨true, p.item⟩, near⟩ :: ⟨s, ⟨false, x⟩, far⟩ :: path) t := by
  obtain ⟨n, near', z, far', same, balanced, sibling, redCase, blackCase⟩ := lacking.sibling black
  have red : redRoot (join s near' z far') = true := by
    rw [← same]
    exact redRoot_join s near far _
  rw [redRoot_join] at red
  have blackP : p.red = false := by
    cases redP : p.red with
    | false => rfl
    | true => exact absurd (red.symm.trans (redCase redP).1) (by decide)
  obtain ⟨nearB, nearBlack, farB, _⟩ := balanced_red.mp sibling
  exact ⟨n, .inr ⟨black, balanced, rfl, nearB, nearBlack, farB, blackCase blackP⟩⟩

/-- With black children a black sibling is painted red, and the parent lacks a black node. -/
theorem Lacking.blackNephews (lacking : Lacking (⟨s, p, join s near ⟨false, x⟩ far⟩ :: path) t)
    (black : redRoot t = false) (nearBlack : redRoot near = false) (farBlack : redRoot far = false) :
    Lacking path (join s t p (join s near ⟨true, x⟩ far)) := by
  obtain ⟨n, _, _, _, _, balanced, sibling, redCase, blackCase⟩ := lacking.sibling black
  obtain ⟨nearB, farB⟩ := balanced_black.mp sibling
  have redW : Balanced n (join s near ⟨true, x⟩ far) :=
    balanced_red.mpr ⟨nearB, nearBlack, farB, farBlack⟩
  have blackened : Balanced (n + 1) (join s t ⟨false, p.item⟩ (join s near ⟨true, x⟩ far)) :=
    balanced_black.mpr ⟨balanced, redW⟩
  obtain ⟨red, item⟩ := p
  cases red with
  | true =>
    refine ⟨n + 1, .inl ⟨redRoot_join s t _ _, ?_, (redCase rfl).2.mono⟩⟩
    rw [paint_join]
    exact blackened
  | false => exact ⟨n + 1, .inr ⟨redRoot_join s t _ _, blackened, blackCase rfl⟩⟩

theorem Lacking.nearNephew
    (lacking : Lacking (⟨s, p, join s (join s a ⟨true, y⟩ b) ⟨false, x⟩ far⟩ :: path) t)
    (black : redRoot t = false) (farBlack : redRoot far = false) :
    Lacking (⟨s, p, join s a ⟨false, y⟩ (join s b ⟨true, x⟩ far)⟩ :: path) t := by
  obtain ⟨n, _, _, _, _, balanced, sibling, redCase, blackCase⟩ := lacking.sibling black
  obtain ⟨nearB, farB⟩ := balanced_black.mp sibling
  obtain ⟨aB, _, bB, bBlack⟩ := balanced_red.mp nearB
  have turned : Balanced (n + 1) (join s a ⟨false, y⟩ (join s b ⟨true, x⟩ far)) :=
    balanced_black.mpr ⟨aB, balanced_red.mpr ⟨bB, bBlack, farB, farBlack⟩⟩
  refine ⟨n, .inr ⟨black, balanced, ?_⟩⟩
  obtain ⟨red, item⟩ := p
  cases red with
  | true => exact ⟨rfl, turned, redRoot_join s a _ _, (redCase rfl).2⟩
  | false => exact ⟨turned, blackCase rfl⟩

/-- With a red far nephew the sibling takes the parent's place and colour. -/
theorem Lacking.farNephew (lacking : Lacking (⟨s, p, join s near ⟨false, x⟩ far⟩ :: path) t)
    (black : redRoot t = false) (farRed : redRoot far = true) :
    RedBlack (plug path (join s (join s t ⟨false, p.item⟩ near) ⟨p.red, x⟩ (paint false far))) := by
  obtain ⟨n, _, _, _, _, balanced, sibling, redCase, blackCase⟩ := lacking.sibling black
  obtain ⟨nearB, farB⟩ := balanced_black.mp sibling
  have parent : Balanced (n + 1) (join s t ⟨false, p.item⟩ near) :=
    balanced_black.mpr ⟨balanced, nearB⟩
  have outside := farB.paint_black farRed
  obtain ⟨red, item⟩ := p
  cases red with
  | true =>
    exact plug_redBlack
      (balanced_red.mpr ⟨parent, redRoot_join s t near _, outside, redRoot_paint far⟩)
      (fun _ => rfl) (redCase rfl).2
  | false =>
    exact plug_redBlack (balanced_black.mpr ⟨parent, outside⟩)
      (fun wrong => absurd wrong (by simp [redRoot_join])) (blackCase rfl)

end Lacking

/-! ### Height -/

theorem Balanced.size {n : Nat} {t : BinaryTree (Painted α)} (balanced : Balanced n t) :
    2 ^ n ≤ t.numNodes + 1 := by
  induction balanced with
  | nil => simp
  | red _ _ _ _ hl hr =>
    rw [BinaryTree.numNodes]
    omega
  | black _ _ hl hr =>
    rw [BinaryTree.numNodes, Nat.pow_succ]
    omega

theorem Balanced.height {n : Nat} {t : BinaryTree (Painted α)} (balanced : Balanced n t) :
    t.height ≤ 2 * n + (if redRoot t then 1 else 0) := by
  induction balanced with
  | nil => simp [redRoot]
  | red _ redL _ redR hl hr =>
    rw [redL] at hl
    rw [redR] at hr
    simp only [BinaryTree.height, redRoot, if_true, Bool.false_eq_true, if_false] at *
    omega
  | black _ _ hl hr =>
    simp only [BinaryTree.height, redRoot, Bool.false_eq_true, if_false]
    split at hl
    · split at hr <;> omega
    · split at hr <;> omega

/-- A red-black tree is at most twice as high as any tree of its size must be. -/
theorem RedBlack.height {t : BinaryTree (Painted α)} (redBlack : RedBlack t) :
    t.height ≤ 2 * Nat.log 2 (t.numNodes + 1) := by
  obtain ⟨black, n, balanced⟩ := redBlack
  have high := balanced.height
  rw [black] at high
  have low : n ≤ Nat.log 2 (t.numNodes + 1) :=
    (Nat.le_log_iff_pow_le (by decide) (by omega)).mpr balanced.size
  simp only [Bool.false_eq_true, if_false] at high
  omega

end SearchTree
