import Mathlib.Data.Tree.Basic
import Mathlib.Data.List.Sort

/- Binary trees, and the way from the root down to a subtree. Nothing here tells left
   from right but the order of the items. -/
namespace SearchTree
variable {α : Type}

inductive Side where
  | left
  | right
  deriving DecidableEq, Repr

def Side.other : Side → Side
  | .left => .right
  | .right => .left

@[simp] theorem Side.other_other (s : Side) : s.other.other = s := by cases s <;> rfl

@[simp] theorem Side.other_ne (s : Side) : s.other ≠ s := by cases s <;> decide

@[simp] theorem Side.ne_other (s : Side) : s ≠ s.other := by cases s <;> decide

def join (s : Side) (t : BinaryTree α) (x : α) (u : BinaryTree α) : BinaryTree α :=
  match s with
  | .left => .node x t u
  | .right => .node x u t

theorem join_other (s : Side) (t : BinaryTree α) (x : α) (u : BinaryTree α) :
    join s.other t x u = join s u x t := by cases s <;> rfl

theorem exists_join (s : Side) (x : α) (l r : BinaryTree α) :
    ∃ t u, BinaryTree.node x l r = join s t x u := by
  cases s with
  | left => exact ⟨l, r, rfl⟩
  | right => exact ⟨r, l, rfl⟩

theorem exists_node {t : BinaryTree α} (there : t ≠ .nil) : ∃ x l r, t = .node x l r := by
  cases t with
  | nil => exact absurd rfl there
  | node x l r => exact ⟨x, l, r, rfl⟩

theorem join_ne_nil (s : Side) (t : BinaryTree α) (x : α) (u : BinaryTree α) :
    join s t x u ≠ .nil := by
  cases s <;> simp [join]

structure Step (α : Type) where
  side : Side
  root : α
  rest : BinaryTree α

abbrev Path (α : Type) := List (Step α)

def plug : Path α → BinaryTree α → BinaryTree α
  | [], t => t
  | step :: path, t => plug path (join step.side t step.root step.rest)

theorem plug_append (path above : Path α) (t : BinaryTree α) :
    plug (path ++ above) t = plug above (plug path t) := by
  induction path generalizing t with
  | nil => rfl
  | cons step path ih => exact ih _

theorem plug_beside (s : Side) (x : α) (t u : BinaryTree α) (path : Path α) :
    plug (⟨s.other, x, t⟩ :: path) u = plug (⟨s, x, u⟩ :: path) t := by
  rw [plug, plug, join_other]

def inorder : BinaryTree α → List α
  | .nil => []
  | .node x l r => inorder l ++ x :: inorder r

def before : Path α → List α
  | [] => []
  | ⟨.left, _, _⟩ :: path => before path
  | ⟨.right, x, rest⟩ :: path => before path ++ (inorder rest ++ [x])

def after : Path α → List α
  | [] => []
  | ⟨.left, x, rest⟩ :: path => x :: inorder rest ++ after path
  | ⟨.right, _, _⟩ :: path => after path

theorem inorder_plug (path : Path α) (t : BinaryTree α) :
    inorder (plug path t) = before path ++ inorder t ++ after path := by
  induction path generalizing t with
  | nil => simp [plug, before, after]
  | cons step path ih =>
    obtain ⟨side, x, rest⟩ := step
    rw [plug, ih]
    cases side with
    | left => simp [join, inorder, before, after]
    | right => simp [join, inorder, before, after]

theorem before_append (path above : Path α) :
    before (path ++ above) = before above ++ before path := by
  induction path with
  | nil => simp [before]
  | cons step path ih =>
    obtain ⟨side, x, rest⟩ := step
    cases side with
    | left => exact ih
    | right => simp [before, ih]

theorem after_append (path above : Path α) :
    after (path ++ above) = after path ++ after above := by
  induction path with
  | nil => rfl
  | cons step path ih =>
    obtain ⟨side, x, rest⟩ := step
    cases side with
    | left => simp [after, ih]
    | right => exact ih

theorem inorder_rotated (s : Side) (a b c : BinaryTree α) (x y : α) :
    inorder (join s (join s a x b) y c) = inorder (join s a x (join s b y c)) := by
  cases s <;> simp [join, inorder]

theorem length_inorder (t : BinaryTree α) : (inorder t).length = t.numNodes := by
  induction t with
  | nil => rfl
  | node x l r hl hr =>
    rw [inorder, List.length_append, List.length_cons, hl, hr, BinaryTree.numNodes]
    omega

theorem perm_join (s : Side) (t u : BinaryTree α) (x : α) :
    (inorder (join s t x u)).Perm (x :: (inorder t ++ inorder u)) := by
  cases s with
  | left => exact List.perm_middle
  | right => exact List.perm_middle.trans (List.perm_append_comm.cons x)

def around : Path α → List α
  | [] => []
  | step :: path => step.root :: (inorder step.rest ++ around path)

theorem perm_plug (path : Path α) (t : BinaryTree α) :
    (inorder (plug path t)).Perm (inorder t ++ around path) := by
  induction path generalizing t with
  | nil => simp [plug, around]
  | cons step path ih =>
    rw [plug]
    refine (ih _).trans ?_
    have root := (perm_join step.side t step.rest step.root).append_right (around path)
    refine root.trans ?_
    rw [around, List.cons_append, List.append_assoc]
    exact List.perm_middle.symm

theorem exists_place {x : α} {front back : List α} {t : BinaryTree α}
    (split : inorder t = front ++ x :: back) :
    ∃ path l r, t = plug path (.node x l r) ∧ inorder r ++ after path = back := by
  induction t generalizing front back with
  | nil => simp [inorder] at split
  | node y l r hl hr =>
    have root : inorder l = front → y = x → inorder r = back →
        ∃ path l' r', BinaryTree.node y l r = plug path (.node x l' r') ∧
          inorder r' ++ after path = back := by
      rintro - rfl rfl
      exact ⟨[], l, r, rfl, List.append_nil _⟩
    rcases List.append_eq_append_iff.mp split with ⟨mid, rfl, later⟩ | ⟨mid, earlier, rest⟩
    · cases mid with
      | nil =>
        obtain ⟨rfl, rfl⟩ := List.cons.inj later
        exact root (List.append_nil _).symm rfl rfl
      | cons z mid =>
        obtain ⟨path, l', r', rfl, same⟩ := hr (List.cons.inj later).2
        refine ⟨path ++ [⟨.right, y, l⟩], l', r', by rw [plug_append]; rfl, ?_⟩
        rw [after_append, after, after, List.append_nil]
        exact same
    · cases mid with
      | nil =>
        obtain ⟨rfl, rfl⟩ := List.cons.inj rest
        exact root (earlier.trans (List.append_nil _)) rfl rfl
      | cons z mid =>
        obtain ⟨rfl, rfl⟩ := List.cons.inj rest
        obtain ⟨path, l', r', rfl, rfl⟩ := hl earlier
        refine ⟨path ++ [⟨.left, y, r⟩], l', r', by rw [plug_append]; rfl, ?_⟩
        rw [after_append, after, after]
        simp

theorem length_le_height (path : Path α) (t : BinaryTree α) :
    path.length + t.height ≤ (plug path t).height := by
  induction path generalizing t with
  | nil => simp [plug]
  | cons step path ih =>
    have outer := ih (join step.side t step.root step.rest)
    have grows : t.height + 1 ≤ (join step.side t step.root step.rest).height := by
      cases step.side with
      | left => exact Nat.succ_le_succ (Nat.le_max_left ..)
      | right => exact Nat.succ_le_succ (Nat.le_max_right ..)
    rw [plug, List.length_cons]
    omega

/-! ### Searching -/

def descend (behind : α → Bool) : BinaryTree α → Path α → Path α
  | .nil, path => path
  | .node x l r, path =>
    if behind x then descend behind l (⟨.left, x, r⟩ :: path)
    else descend behind r (⟨.right, x, l⟩ :: path)

theorem plug_descend (behind : α → Bool) (t : BinaryTree α) (path : Path α) :
    plug (descend behind t path) .nil = plug path t := by
  induction t generalizing path with
  | nil => rfl
  | node x l r hl hr =>
    rw [descend]
    split
    · exact hl _
    · exact hr _

theorem descend_between (behind : α → Bool) {t : BinaryTree α} (path : Path α)
    (up : (inorder t).Pairwise fun x y => behind x = true → behind y = true)
    (front : ∀ y ∈ before path, behind y = false) (back : ∀ y ∈ after path, behind y = true) :
    (∀ y ∈ before (descend behind t path), behind y = false) ∧
      ∀ y ∈ after (descend behind t path), behind y = true := by
  induction t generalizing path with
  | nil => exact ⟨front, back⟩
  | node x l r hl hr =>
    obtain ⟨upL, upXR, across⟩ := List.pairwise_append.mp up
    obtain ⟨upX, upR⟩ := List.pairwise_cons.mp upXR
    rw [descend]
    cases side : behind x with
    | true =>
      refine hl _ upL front fun y member => ?_
      rcases List.mem_append.mp member with inside | outside
      · rcases List.mem_cons.mp inside with rfl | right
        · exact side
        · exact upX y right side
      · exact back y outside
    | false =>
      refine hr _ upR (fun y member => ?_) back
      rcases List.mem_append.mp member with outside | inside
      · exact front y outside
      · rcases List.mem_append.mp inside with left | root
        · exact Bool.eq_false_iff.mpr fun wrong =>
            absurd (across y left x List.mem_cons_self wrong) (by simp [side])
        · rw [List.mem_singleton.mp root]
          exact side

/-- A leaf at that place is where the insertion into the list of items puts it. -/
theorem inorder_insert {r : α → α → Prop} [DecidableRel r] {x : α} {t : BinaryTree α}
    (up : (inorder t).Pairwise fun y z => r x y → r x z) :
    inorder (plug (descend (fun y => decide (r x y)) t []) (.node x .nil .nil)) =
      (inorder t).orderedInsert r x := by
  obtain ⟨front, back⟩ := descend_between (fun y => decide (r x y)) []
    (up.imp fun step first => by simpa using step (by simpa using first)) (by simp [before])
    (by simp [after])
  have whole := inorder_plug (descend (fun y => decide (r x y)) t []) .nil
  rw [plug_descend, plug] at whole
  rw [inorder_plug, whole, inorder, List.append_nil]
  rw [List.orderedInsert_eq_take_drop]
  have front' : ∀ y ∈ before (descend (fun y => decide (r x y)) t []), decide (¬ r x y) = true :=
    fun y member => by simpa using front y member
  rw [List.takeWhile_append_of_pos front', List.dropWhile_append_of_pos front']
  cases tail : after (descend (fun y => decide (r x y)) t []) with
  | nil => simp [inorder]
  | cons z rest =>
    have behind : r x z := by simpa using back z (by rw [tail]; exact List.mem_cons_self)
    simp [inorder, behind]

theorem before_leftmost {path : Path α} (leftmost : ∀ step ∈ path, step.side = .left) :
    before path = [] := by
  induction path with
  | nil => rfl
  | cons step path ih =>
    obtain ⟨side, x, rest⟩ := step
    obtain rfl : side = .left := leftmost _ List.mem_cons_self
    exact ih fun step member => leftmost step (List.mem_cons_of_mem _ member)

end SearchTree
