import CommonLib.SearchTree.Path

/- A binary tree in memory, whose nodes point to their children and to their parent: which
   node each pointer leads to, seen from one place. -/
namespace SearchTree

class Linked (α : Type) (N : outParam Type) where
  addr : α → Nat
  cell : α → Nat → Nat → Nat → N

export Linked (addr)

variable {α N : Type} [Linked α N]

def seen (s : Side) (x : α) (near far parent : Nat) : N :=
  match s with
  | .left => Linked.cell x near far parent
  | .right => Linked.cell x far near parent

def ptr (nil : Nat) : BinaryTree α → Nat
  | .nil => nil
  | .node x _ _ => addr x

def up (top : Nat) : Path α → Nat
  | [] => top
  | step :: _ => addr step.root

def addrs (t : BinaryTree α) : List Nat := (inorder t).map addr

def addrsAround (path : Path α) : List Nat := (around path).map addr

def Sub (m : Nat → Option N) (nil : Nat) : Nat → BinaryTree α → Prop
  | _, .nil => True
  | parent, .node x l r =>
    m (addr x) = some (seen .left x (ptr nil l) (ptr nil r) parent) ∧
      Sub m nil (addr x) l ∧ Sub m nil (addr x) r

def Ctx (m : Nat → Option N) (nil top : Nat) : Nat → Path α → Prop
  | _, [] => True
  | hole, ⟨s, x, rest⟩ :: path =>
    m (addr x) = some (seen s x hole (ptr nil rest) (up top path)) ∧
      Sub m nil (addr x) rest ∧ Ctx m nil top (addr x) path

variable {m m' : Nat → Option N} {nil top parent hole : Nat} {s : Side} {t u : BinaryTree α} {x : α}
  {path : Path α} {step : Step α}

@[simp] theorem ptr_nil : ptr nil (.nil : BinaryTree α) = nil := rfl

@[simp] theorem ptr_node (l r : BinaryTree α) : ptr nil (.node x l r) = addr x := rfl

@[simp] theorem ptr_join : ptr nil (join s t x u) = addr x := by cases s <;> rfl

theorem ptr_plug (above : path ≠ []) (t u : BinaryTree α) :
    ptr nil (plug path t) = ptr nil (plug path u) := by
  induction path generalizing t u with
  | nil => exact absurd rfl above
  | cons step path ih =>
    cases path with
    | nil => simp [plug]
    | cons => exact ih (by simp) _ _

@[simp] theorem addrs_nil : addrs (.nil : BinaryTree α) = [] := rfl

theorem addrs_join : (addrs (join s t x u)).Perm (addr x :: (addrs t ++ addrs u)) := by
  rw [addrs, addrs, addrs, ← List.map_append]
  exact (perm_join s t u x).map addr

theorem addrsAround_cons :
    addrsAround (step :: path) = addr step.root :: (addrs step.rest ++ addrsAround path) := by
  simp [addrsAround, addrs, around]

@[simp] theorem mem_addrs_join {q : Nat} :
    q ∈ addrs (join s t x u) ↔ q = addr x ∨ q ∈ addrs t ∨ q ∈ addrs u := by
  rw [addrs_join.mem_iff, List.mem_cons, List.mem_append]

theorem ptr_mem (nil : Nat) (there : t ≠ .nil) : ptr nil t ∈ addrs t := by
  cases t with
  | nil => exact absurd rfl there
  | node x l r => simp [ptr, addrs, inorder]

theorem root_mem (above : path ≠ []) (nil : Nat) (u : BinaryTree α) :
    ptr nil (plug path u) ∈ addrsAround path := by
  induction path generalizing u with
  | nil => exact absurd rfl above
  | cons step path ih =>
    rw [addrsAround_cons, plug]
    cases path with
    | nil => simp [plug]
    | cons => exact List.mem_cons_of_mem _ (List.mem_append_right _ (ih (by simp) _))

theorem ptr_eq_nil (out : nil ∉ addrs t) : ptr nil t = nil ↔ t = .nil := by
  cases t with
  | nil => simp [ptr]
  | node x l r =>
    simp only [ptr, reduceCtorEq, iff_false]
    intro same
    exact out (by rw [← same]; exact ptr_mem nil (t := .node x l r) (by simp))

theorem ptr_ne (fresh : hole ∉ addrs u) (out : hole ≠ nil) : hole ≠ ptr nil u := by
  cases u with
  | nil => exact out
  | node x l r =>
    intro same
    exact fresh (by rw [same]; exact ptr_mem nil (by simp))

theorem sub_join : Sub m nil parent (join s t x u) ↔
    m (addr x) = some (seen s x (ptr nil t) (ptr nil u) parent) ∧
      Sub m nil (addr x) t ∧ Sub m nil (addr x) u := by
  cases s with
  | left => exact Iff.rfl
  | right => exact and_congr Iff.rfl and_comm

theorem Sub.congr (same : ∀ q ∈ addrs t, m' q = m q) (sub : Sub m nil parent t) :
    Sub m' nil parent t := by
  induction t generalizing parent with
  | nil => trivial
  | node x l r hl hr =>
    obtain ⟨root, left, right⟩ := sub
    rw [addrs, inorder, List.map_append, List.map_cons] at same
    refine ⟨(same _ (by simp)).trans root, hl (fun q member => same q ?_) left,
      hr (fun q member => same q ?_) right⟩
    · exact List.mem_append_left _ member
    · exact List.mem_append_right _ (List.mem_cons_of_mem _ member)

theorem Ctx.congr (same : ∀ q ∈ addrsAround path, m' q = m q) (ctx : Ctx m nil top hole path) :
    Ctx m' nil top hole path := by
  induction path generalizing hole with
  | nil => trivial
  | cons step path ih =>
    obtain ⟨s, x, rest⟩ := step
    obtain ⟨root, beside, outer⟩ := ctx
    rw [addrsAround_cons] at same
    refine ⟨(same _ List.mem_cons_self).trans root, beside.congr fun q member => same q ?_,
      ih (fun q member => same q ?_) outer⟩
    · exact List.mem_cons_of_mem _ (List.mem_append_left _ member)
    · exact List.mem_cons_of_mem _ (List.mem_append_right _ member)

theorem up_append (path above : Path α) : up top (path ++ above) = up (up top above) path := by
  cases path <;> rfl

theorem up_exchange (there : path ≠ []) (top top' : Nat) : up top path = up top' path := by
  cases path with
  | nil => exact absurd rfl there
  | cons => rfl

theorem ctx_append {above : Path α} : Ctx m nil top (ptr nil t) (path ++ above) ↔
    Ctx m nil (up top above) (ptr nil t) path ∧ Ctx m nil top (ptr nil (plug path t)) above := by
  induction path generalizing t with
  | nil => exact ⟨fun ctx => ⟨trivial, ctx⟩, fun ctx => ctx.2⟩
  | cons step path ih =>
    obtain ⟨s, x, rest⟩ := step
    have outer := ih (t := join s t x rest)
    rw [ptr_join] at outer
    rw [List.cons_append, Ctx, Ctx, outer, plug, up_append]
    simp only [and_assoc]

theorem sub_plug : Sub m nil parent (plug path t) ↔
    Ctx m nil parent (ptr nil t) path ∧ Sub m nil (up parent path) t := by
  induction path generalizing t with
  | nil => exact ⟨fun sub => ⟨trivial, sub⟩, fun both => both.2⟩
  | cons step path ih =>
    obtain ⟨s, x, rest⟩ := step
    rw [plug, ih, sub_join, ptr_join, Ctx, up]
    constructor
    · intro below
      obtain ⟨outer, here, inner, beside⟩ := below
      exact ⟨⟨here, beside, outer⟩, inner⟩
    · intro above
      obtain ⟨⟨here, beside, outer⟩, inner⟩ := above
      exact ⟨outer, here, inner, beside⟩

theorem perm_up : (addrs t ++ addrsAround (step :: path)).Perm
    (addrs (join step.side t step.root step.rest) ++ addrsAround path) := by
  have root := (addrs_join (s := step.side) (t := t) (x := step.root) (u := step.rest)).append_right
    (addrsAround path)
  rw [addrsAround_cons]
  refine List.perm_middle.trans (.trans ?_ root.symm)
  rw [List.cons_append, List.append_assoc]

theorem places_plug : (addrs t ++ addrsAround path).Perm (addrs (plug path t)) := by
  rw [addrs, addrs, addrsAround, ← List.map_append]
  exact ((perm_plug path t).map _).symm

theorem node_places (path : Path α) (x : α) (l r : BinaryTree α) :
    (addrs (.node x l r) ++ addrsAround path).Perm
      (addr x :: (addrs l ++ (addrs r ++ addrsAround path))) := by
  have root := (addrs_join (s := .left) (t := l) (x := x) (u := r)).append_right (addrsAround path)
  rwa [List.cons_append, List.append_assoc] at root

/-- The tree in memory is `plug path t`; `top` is whatever the root has for its parent. -/
structure Stands (m : Nat → Option N) (nil top : Nat) (path : Path α) (t : BinaryTree α) : Prop where
  inner : Sub m nil (up top path) t
  ctx : Ctx m nil top (ptr nil t) path
  apart : (addrs t ++ addrsAround path).Nodup
  out : nil ∉ addrs t ++ addrsAround path

section Stands
variable {rest a b : BinaryTree α}

theorem stands_up : Stands m nil top (step :: path) t ↔
    Stands m nil top path (join step.side t step.root step.rest) := by
  obtain ⟨s, x, rest⟩ := step
  constructor
  · intro h
    obtain ⟨root, beside, outer⟩ := h.ctx
    refine ⟨sub_join.mpr ⟨root, h.inner, beside⟩, ?_, perm_up.nodup_iff.mp h.apart,
      fun member => h.out (perm_up.mem_iff.mpr member)⟩
    rw [ptr_join]
    exact outer
  · intro h
    obtain ⟨root, inner, beside⟩ := sub_join.mp h.inner
    have outer := h.ctx
    rw [ptr_join] at outer
    exact ⟨inner, ⟨root, beside, outer⟩, perm_up.nodup_iff.mpr h.apart,
      fun member => h.out (perm_up.mem_iff.mp member)⟩

theorem Stands.congr (h : Stands m nil top path t)
    (kept : ∀ q ∈ addrs t ++ addrsAround path, m' q = m q) : Stands m' nil top path t :=
  ⟨h.inner.congr fun q member => kept q (List.mem_append_left _ member),
    h.ctx.congr fun q member => kept q (List.mem_append_right _ member), h.apart, h.out⟩

theorem Stands.out_plug (h : Stands m nil top path t) : nil ∉ addrs (plug path t) :=
  fun member => h.out (places_plug.mem_iff.mpr member)

theorem Stands.ptr_ne_nil (h : Stands m nil top path t) (there : t ≠ .nil) : ptr nil t ≠ nil :=
  fun same => there ((ptr_eq_nil fun member => h.out (List.mem_append_left _ member)).mp same)

theorem Stands.up_eq_nil (h : Stands m nil nil (step :: path) t) : up nil path = nil ↔ path = [] := by
  cases path with
  | nil => simp [up]
  | cons outer path =>
    simp only [up, reduceCtorEq, iff_false]
    intro same
    refine h.out (List.mem_append_right _ ?_)
    rw [addrsAround_cons, addrsAround_cons, same]
    simp

/-! ### What can be read off at a place -/

theorem Stands.cell (h : Stands m nil top path (join s a x b)) :
    m (addr x) = some (seen s x (ptr nil a) (ptr nil b) (up top path)) :=
  (sub_join.mp h.inner).1

theorem Stands.above (h : Stands m nil top (⟨s, x, rest⟩ :: path) t) :
    m (addr x) = some (seen s x (ptr nil t) (ptr nil rest) (up top path)) :=
  h.ctx.1

theorem Stands.beside (h : Stands m nil top (⟨s, x, rest⟩ :: path) t) :
    Stands m nil top (⟨s.other, x, t⟩ :: path) rest := by
  have atParent := stands_up.mp h
  rw [← join_other] at atParent
  exact stands_up.mpr atParent

theorem Stands.at_root (h : Stands m nil top path t) :
    ptr nil t = ptr nil (plug path t) ↔ path = [] := by
  constructor
  · intro same
    by_contra above
    have member : ptr nil t ∈ addrsAround path := by
      rw [same]
      exact root_mem above nil t
    cases t with
    | nil => exact h.out (List.mem_append_right _ member)
    | node y l r =>
      exact (List.nodup_append.mp h.apart).2.2 _ (ptr_mem nil (by simp)) _ member rfl
  · rintro rfl
    rfl

theorem Stands.ptr_ne (h : Stands m nil top (⟨s, x, rest⟩ :: path) t)
    (one : t ≠ .nil ∨ rest ≠ .nil) : ptr nil t ≠ ptr nil rest := by
  have apart := h.apart
  have out := h.out
  rw [addrsAround_cons] at apart out
  intro same
  by_cases none : t = .nil
  · subst none
    have member := ptr_mem nil (one.resolve_left (by simp))
    rw [← same] at member
    exact out (List.mem_append_right _ (List.mem_cons_of_mem _ (List.mem_append_left _ member)))
  · have member := ptr_mem nil none
    by_cases none' : rest = .nil
    · subst none'
      rw [same] at member
      exact out (List.mem_append_left _ member)
    · have member' := ptr_mem nil none'
      exact (List.nodup_append.mp apart).2.2 _ member _
        (List.mem_cons_of_mem _ (List.mem_append_left _ member')) same

end Stands

end SearchTree
