import CommonLib.Rbtree.Operations
import CommonLib.SearchTree.RedBlack
import CommonLib.SearchTree.Linked

/- A red-black tree in memory: which node each pointer leads to, seen from one place. -/
namespace Rbtree
open SearchTree

structure Entry where
  addr : Nat
  key : BitVec 64
  deriving DecidableEq, Repr

abbrev Cell := Painted Entry
abbrev Shape := BinaryTree Cell

instance : Linked Cell Node where
  addr x := x.item.addr
  cell x left right parent := ⟨x.item.key, left, right, parent, x.red⟩

theorem addr_item (red : Bool) (e : Entry) : addr (⟨red, e⟩ : Cell) = e.addr := rfl

@[simp] theorem addr_repaint (red : Bool) (x : Cell) : addr (⟨red, x.item⟩ : Cell) = addr x := rfl

theorem addr_eq (x : Cell) : addr x = x.item.addr := rfl

section Node
variable (s : Side) (x : Cell) (c d p : Nat)

@[simp] theorem seen_key : (seen s x c d p : Node).key = x.item.key := by cases s <;> rfl

@[simp] theorem seen_child : (seen s x c d p : Node).child s = c := by cases s <;> rfl

@[simp] theorem seen_child_other : (seen s x c d p : Node).child s.other = d := by
  cases s <;> rfl

@[simp] theorem seen_parent : (seen s x c d p : Node).parent = p := by cases s <;> rfl

@[simp] theorem seen_red : (seen s x c d p : Node).red = x.red := by cases s <;> rfl

end Node

section Reads
variable {t : Tree} {p parent near far : Nat} {s : Side} {x : Cell}

theorem child_eq (here : t.mem p = some (seen s x near far parent)) :
    t.child p s = some near ∧ t.child p s.other = some far := by
  simp [Tree.child, Tree.get, here]

theorem parent_eq (here : t.mem p = some (seen s x near far parent)) : t.parent p = some parent := by
  simp [Tree.parent, Tree.get, here]

theorem isRed_eq (here : t.mem p = some (seen s x near far parent)) : t.isRed p = some x.red := by
  simp [Tree.isRed, Tree.get, here]

end Reads

def entries (t : Shape) : List Entry := (inorder t).map (·.item)

structure Holds (t : Tree) (nil top : Nat) (path : Path Cell) (sub : Shape) : Prop
    extends Stands t.mem nil top path sub where
  sentinel : t.sentinel = nil
  root : t.root = ptr nil (plug path sub)
  black : t.isRed nil = some false

def Kept (places : List Nat) (t t' : Tree) : Prop := ∀ q, q ∉ places → t'.mem q = t.mem q

theorem Kept.refl (places : List Nat) (t : Tree) : Kept places t t := fun _ _ => rfl

theorem Kept.trans {places : List Nat} {t t' t'' : Tree} (first : Kept places t t')
    (second : Kept places t' t'') : Kept places t t'' :=
  fun q outside => (second q outside).trans (first q outside)

theorem Kept.mono {places more : List Nat} {t t' : Tree} (kept : Kept places t t')
    (sub : places ⊆ more) : Kept more t t' :=
  fun q outside => kept q fun member => outside (sub member)

structure Becomes (t : Tree) (whole : Shape) (t' : Tree) (nil top : Nat) (path : Path Cell)
    (sub : Shape) : Prop where
  holds : Holds t' nil top path sub
  entries : entries (plug path sub) = entries whole
  kept : Kept (addrs whole) t t'

section Holds
variable {t : Tree} {nil top : Nat} {path : Path Cell} {step : Step Cell} {sub u : Shape}
  {s : Side} {x : Cell}

theorem holds_up : Holds t nil top (step :: path) sub ↔
    Holds t nil top path (join step.side sub step.root step.rest) := by
  constructor
  · exact fun h => ⟨stands_up.mp h.toStands, h.sentinel, h.root, h.black⟩
  · exact fun h => ⟨stands_up.mpr h.toStands, h.sentinel, h.root, h.black⟩

theorem holds_append {above : Path Cell} :
    Holds t nil top (path ++ above) sub ↔ Holds t nil top above (plug path sub) := by
  induction path generalizing sub with
  | nil => exact Iff.rfl
  | cons step path ih => exact holds_up.trans ih

theorem holds_plug : Holds t nil top path sub ↔ Holds t nil top [] (plug path sub) := by
  rw [← holds_append, List.append_nil]

theorem Holds.frame {t' : Tree} (h : Holds t nil top path sub) (root : t'.root = t.root)
    (same : t'.sentinel = t.sentinel) (black : t'.isRed nil = t.isRed nil)
    (kept : ∀ q ∈ addrs sub ++ addrsAround path, t'.mem q = t.mem q) :
    Holds t' nil top path sub :=
  ⟨h.toStands.congr kept, same.trans h.sentinel, root.trans h.root, black.trans h.black⟩

theorem Holds.beside {rest : Shape} (h : Holds t nil top (⟨s, x, rest⟩ :: path) sub) :
    Holds t nil top (⟨s.other, x, sub⟩ :: path) rest := by
  refine ⟨h.toStands.beside, h.sentinel, ?_, h.black⟩
  rw [plug_beside]
  exact h.root

theorem Holds.isRed (h : Holds t nil top path sub) :
    t.isRed (ptr nil sub) = some (redRoot sub) := by
  cases sub with
  | nil => exact h.black
  | node y l r => exact isRed_eq h.inner.1

theorem Holds.parent (h : Holds t nil top path sub) (there : sub ≠ .nil) :
    t.parent (ptr nil sub) = some (up top path) := by
  cases sub with
  | nil => exact absurd rfl there
  | node y l r => exact parent_eq h.inner.1

theorem Holds.at_root (h : Holds t nil top path sub) : ptr nil sub = t.root ↔ path = [] := by
  rw [h.root]
  exact h.toStands.at_root

theorem Holds.side {rest : Shape} (h : Holds t nil top (⟨s, x, rest⟩ :: path) sub)
    (one : sub ≠ .nil ∨ rest ≠ .nil) :
    ∃ left, t.child (addr x) .left = some left ∧
      (if ptr nil sub = left then Side.left else Side.right) = s := by
  have here := child_eq h.above
  cases s with
  | left => exact ⟨_, here.1, if_pos rfl⟩
  | right => exact ⟨_, here.2, if_neg (h.ptr_ne one)⟩

/-! ### One change after another -/

theorem addrs_entries (u : Shape) : addrs u = (entries u).map (·.addr) := by
  rw [entries, List.map_map]
  rfl

theorem entries_plug {v : Shape} (same : entries u = entries v) :
    entries (plug path u) = entries (plug path v) := by
  rw [entries, entries] at *
  simp only [inorder_plug, List.map_append, same]

theorem Becomes.refl (h : Holds t nil top path sub) :
    Becomes t (plug path sub) t nil top path sub :=
  ⟨h, rfl, Kept.refl _ t⟩

theorem becomes_up {t' : Tree} {whole : Shape} : Becomes t whole t' nil top (step :: path) u ↔
    Becomes t whole t' nil top path (join step.side u step.root step.rest) := by
  constructor
  · exact fun b => ⟨holds_up.mp b.holds, b.entries, b.kept⟩
  · exact fun b => ⟨holds_up.mpr b.holds, b.entries, b.kept⟩

theorem Becomes.beside {t' : Tree} {whole rest : Shape}
    (b : Becomes t whole t' nil top (⟨s.other, x, u⟩ :: path) rest) :
    Becomes t whole t' nil top (⟨s, x, rest⟩ :: path) u := by
  have turned := b.holds.beside
  have order := b.entries
  rw [Side.other_other] at turned
  rw [plug_beside] at order
  exact ⟨turned, order, b.kept⟩

theorem Becomes.trans {t' t'' : Tree} {whole v : Shape} {top' : Nat} {path' : Path Cell}
    (first : Becomes t whole t' nil top path u)
    (second : Becomes t' (plug path u) t'' nil top' path' v) :
    Becomes t whole t'' nil top' path' v := by
  refine ⟨second.holds, second.entries.trans first.entries, first.kept.trans ?_⟩
  rw [addrs_entries, ← first.entries, ← addrs_entries]
  exact second.kept

end Holds

end Rbtree
