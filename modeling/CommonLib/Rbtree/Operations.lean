import CommonLib.SearchTree.Path
import Mathlib.Logic.Function.Basic

/- The red-black tree of ngx_rbtree.c, write by write. The left and the right branch of the
   source differ in nothing but the side. A `none` is an access to a node that is not there,
   or a loop that has used up its fuel. -/
namespace Rbtree
open SearchTree

/-- `ngx_rbtree_node_t`; the field `data` is the caller's. -/
structure Node where
  key : BitVec 64
  left : Nat
  right : Nat
  parent : Nat
  red : Bool
  deriving DecidableEq, Repr

def Node.child (node : Node) : Side → Nat
  | .left => node.left
  | .right => node.right

def Node.setChild (node : Node) (s : Side) (p : Nat) : Node :=
  match s with
  | .left => { node with left := p }
  | .right => { node with right := p }

abbrev Mem := Nat → Option Node

structure Tree where
  mem : Mem
  root : Nat
  sentinel : Nat

namespace Tree

def get (t : Tree) (p : Nat) : Option Node := t.mem p

def put (t : Tree) (p : Nat) (node : Node) : Tree :=
  { t with mem := Function.update t.mem p (some node) }

def modify (t : Tree) (p : Nat) (f : Node → Node) : Option Tree := do
  return t.put p (f (← t.get p))

def child (t : Tree) (p : Nat) (s : Side) : Option Nat := (t.get p).map (·.child s)

def parent (t : Tree) (p : Nat) : Option Nat := (t.get p).map (·.parent)

def isRed (t : Tree) (p : Nat) : Option Bool := (t.get p).map (·.red)

def setChild (t : Tree) (p : Nat) (s : Side) (q : Nat) : Option Tree :=
  t.modify p (·.setChild s q)

def setParent (t : Tree) (p q : Nat) : Option Tree := t.modify p ({ · with parent := q })

def setRed (t : Tree) (p : Nat) (red : Bool) : Option Tree := t.modify p ({ · with red := red })

def setKey (t : Tree) (p : Nat) (key : BitVec 64) : Option Tree := t.modify p ({ · with key := key })

def copyColor (t : Tree) (p q : Nat) : Option Tree := do t.setRed p (← t.isRed q)

end Tree

def init (mem : Mem) (s : Nat) : Option Tree := Tree.setRed ⟨mem, s, s⟩ s false

def min (t : Tree) : Nat → Nat → Option Nat
  | 0, _ => none
  | fuel + 1, node => do
    let left ← t.child node .left
    if left ≠ t.sentinel then min t fuel left else return node

/-- The node `p` takes `q` for the child `old`, which is looked for on the side `s`. -/
def relink (s : Side) (t : Tree) (p old q : Nat) : Option Tree := do
  if old = (← t.child p s) then t.setChild p s q else t.setChild p s.other q

/-- What has led to `node` leads to `temp`. -/
def hang (s : Side) (t : Tree) (node temp : Nat) : Option Tree := do
  if node = t.root then return { t with root := temp }
  else relink s t (← t.parent node) node temp

def adopt (t : Tree) (p parent : Nat) : Option Tree :=
  if p ≠ t.sentinel then t.setParent p parent else some t

def rotate (s : Side) (t : Tree) (node : Nat) : Option Tree := do
  let temp ← t.child node s.other
  let t ← t.setChild node s.other (← t.child temp s)
  let t ← adopt t (← t.child temp s) node
  let t ← t.setParent temp (← t.parent node)
  let t ← hang s t node temp
  let t ← t.setChild temp s node
  t.setParent node temp

def leftRotate : Tree → Nat → Option Tree := rotate .left

def rightRotate : Tree → Nat → Option Tree := rotate .right

/-! ### Insertion -/

def descend (less : BitVec 64 → BitVec 64 → Bool) (t : Tree) (node : Nat) :
    Nat → Nat → Option (Nat × Side)
  | 0, _ => none
  | fuel + 1, temp => do
    let s := if less (← t.get node).key (← t.get temp).key then Side.left else Side.right
    let p ← t.child temp s
    if p = t.sentinel then return (temp, s) else descend less t node fuel p

def hangLeaf (s : Side) (t : Tree) (temp node : Nat) : Option Tree := do
  let t ← t.setChild temp s node
  let t ← t.setParent node temp
  let t ← t.setChild node .left t.sentinel
  let t ← t.setChild node .right t.sentinel
  t.setRed node true

def insertBy (less : BitVec 64 → BitVec 64 → Bool) (fuel : Nat) (t : Tree) (temp node : Nat) :
    Option Tree := do
  let (temp, s) ← descend less t node fuel temp
  hangLeaf s t temp node

def keyLess (a b : BitVec 64) : Bool := a.ult b

/-- The comparison of `ngx_rbtree_insert_timer_value`: the sign of the difference. -/
def timerLess (a b : BitVec 64) : Bool := (a - b).slt 0

def insertValue : Nat → Tree → Nat → Nat → Option Tree := insertBy keyLess

def insertTimerValue : Nat → Tree → Nat → Nat → Option Tree := insertBy timerLess

/-- A node on the inner side changes places with its parent. -/
def straighten (s : Side) (t : Tree) (node : Nat) : Option (Tree × Nat) := do
  let parent ← t.parent node
  if node = (← t.child parent s.other) then return (← rotate s t parent, parent)
  else return (t, node)

/-- The grandparent of a node on the outer side is rotated down. -/
def rotateGrand (s : Side) (t : Tree) (node : Nat) : Option Tree := do
  let t ← t.setRed (← t.parent node) false
  let t ← t.setRed (← t.parent (← t.parent node)) true
  rotate s.other t (← t.parent (← t.parent node))

/-- A pass of the loop after an insertion, with the parent on the side `s`. -/
def rebalanceStep (s : Side) (t : Tree) (node : Nat) : Option (Tree × Nat) := do
  let temp ← t.child (← t.parent (← t.parent node)) s.other
  if ← t.isRed temp then
    let t ← t.setRed (← t.parent node) false
    let t ← t.setRed temp false
    let t ← t.setRed (← t.parent (← t.parent node)) true
    return (t, ← t.parent (← t.parent node))
  else
    let (t, node) ← straighten s t node
    return (← rotateGrand s t node, node)

def rebalance (t : Tree) : Nat → Nat → Option Tree
  | 0, _ => none
  | fuel + 1, node => do
    if node = t.root then return t
    else if ← t.isRed (← t.parent node) then
      let parent ← t.parent node
      let s := if parent = (← t.child (← t.parent parent) .left) then Side.left else Side.right
      let (t, node) ← rebalanceStep s t node
      rebalance t fuel node
    else return t

def insert (insertAt : Nat → Tree → Nat → Nat → Option Tree) (fuel : Nat) (t : Tree) (node : Nat) :
    Option Tree := do
  if t.root = t.sentinel then
    let t ← t.setParent node 0
    let t ← t.setChild node .left t.sentinel
    let t ← t.setChild node .right t.sentinel
    let t ← t.setRed node false
    return { t with root := node }
  else
    let t ← insertAt fuel t t.root node
    let t ← rebalance t fuel node
    t.setRed t.root false

/-! ### Removal -/

def wipe (t : Tree) (node : Nat) : Option Tree := do
  let t ← t.setChild node .left 0
  let t ← t.setChild node .right 0
  let t ← t.setParent node 0
  t.setKey node 0

def blackChildren (t : Tree) (w : Nat) : Option Bool := do
  if ← t.isRed (← t.child w .left) then return false
  else return !(← t.isRed (← t.child w .right))

/-- A red sibling `w` is rotated away; the result is the sibling then. -/
def blackSibling (s : Side) (t : Tree) (temp w : Nat) : Option (Tree × Nat) := do
  if ← t.isRed w then
    let t ← t.setRed w false
    let t ← t.setRed (← t.parent temp) true
    let t ← rotate s t (← t.parent temp)
    return (t, ← t.child (← t.parent temp) s.other)
  else return (t, w)

/-- A sibling `w` with a black child on the far side is rotated away. -/
def redNephew (s : Side) (t : Tree) (temp w : Nat) : Option (Tree × Nat) := do
  if ← t.isRed (← t.child w s.other) then return (t, w)
  else
    let t ← t.setRed (← t.child w s) false
    let t ← t.setRed w true
    let t ← rotate s.other t w
    return (t, ← t.child (← t.parent temp) s.other)

/-- With a red child on the far side of the sibling `w` the parent is rotated down. -/
def rotateParent (s : Side) (t : Tree) (temp w : Nat) : Option Tree := do
  let t ← t.copyColor w (← t.parent temp)
  let t ← t.setRed (← t.parent temp) false
  let t ← t.setRed (← t.child w s.other) false
  rotate s t (← t.parent temp)

/-- What a pass of the loop does with a black sibling `w`. -/
def refillBlack (s : Side) (t : Tree) (temp w : Nat) : Option (Tree × Nat) := do
  if ← blackChildren t w then
    let t ← t.setRed w true
    return (t, ← t.parent temp)
  else
    let (t, w) ← redNephew s t temp w
    let t ← rotateParent s t temp w
    return (t, t.root)

def refillStep (s : Side) (t : Tree) (temp : Nat) : Option (Tree × Nat) := do
  let w ← t.child (← t.parent temp) s.other
  let (t, w) ← blackSibling s t temp w
  refillBlack s t temp w

def refill (t : Tree) : Nat → Nat → Option Tree
  | 0, _ => none
  | fuel + 1, temp => do
    if temp = t.root then t.setRed temp false
    else if ← t.isRed temp then t.setRed temp false
    else
      let s := if temp = (← t.child (← t.parent temp) .left) then Side.left else Side.right
      let (t, temp) ← refillStep s t temp
      refill t fuel temp

/-- The node that is unlinked, and the child that takes its place. -/
def substitute (fuel : Nat) (t : Tree) (node : Nat) : Option (Nat × Nat) := do
  let left ← t.child node .left
  let right ← t.child node .right
  if left = t.sentinel then return (node, right)
  else if right = t.sentinel then return (node, left)
  else
    let subst ← min t fuel right
    let left ← t.child subst .left
    if left ≠ t.sentinel then return (subst, left)
    else return (subst, ← t.child subst .right)

def adoptTemp (t : Tree) (node subst temp : Nat) : Option Tree := do
  let parent ← t.parent subst
  if subst = node then t.setParent temp parent
  else if parent = node then t.setParent temp subst
  else t.setParent temp parent

/-- `subst` takes the place of `node`, which has two children. -/
def replace (t : Tree) (node subst : Nat) : Option Tree := do
  if subst = node then return t
  else
    let t ← t.setChild subst .left (← t.child node .left)
    let t ← t.setChild subst .right (← t.child node .right)
    let t ← t.setParent subst (← t.parent node)
    let t ← t.copyColor subst node
    let t ← hang .left t node subst
    let t ← adopt t (← t.child subst .left) subst
    adopt t (← t.child subst .right) subst

/-- The writes of a removal: `temp` takes the place of `subst`, and that the one of `node`. -/
def unlink (t : Tree) (node subst temp : Nat) : Option Tree := do
  let t ← relink .left t (← t.parent subst) subst temp
  let t ← adoptTemp t node subst temp
  let t ← replace t node subst
  wipe t node

def delete (fuel : Nat) (t : Tree) (node : Nat) : Option Tree := do
  let (subst, temp) ← substitute fuel t node
  if subst = t.root then
    let t := { t with root := temp }
    let t ← t.setRed temp false
    wipe t node
  else
    let red ← t.isRed subst
    let t ← unlink t node subst temp
    if red then return t else refill t fuel temp

/-! ### In order -/

def climb (t : Tree) : Nat → Nat → Option Nat
  | 0, _ => none
  | fuel + 1, node => do
    let parent ← t.parent node
    if node = t.root then return 0
    else if node = (← t.child parent .left) then return parent
    else climb t fuel parent

def next (fuel : Nat) (t : Tree) (node : Nat) : Option Nat := do
  let right ← t.child node .right
  if right ≠ t.sentinel then min t fuel right else climb t fuel node

end Rbtree
