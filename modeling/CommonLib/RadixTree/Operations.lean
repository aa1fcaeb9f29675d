import CommonLib.SearchTree.Path
import Mathlib.Data.List.Pairwise

/- `ngx_radix_tree.c`: a binary tree of prefixes, in nodes that the tree takes off the pages of a
   pool and keeps in a list of its own when it has no use for them. -/
namespace RadixTree
open SearchTree

structure Node where
  right : Nat
  left : Nat
  parent : Nat
  value : BitVec 64
  deriving DecidableEq, Repr

def noValue : BitVec 64 := -1#64

def nodeSize : Nat := 32

abbrev Mem := Nat → Option Node

def slots (start n : Nat) : List Nat := (List.range n).map fun i => start + nodeSize * i

/-- What the pool answers: NULL or a page, whatever is in it. No two pages overlap. -/
structure Pool where
  pagesize : Nat
  page : Nat → Option Nat
  junk : Nat → Node
  /-- whether there is memory for the `ngx_radix_tree_t` itself -/
  header : Bool
  room : nodeSize ≤ pagesize
  positive : ∀ {k p}, page k = some p → 0 < p
  apart : ∀ {j k p q}, j ≠ k → page j = some p → page k = some q →
    p + pagesize ≤ q ∨ q + pagesize ≤ p

/-- `ngx_radix_tree_t`, with the memory that it is in and the number of pages asked for. -/
structure Tree where
  mem : Mem
  root : Nat
  free : Nat
  start : Nat
  size : Nat
  asked : Nat

inductive Reply where
  | ok
  | error
  | busy
  deriving DecidableEq, Repr

def Node.child (node : Node) : Side → Nat
  | .left => node.left
  | .right => node.right

def Node.setChild (node : Node) (s : Side) (q : Nat) : Node :=
  match s with
  | .left => { node with left := q }
  | .right => { node with right := q }

namespace Tree
variable (t : Tree)

def get (p : Nat) : Option Node := t.mem p

def put (p : Nat) (node : Node) : Tree := { t with mem := Function.update t.mem p (some node) }

def modify (p : Nat) (f : Node → Node) : Option Tree := (t.get p).map fun node => t.put p (f node)

def child (p : Nat) (s : Side) : Option Nat := (t.get p).map (·.child s)

def parent (p : Nat) : Option Nat := (t.get p).map (·.parent)

def value (p : Nat) : Option (BitVec 64) := (t.get p).map (·.value)

def setChild (p : Nat) (s : Side) (q : Nat) : Option Tree := t.modify p (·.setChild s q)

def setValue (p : Nat) (value : BitVec 64) : Option Tree :=
  t.modify p fun node => { node with value := value }

def clear (p parent : Nat) : Option Tree := t.modify p fun _ => ⟨0, 0, parent, noValue⟩

end Tree

/-! ### Nodes -/

def pmemalign (pool : Pool) (t : Tree) : Tree × Nat :=
  match pool.page t.asked with
  | none => ({ t with asked := t.asked + 1 }, 0)
  | some p =>
    ({ t with
        mem := fun q =>
          if q ∈ slots p (pool.pagesize / nodeSize) then some (pool.junk q) else t.mem q
        asked := t.asked + 1 }, p)

def take (t : Tree) : Tree × Nat :=
  ({ t with start := t.start + nodeSize, size := t.size - nodeSize }, t.start)

def alloc (pool : Pool) (t : Tree) : Option (Tree × Nat) :=
  if t.free ≠ 0 then do
    let next ← t.child t.free .right
    some ({ t with free := next }, t.free)
  else if t.size < nodeSize then
    let (t, start) := pmemalign pool t
    let t := { t with start := start }
    if start = 0 then some (t, 0)
    else some (take { t with size := pool.pagesize })
  else some (take t)

/-! ### Keys -/

/-- How a loop goes through a key and its mask, from the first bit on. -/
structure Cursor (σ : Type) where
  /-- `bit & mask`, or `none` outside of the array -/
  mask : σ → Option Bool
  /-- `key & bit` -/
  key : σ → Option Bool
  /-- the next bit, or `none` where the loop is left -/
  next : σ → Option σ

def side (set : Bool) : Side := if set then .right else .left

def cursor32 (key mask : BitVec 32) : Cursor (BitVec 32) where
  mask bit := some (bit &&& mask != 0)
  key bit := some (key &&& bit != 0)
  next bit := some (bit >>> 1)

abbrev Address := Vector (BitVec 8) 16

def byteBit (bytes : Address) : BitVec 8 × Nat → Option Bool
  | (bit, i) => bytes[i]?.map fun byte => byte &&& bit != 0

def cursor128 (key mask : Address) : Cursor (BitVec 8 × Nat) where
  mask := byteBit mask
  key := byteBit key
  next
    | (bit, i) =>
      if bit >>> 1 = 0 then if i + 1 = 16 then none else some (0x80, i + 1)
      else some (bit >>> 1, i)

/-- The lookup does not look for the end. -/
def lookup128 (key : Address) : Cursor (BitVec 8 × Nat) where
  mask _ := some true
  key := byteBit key
  next
    | (bit, i) => if bit >>> 1 = 0 then some (0x80, i + 1) else some (bit >>> 1, i)

/-! ### The loops -/

section Loops
variable {σ : Type} (pool : Pool) (c : Cursor σ)

def descend (t : Tree) : Nat → σ → Nat → Option (σ × Nat × Nat)
  | 0, _, _ => none
  | fuel + 1, bit, node => do
    if ← c.mask bit then
      let next ← t.child node (side (← c.key bit))
      if next = 0 then some (bit, node, 0)
      else match c.next bit with
        | none => some (bit, next, next)
        | some bit => descend t fuel bit next
    else some (bit, node, node)

def grow : Nat → Tree → σ → Nat → Option (Tree × Option Nat)
  | 0, _, _, _ => none
  | fuel + 1, t, bit, node => do
    if ← c.mask bit then
      let (t, next) ← alloc pool t
      if next = 0 then some (t, none)
      else
        let t ← t.clear next node
        let t ← t.setChild node (side (← c.key bit)) next
        match c.next bit with
        | none => some (t, some next)
        | some bit => grow fuel t bit next
    else some (t, some node)

/-- `ngx_radix32tree_insert` and `ngx_radix128tree_insert`, for any way to go through the key. -/
def insertFrom (fuel : Nat) (bit : σ) (t : Tree) (value : BitVec 64) : Option (Tree × Reply) := do
  let (bit, node, next) ← descend c t fuel bit t.root
  if next ≠ 0 then
    if (← t.value node) ≠ noValue then some (t, .busy)
    else some (← t.setValue node value, .ok)
  else
    match ← grow pool c fuel t bit node with
    | (t, none) => some (t, .error)
    | (t, some node) => some (← t.setValue node value, .ok)

/-- The way down to the node that is to be deleted. -/
def locate (t : Tree) : Nat → σ → Nat → Option Nat
  | 0, _, _ => none
  | fuel + 1, bit, node => do
    if node = 0 then some 0
    else if ← c.mask bit then
      let node ← t.child node (side (← c.key bit))
      match c.next bit with
      | none => some node
      | some bit => locate t fuel bit node
    else some node

def dropLeaf (t : Tree) (node : Nat) : Option (Tree × Nat) := do
  let parent ← t.parent node
  let s := if (← t.child parent .right) = node then Side.right else .left
  let t ← t.setChild parent s 0
  let t ← t.setChild node .right t.free
  let t := { t with free := node }
  some (t, ← t.parent node)

/-- Whether none of the three `break`s is reached: the node has no child, no value and a parent. -/
def goesOn (t : Tree) (node : Nat) : Option Bool := do
  if (← t.child node .right) ≠ 0 ∨ (← t.child node .left) ≠ 0 then some false
  else if (← t.value node) ≠ noValue then some false
  else some ((← t.parent node) != 0)

def prune : Nat → Tree → Nat → Option Tree
  | 0, _, _ => none
  | fuel + 1, t, node => do
    let (t, node) ← dropLeaf t node
    if ← goesOn t node then prune fuel t node else some t

def deleteFrom (fuel : Nat) (bit : σ) (t : Tree) : Option (Tree × Reply) := do
  let node ← locate c t fuel bit t.root
  if node = 0 then some (t, .error)
  else if (← t.child node .right) ≠ 0 ∨ (← t.child node .left) ≠ 0 then
    if (← t.value node) ≠ noValue then some (← t.setValue node noValue, .ok)
    else some (t, .error)
  else some (← prune fuel t node, .ok)

def search (t : Tree) : Nat → σ → Nat → BitVec 64 → Option (BitVec 64)
  | 0, _, _, _ => none
  | fuel + 1, bit, node, value => do
    if node = 0 then some value
    else
      let own ← t.value node
      let value := if own ≠ noValue then own else value
      let node ← t.child node (side (← c.key bit))
      search t fuel (← c.next bit) node value

end Loops

/-! ### The functions, with as many passes as a key has bits and one -/

def radix32Insert (pool : Pool) (t : Tree) (key mask : BitVec 32) (value : BitVec 64) :
    Option (Tree × Reply) :=
  insertFrom pool (cursor32 key mask) 33 0x80000000 t value

def radix32Delete (t : Tree) (key mask : BitVec 32) : Option (Tree × Reply) :=
  deleteFrom (cursor32 key mask) 33 0x80000000 t

def radix32Find (t : Tree) (key : BitVec 32) : Option (BitVec 64) :=
  search (cursor32 key 0) t 34 0x80000000 t.root noValue

def radix128Insert (pool : Pool) (t : Tree) (key mask : Address) (value : BitVec 64) :
    Option (Tree × Reply) :=
  insertFrom pool (cursor128 key mask) 129 (0x80, 0) t value

def radix128Delete (t : Tree) (key mask : Address) : Option (Tree × Reply) :=
  deleteFrom (cursor128 key mask) 129 (0x80, 0) t

def radix128Find (t : Tree) (key : Address) : Option (BitVec 64) :=
  search (lookup128 key) t 130 (0x80, 0) t.root noValue

/-! ### The tree -/

/-- A node for every key of one level; an error is NULL, with the number of pages asked for. -/
def level (pool : Pool) (mask inc : BitVec 32) : Nat → Tree → BitVec 32 → Option (Except Nat Tree)
  | 0, _, _ => none
  | fuel + 1, t, key => do
    let (t, reply) ← radix32Insert pool t key mask noValue
    if reply ≠ .ok then some (.error t.asked)
    else if key + inc = 0 then some (.ok t)
    else level pool mask inc fuel t (key + inc)

def nextMask (mask : BitVec 32) : BitVec 32 := mask >>> 1 ||| 0x80000000

def levels (pool : Pool) (fuel : Nat) :
    Nat → Tree → BitVec 32 → BitVec 32 → Option (Except Nat Tree)
  | 0, t, _, _ => some (.ok t)
  | n + 1, t, mask, inc => do
    match ← level pool (nextMask mask) inc fuel t 0 with
    | .error asked => some (.error asked)
    | .ok t => levels pool fuel n t (nextMask mask) (inc >>> 1)

def defaultLevels (pool : Pool) : Nat :=
  match pool.pagesize / nodeSize with
  | 128 => 6
  | 256 => 7
  | _ => 8

/-- `ngx_radix_tree_create`: `none` is an access outside of the memory, an error is NULL, with the
    number of pages asked for. Below -1 the loop over the levels does not come to an end. -/
def create (pool : Pool) (fuel : Nat) (mem : Mem) (preallocate : Int) : Option (Except Nat Tree) := do
  if pool.header = false then some (.error 0)
  else
    let (t, root) ← alloc pool ⟨mem, 0, 0, 0, 0, 0⟩
    if root = 0 then some (.error t.asked)
    else
      let t ← { t with root := root }.clear root 0
      if preallocate = -1 then levels pool fuel (defaultLevels pool) t 0 0x80000000
      else if preallocate < 0 then none
      else levels pool fuel preallocate.toNat t 0 0x80000000

end RadixTree
