import CommonLib.Btree.Format

/- The operations of the B+tree, statement by statement. A node is read into a value and
   written back where C works in place: `left`, `right`, `parent` and `new` are different
   nodes. The key that `btree_remove_level` gets may lie inside a node, so it stays a pointer. -/
namespace Btree
section Operations
variable (geo : Geo)

def btreeInit (h : Heap) : Tree := { node := 0, height := 0, heap := h }

/-! ### Looking up -/

def lookupLoop (h : Heap) (key : Key) : Nat → Nat → Result Nat
  | 0, a => .ok a
  | n + 1, a => do
    let node ← h.get a
    let i := getpos geo node key
    if i = geo.noPairs then return 0
    else if bval geo node i = 0 then return 0
    else lookupLoop h key n (bval geo node i)

def btreeLookup (t : Tree) (key : Key) : Result Nat :=
  if t.height = 0 then .ok 0
  else do
    let a ← lookupLoop geo t.heap key (t.height - 1) t.node
    if a = 0 then return 0
    else
      let node ← t.heap.get a
      let i := firstFrom (fun i => keycmp geo node i key = 0) 0 geo.noPairs
      if i = geo.noPairs then return 0 else return bval geo node i

def findStep (h : Heap) (key : Key) (a : Nat) : Result (Heap × Nat) := do
  let node ← h.get a
  let i := getpos geo node key
  if i = geo.noPairs ∨ bval geo node i = 0 then
    -- the right-most key is too large and is replaced
    if i = 0 then .error .bug
    else return (h.put a (setkeyb geo node key (i - 1)), bval geo node (i - 1))
  else return (h, bval geo node i)

def findLoop (key : Key) : Nat → Heap → Nat → Result (Heap × Nat)
  | 0, h, a => .ok (h, a)
  | n + 1, h, a => do
    let (h, a) ← findStep geo h key a
    findLoop key n h a

def findLevel (t : Tree) (key : Key) (level : Nat) : Result (Tree × Nat) := do
  let (h, a) ← findLoop geo key (t.height - level) t.heap t.node
  if a = 0 then .error .bug else return ({ t with heap := h }, a)

/-! ### Growing and shrinking -/

def btreeGrow (mem : Calloc) (t : Tree) : Result (Tree × Except Errno Unit) :=
  match btreeNodeAlloc mem t.heap with
  | none => .ok (t, .error .ENOMEM)
  | some (h, a) => do
    let grown := { node := a, height := t.height + 1, heap := h }
    if t.node = 0 then return (grown, .ok ())
    else
      let root ← h.get t.node
      let fill := getfill geo root 0
      if fill = 0 then .error .bounds
      else
        let node ← h.get a
        let node := setval geo (setkeyb geo node (bkey geo root (fill - 1)) 0) t.node 0
        return ({ grown with heap := h.put a node }, .ok ())

def btreeShrink (t : Tree) (fill : Nat) : Result Tree :=
  if fill = 0 ∨ fill = 1 ∧ 1 < t.height then do
    let node ← t.heap.get t.node
    return { node := bval geo node 0, height := t.height - 1, heap := ← t.heap.free t.node }
  else .ok t

/-! ### Moving entries between siblings -/

def stealL (h : Heap) (left lfill right rfill parent lpos noEntries : Nat) : Result Heap := do
  let l ← h.get left
  let r ← h.get right
  let p ← h.get parent
  if geo.noPairs < rfill + noEntries ∨ lfill ≤ noEntries then .error .bounds
  else
    let r := copyPairs geo (shiftUp geo r noEntries 0 rfill) 0 l (lfill - noEntries) noEntries
    let p := setkeyb geo p (bkey geo l (lfill - noEntries - 1)) lpos
    let l := clearPairs geo l (lfill - noEntries) noEntries
    return ((h.put right r).put parent p).put left l

def stealR (h : Heap) (left lfill right rfill parent lpos noEntries : Nat) : Result Heap := do
  let l ← h.get left
  let r ← h.get right
  let p ← h.get parent
  if geo.noPairs < lfill + noEntries ∨ noEntries = 0 ∨ rfill < noEntries then .error .bounds
  else
    let l := copyPairs geo l lfill r 0 noEntries
    let p := setkeyb geo p (bkey geo r (noEntries - 1)) lpos
    let r := shiftDown geo r 0 noEntries (rfill - noEntries)
    let r := clearPairs geo r (rfill - noEntries) noEntries
    return ((h.put left l).put parent p).put right r

/-! ### Inserting -/

abbrev Inserting := Tree → Key → Nat → Nat → Result (Tree × Except Errno Unit)

def split (mem : Calloc) (insertLevel : Inserting) (t : Tree) (node level : Nat) :
    Result (Tree × Except Errno Unit) :=
  let fill := geo.noPairs
  match btreeNodeAlloc mem t.heap with
  | none => .ok (t, .error .ENOMEM)
  | some (h, new) => do
    let key := bkey geo (← h.get node) (fill / 2 - 1)
    match ← insertLevel { t with heap := h } key new (level + 1) with
    | (t, .error e) => return ({ t with heap := ← t.heap.free new }, .error e)
    | (t, .ok ()) =>
      let (newNode, oldNode) :=
        splitLoop geo (fill / 2) (← t.heap.get new) (← t.heap.get node) 0 (fill / 2)
      let oldNode :=
        if fill % 2 = 1 then
          clearpair geo (copyPair geo oldNode (fill / 2) oldNode (fill - 1)) (fill - 1)
        else oldNode
      return ({ t with heap := (t.heap.put new newNode).put node oldNode }, .ok ())

def rebalanceInsert (mem : Calloc) (insertLevel : Inserting) (t : Tree) (key : Key)
    (child level : Nat) :
    Result (Tree × Except Errno Unit) :=
  if level = t.height then split geo mem insertLevel t child level
  else do
    let (t, parent) ← findLevel geo t key (level + 1)
    let p ← t.heap.get parent
    let childNo := getpos geo p key
    if (← pairVal geo p childNo) ≠ child then .error .bug
    let left := bval geo p (childNo - 1)
    let noLeft ← if 0 < childNo then do pure (getfill geo (← t.heap.get left) 0) else pure geo.noPairs
    if 2 ≤ geo.noPairs - noLeft then
      let h ← stealR geo t.heap left noLeft child geo.noPairs parent (childNo - 1)
        ((geo.noPairs - noLeft) / 2)
      return ({ t with heap := h }, .ok ())
    else
      let right := bval geo p (childNo + 1)
      let noRight ←
        if childNo + 1 < getfill geo p childNo then do pure (getfill geo (← t.heap.get right) 0)
        else pure geo.noPairs
      if 2 ≤ geo.noPairs - noRight then
        let h ← stealL geo t.heap child geo.noPairs right noRight parent childNo
          ((geo.noPairs - noRight) / 2)
        return ({ t with heap := h }, .ok ())
      else split geo mem insertLevel t child level

def insertRetry (mem : Calloc) (insertLevel : Inserting) (key : Key) (val level : Nat) :
    Nat → Tree → Result (Tree × Except Errno Unit)
  | 0, _ => .error .fuel
  | fuel + 1, t => do
    let (t, a) ← findLevel geo t key level
    let node ← t.heap.get a
    let pos := getpos geo node key
    let fill := getfill geo node pos
    if pos < fill ∧ keycmp geo node pos key = 0 then .error .bug
    else if fill = geo.noPairs then
      match ← rebalanceInsert geo mem insertLevel t key a level with
      | (t, .error e) => return (t, .error e)
      | (t, .ok ()) => insertRetry mem insertLevel key val level fuel t
    else
      let node := shiftUp geo node (pos + 1) pos (fill - pos)
      let node := setval geo (setkeyb geo node key pos) val pos
      return ({ t with heap := t.heap.put a node }, .ok ())

/-- `btree_insert_level`; a second pass through `retry` finds room. -/
def btreeInsertLevel (mem : Calloc) : Nat → Inserting
  | 0, _, _, _, _ => .error .fuel
  | fuel + 1, t, key, val, level =>
    if val = 0 then .error .bug
    else do
      match ← if t.height < level then btreeGrow geo mem t else .ok (t, .ok ()) with
      | (t, .error e) => return (t, .error e)
      | (t, .ok ()) => insertRetry geo mem (btreeInsertLevel mem fuel) key val level 2 t

def btreeInsert (mem : Calloc) (t : Tree) (key : Key) (val : Nat) :
    Result (Tree × Except Errno Unit) :=
  btreeInsertLevel geo mem (t.height + 2) t key val 1

/-! ### Removing -/

/-- A key in the caller's buffer, or the key of a pair of a node. -/
inductive KeyPtr where
  | buffer (key : Key)
  | pair (a n : Nat)

def deref (h : Heap) : KeyPtr → Result Key
  | .buffer key => .ok key
  | .pair a n => do return bkey geo (← h.get a) n

abbrev Removing := Tree → KeyPtr → Nat → Result (Tree × Nat)

def merge (removeLevel : Removing) (t : Tree) (level left lfill right rfill parent lpos : Nat) :
    Result Tree := do
  let l ← t.heap.get left
  let r ← t.heap.get right
  if geo.noPairs < lfill + rfill then .error .bounds
  else
    let h := t.heap.put left (copyPairs geo l lfill r 0 rfill)
    let p ← h.get parent
    let h := h.put parent (setval geo (setval geo p right lpos) left (lpos + 1))
    let (t, _) ← removeLevel { t with heap := h } (.pair parent lpos) (level + 1)
    return { t with heap := ← t.heap.free right }

def rebalance (removeLevel : Removing) (t : Tree) (key : KeyPtr) (level child fill : Nat) :
    Result Tree := do
  let (t, parent) ← findLevel geo t (← deref geo t.heap key) (level + 1)
  let p ← t.heap.get parent
  let childNo := getpos geo p (← deref geo t.heap key)
  if (← pairVal geo p childNo) ≠ child then .error .bug
  let left := if 0 < childNo then bval geo p (childNo - 1) else 0
  let noLeft ← if 0 < childNo then do pure (getfill geo (← t.heap.get left) 0) else pure 0
  if 0 < childNo ∧ fill + noLeft ≤ geo.noPairs then
    merge geo removeLevel t level left noLeft child fill parent (childNo - 1)
  else
    let beside : Bool := childNo + 1 < getfill geo p childNo
    let right := if beside then bval geo p (childNo + 1) else 0
    let noRight ← if beside then do pure (getfill geo (← t.heap.get right) 0) else pure 0
    if beside ∧ fill + noRight ≤ geo.noPairs then
      merge geo removeLevel t level child fill right noRight parent childNo
    else if 1 < fill then return t
    else if left ≠ 0 then
      if (noLeft - fill) / 2 < 1 then .error .bug
      else
        let h ← stealL geo t.heap left noLeft child fill parent (childNo - 1) ((noLeft - fill) / 2)
        return { t with heap := h }
    else if right ≠ 0 then
      if (noRight - fill) / 2 < 1 then .error .bug
      else
        let h ← stealR geo t.heap child fill right noRight parent childNo ((noRight - fill) / 2)
        return { t with heap := h }
    else .error .bug

def btreeRemoveLevel : Nat → Removing
  | 0, _, _, _ => .error .fuel
  | fuel + 1, t, key, level =>
    if t.height < level then .ok ({ t with node := 0, height := 0 }, 0)
    else do
      let (t, a) ← findLevel geo t (← deref geo t.heap key) level
      let node ← t.heap.get a
      let k ← deref geo t.heap key
      let pos := getpos geo node k
      let fill := getfill geo node pos
      if level = 1 ∧ keycmp geo node pos k ≠ 0 then return (t, 0)
      else
        let ret ← pairVal geo node pos
        if fill = 0 then .error .bounds
        else
          let node := clearpair geo (shiftDown geo node pos (pos + 1) (fill - 1 - pos)) (fill - 1)
          let t := { t with heap := t.heap.put a node }
          if fill - 1 < geo.noPairs / 2 then
            if level < t.height then
              return (← rebalance geo (btreeRemoveLevel fuel) t key level a (fill - 1), ret)
            else return (← btreeShrink geo t (fill - 1), ret)
          else return (t, ret)

def btreeRemove (t : Tree) (key : Key) : Result (Tree × Nat) :=
  if t.height = 0 then .ok (t, 0) else btreeRemoveLevel geo (t.height + 1) t (.buffer key) 1

/-! ### Merging -/

structure Head where
  node : Nat
  height : Nat

def Head.tree (d : Head) (h : Heap) : Tree := { node := d.node, height := d.height, heap := h }
def Tree.head (t : Tree) : Head := { node := t.node, height := t.height }

def lastLoop (h : Heap) : Nat → Nat → Result Nat
  | 0, a => .ok a
  | n + 1, a => do
    let node ← h.get a
    lastLoop h n (bval geo node 0)

/-- The pointer that `btree_last` returns lies in a leaf; `none` is NULL. -/
def btreeLast (t : Tree) : Result (Option KeyPtr) :=
  if t.height = 0 then .ok none
  else do
    let a ← lastLoop geo t.heap (t.height - 1) t.node
    return some (.pair a 0)

structure Merging where
  target : Head
  victim : Head
  heap : Heap
  duplicate : Key

/-- The loop of `btree_merge`. `btree_insert` gets a pointer into a node of the victim, which
    it does not write to; the removal gets the copy. -/
def mergeLoop (mem : Calloc) : Nat → Merging → Result (Merging × Except Errno Unit)
  | 0, _ => .error .fuel
  | fuel + 1, m => do
    match ← btreeLast geo (m.victim.tree m.heap) with
    | none => return (m, .ok ())
    | some key =>
      let val ← btreeLookup geo (m.victim.tree m.heap) (← deref geo m.heap key)
      match ← btreeInsert geo mem (m.target.tree m.heap) (← deref geo m.heap key) val with
      | (t, .error e) => return ({ m with target := t.head, heap := t.heap }, .error e)
      | (t, .ok ()) =>
        let duplicate ← deref geo t.heap key
        let (v, _) ← btreeRemove geo (m.victim.tree t.heap) duplicate
        mergeLoop mem fuel
          { target := t.head, victim := v.head, heap := v.heap, duplicate := duplicate }

def btreeMerge (mem : Calloc) (fuel : Nat) (m : Merging) : Result (Merging × Except Errno Unit) :=
  if m.target.node = 0 then .ok ({ m with target := m.victim, victim := ⟨0, 0⟩ }, .ok ())
  else mergeLoop geo mem fuel m

/-! ### Visiting -/

structure Visit where
  elem : Nat
  key : Key
  index : Nat
  deriving DecidableEq, Repr

/-- What a traversal has done so far: the calls it made, the nodes it freed, its count. -/
structure Visited where
  heap : Heap
  visits : List Visit
  freed : List Nat
  count : Nat

def forPairs (visit : Visited → Key → Nat → Result Visited) (a : Nat) :
    Nat → Nat → Visited → Result Visited
  | 0, _, s => .ok s
  | n + 1, i, s => do
    let node ← s.heap.get a
    if bval geo node i = 0 then return s
    else forPairs visit a n (i + 1) (← visit s (bkey geo node i) (bval geo node i))

def callVisitor (func2 : Bool) (s : Visited) (key : Key) (elem : Nat) : Result Visited :=
  .ok { s with
    visits := if func2 then s.visits ++ [{ elem := elem, key := key, index := s.count }] else s.visits
    count := s.count + 1 }

def reapNode (reap : Bool) (s : Visited) (a : Nat) : Result Visited :=
  if reap then do
    return { s with heap := ← s.heap.free a, freed := s.freed ++ [a] }
  else .ok s

/-- `__btree_for_each` on a node of the given height, less one. -/
def btreeForEach (func2 reap : Bool) : Nat → Nat → Visited → Result Visited
  | 0, a, s => do
    let s ← forPairs geo (callVisitor func2) a geo.noPairs 0 s
    reapNode reap s a
  | n + 1, a, s => do
    let s ← forPairs geo (fun s _ child => btreeForEach func2 reap n child s) a geo.noPairs 0 s
    reapNode reap s a

def btreeVisitor (t : Tree) (func2 : Bool) : Result Visited :=
  if t.node = 0 then .ok { heap := t.heap, visits := [], freed := [], count := 0 }
  else
    btreeForEach geo func2 false (t.height - 1) t.node
      { heap := t.heap, visits := [], freed := [], count := 0 }

def btreeGrimVisitor (t : Tree) (func2 : Bool) : Result (Tree × Visited) := do
  let s : Visited ←
    if t.node = 0 then .ok { heap := t.heap, visits := [], freed := [], count := 0 }
    else
      btreeForEach geo func2 true (t.height - 1) t.node
        { heap := t.heap, visits := [], freed := [], count := 0 }
  return ({ node := 0, height := 0, heap := s.heap }, s)

end Operations
end Btree
