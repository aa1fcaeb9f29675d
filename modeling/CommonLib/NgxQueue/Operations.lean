import CommonLib.Links.Threads

/-!
The queue of nginx: a ring of nodes that other structures hold, with a sentinel that holds the
queue. `none` stands for a pointer that leads to no node. Release builds are modelled: `remove`
leaves the links of the node that it takes out.
-/
namespace NgxQueue

structure Node where
  prev : Nat
  next : Nat

abbrev Mem := Nat → Option Node

section Macros
variable (m : Mem)

def next (q : Nat) : Option Nat := (m q).map (·.next)

def prev (q : Nat) : Option Nat := (m q).map (·.prev)

def setNext (q v : Nat) : Option Mem :=
  (m q).map fun links => Function.update m q (some { links with next := v })

def setPrev (q v : Nat) : Option Mem :=
  (m q).map fun links => Function.update m q (some { links with prev := v })

def init (q : Nat) : Option Mem := do
  let m ← setPrev m q q
  setNext m q q

def empty (h : Nat) : Option Bool := do return h == (← prev m h)

def insertHead (h x : Nat) : Option Mem := do
  let m ← setNext m x (← next m h)
  let m ← setPrev m (← next m x) x
  let m ← setPrev m x h
  setNext m h x

def insertAfter : Nat → Nat → Option Mem := insertHead m

def insertTail (h x : Nat) : Option Mem := do
  let m ← setPrev m x (← prev m h)
  let m ← setNext m (← prev m x) x
  let m ← setNext m x h
  setPrev m h x

def head (h : Nat) : Option Nat := next m h

def last (h : Nat) : Option Nat := prev m h

def remove (x : Nat) : Option Mem := do
  let m ← setPrev m (← next m x) (← prev m x)
  setNext m (← prev m x) (← next m x)

def split (h q n : Nat) : Option Mem := do
  let m ← setPrev m n (← prev m h)
  let m ← setNext m (← prev m n) n
  let m ← setNext m n q
  let m ← setPrev m h (← prev m q)
  let m ← setNext m (← prev m h) h
  setPrev m q n

def add (h n : Nat) : Option Mem := do
  let m ← setNext m (← prev m h) (← next m n)
  let m ← setPrev m (← next m n) (← prev m h)
  let m ← setPrev m h (← prev m n)
  setNext m (← prev m h) h

end Macros

/-! ### The middle -/

section Loops
variable (m : Mem)

def middleLoop (queue : Nat) : Nat → Nat → Nat → Option Nat
  | 0, _, _ => none
  | fuel + 1, middle, follower => do
    let middle ← next m middle
    let follower ← next m follower
    if follower = (← last m queue) then
      return middle
    let follower ← next m follower
    if follower = (← last m queue) then
      return middle
    middleLoop queue fuel middle follower

def middle (fuel queue : Nat) : Option Nat := do
  let first ← head m queue
  if first = (← last m queue) then
    return first
  middleLoop m queue fuel first first

def walk (list : Nat) : Nat → Nat → Option (List Nat)
  | 0, _ => none
  | fuel + 1, q =>
    if q = list then some []
    else do return q :: (← walk list fuel (← next m q))

def queueEcho (fuel list : Nat) : Option (List Nat) := do walk m list fuel (← head m list)

end Loops

/-! ### The sort -/

section Sorting
variable (cmp : Nat → Nat → Int)

def place (m : Mem) (queue q : Nat) : Nat → Nat → Option Nat
  | 0, _ => none
  | fuel + 1, before =>
    if cmp before q ≤ 0 then some before
    else do
      let before ← prev m before
      if before ≠ queue then place m queue q fuel before else some before

def sortLoop (queue fuel : Nat) : Nat → Mem → Nat → Option Mem
  | 0, _, _ => none
  | turns + 1, m, q =>
    if q = queue then some m
    else do
      let before ← prev m q
      let follower ← next m q
      let m ← remove m q
      let m ← insertAfter m (← place cmp m queue q fuel before) q
      sortLoop queue fuel turns m follower

def sort (fuel : Nat) (m : Mem) (queue : Nat) : Option Mem := do
  let q ← head m queue
  if q = (← last m queue) then
    return m
  sortLoop cmp queue fuel fuel m (← next m q)

end Sorting

end NgxQueue
