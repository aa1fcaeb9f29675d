import Mathlib.Data.Nat.Basic
import Mathlib.Data.Int.Basic
import Mathlib.Logic.Function.Basic

/- The nodes of the in-memory B+tree on a 64-bit machine: 16 words, the keys first and
   then the values. A key is compared word by word, unsigned. -/
namespace Btree

def nodeWords : Nat := 16

/-- `struct btree_geo`: the pairs fit a node, and there are at least four of them. -/
structure Geo where
  keylen : Nat
  noPairs : Nat
  someKey : 0 < keylen
  four : 4 ≤ noPairs
  room : noPairs * (keylen + 1) ≤ nodeWords

def btreeGeo32 : Geo := ⟨1, nodeWords / 2, by decide, by decide, by decide⟩
def btreeGeo64 : Geo := ⟨1, nodeWords / (1 + 1), by decide, by decide, by decide⟩
def btreeGeo128 : Geo := ⟨2, nodeWords / (1 + 2), by decide, by decide, by decide⟩

abbrev Key := List Nat
abbrev Node := Nat → Nat

/-- What C would abort on or leave undefined: `BUG_ON` and `BUG`, a pointer to no live
    node, an index outside the node. Fuel used up is kept apart from these. -/
inductive Fault where
  | bug | wild | bounds | fuel | freed
  deriving DecidableEq, Repr

abbrev Result := Except Fault

inductive Errno where
  | ENOMEM
  deriving DecidableEq, Repr

def longcmp : Key → Key → Int
  | a :: as, b :: bs => if a < b then -1 else if b < a then 1 else longcmp as bs
  | _, _ => 0

section Words
variable (geo : Geo)

def bkey (node : Node) (n : Nat) : Key :=
  (List.range geo.keylen).map fun j => node (n * geo.keylen + j)

def bval (node : Node) (n : Nat) : Nat := node (geo.noPairs * geo.keylen + n)

def setkeyb (node : Node) (key : Key) (n : Nat) : Node := fun w =>
  if n * geo.keylen ≤ w ∧ w < n * geo.keylen + geo.keylen then key.getD (w - n * geo.keylen) 0
  else node w

def setval (node : Node) (val n : Nat) : Node :=
  Function.update node (geo.noPairs * geo.keylen + n) val

def zeroKey : Key := List.replicate geo.keylen 0

def clearpair (node : Node) (n : Nat) : Node := setval geo (setkeyb geo node (zeroKey geo) n) 0 n

def keycmp (node : Node) (pos : Nat) (key : Key) : Int := longcmp (bkey geo node pos) key

def pairVal (node : Node) (n : Nat) : Result Nat :=
  if geo.noPairs * geo.keylen + n < nodeWords then .ok (bval geo node n) else .error .bounds

/-! ### Loops -/

/-- `for (i = start; ...; i++) if (p(i)) break;` with so many steps to the end. -/
def firstFrom (p : Nat → Bool) : Nat → Nat → Nat
  | i, 0 => i
  | i, n + 1 => if p i then i else firstFrom p (i + 1) n

def getpos (node : Node) (key : Key) : Nat :=
  firstFrom (fun i => keycmp geo node i key ≤ 0) 0 geo.noPairs

def getfill (node : Node) (start : Nat) : Nat :=
  firstFrom (fun i => bval geo node i = 0) start (geo.noPairs - start)

def copyPair (dst : Node) (i : Nat) (src : Node) (j : Nat) : Node :=
  setval geo (setkeyb geo dst (bkey geo src j) i) (bval geo src j) i

def copyPairs (dst : Node) (i : Nat) (src : Node) (j : Nat) : Nat → Node
  | 0 => dst
  | n + 1 => copyPairs (copyPair geo dst i src j) (i + 1) src (j + 1) n

def shiftDown (node : Node) (i j : Nat) : Nat → Node
  | 0 => node
  | n + 1 => shiftDown (copyPair geo node i node j) (i + 1) (j + 1) n

def shiftUp (node : Node) (i j : Nat) : Nat → Node
  | 0 => node
  | n + 1 => shiftUp (copyPair geo node (i + n) node (j + n)) i j n

def clearPairs (node : Node) (i : Nat) : Nat → Node
  | 0 => node
  | n + 1 => clearPairs (clearpair geo node i) (i + 1) n

def splitLoop (half : Nat) (new node : Node) (i : Nat) : Nat → Node × Node
  | 0 => (new, node)
  | n + 1 =>
    splitLoop half (copyPair geo new i node i)
      (clearpair geo (copyPair geo node i node (i + half)) (i + half)) (i + 1) n

end Words

/-! ### Memory -/

/-- The live nodes; none of them is at `top` or above. -/
structure Heap where
  node : Nat → Option Node
  top : Nat
  above : ∀ a, top ≤ a → node a = none

def Heap.get (h : Heap) (a : Nat) : Result Node :=
  match h.node a with
  | some node => .ok node
  | none => .error .wild

def Heap.put (h : Heap) (a : Nat) (node : Node) : Heap where
  node := Function.update h.node a (some node)
  top := max h.top (a + 1)
  above := by
    intro b hb
    have : b ≠ a := by omega
    rw [Function.update_of_ne this]
    exact h.above b (by omega)

def Heap.drop (h : Heap) (a : Nat) : Heap where
  node := Function.update h.node a none
  top := h.top
  above := by
    intro b hb
    by_cases here : b = a
    · rw [here, Function.update_self]
    · rw [Function.update_of_ne here]
      exact h.above b hb

def Heap.free (h : Heap) (a : Nat) : Result Heap :=
  match h.node a with
  | some _ => .ok (h.drop a)
  | none => .error .freed

/-- `calloc`: it fails, or returns a node that is not in use. -/
structure Calloc where
  addr : Heap → Option Nat
  fresh : ∀ h a, addr h = some a → a ≠ 0 ∧ h.node a = none

def btreeNodeAlloc (mem : Calloc) (h : Heap) : Option (Heap × Nat) :=
  (mem.addr h).map fun a => (h.put a fun _ => 0, a)

structure Tree where
  node : Nat
  height : Nat
  heap : Heap

end Btree
