import CommonLib.Memory.Heap

/- `alist`: an allocator that keeps its blocks in a chain behind the users' bytes. A `none` is an
   access that the heap does not allow, or a loop that goes on for longer than there are blocks. -/
namespace Alist
open Memory

def soapMaxAllocSize : BitVec 64 := 0

def soapCanary : Nat := 0xC0DE

/-- What `malloc` answers: a null pointer, or a block with whatever is in it. -/
abbrev Answer := Option (Nat × Mem)

/-- The sizes in `alist_malloc`: the offset of the link, if no sum wraps. -/
def linkOffset (n : BitVec 64) : Option (BitVec 64) :=
  if soapMaxAllocSize > 0 ∧ n > soapMaxAllocSize then none
  else if n + 2 < n then none
  else
    let n := n + 2
    if n + (-n &&& (8 - 1)) + 8 + 8 < n then none else some (n + (-n &&& (8 - 1)))

/-- `alist_malloc` for the list whose `memlist` is at the address `list`, and the pointer it returns. -/
def alistMalloc (list : Nat) (heap : Heap) (n : BitVec 64) (answer : Answer) :
    Option (Heap × Nat) :=
  match linkOffset n with
  | none => some (heap, 0)
  | some n =>
    match answer with
    | none => some (heap, 0)
    | some (p, junk) => do
      let heap := heap.malloc p (n + 8 + 8).toNat junk
      let heap ← heap.writeWord (p + n.toNat - 2) 2 soapCanary
      let memlist ← heap.read list 8
      let heap ← heap.writeWord (p + n.toNat) 8 memlist
      let heap ← heap.writeWord (p + n.toNat + 8) 8 n.toNat
      let heap ← heap.writeWord list 8 (p + n.toNat)
      return (heap, p)

def alistCalloc (list : Nat) (heap : Heap) (n : BitVec 64) (answer : Answer) :
    Option (Heap × Nat) := do
  let (heap, p) ← alistMalloc list heap n answer
  if p ≠ 0 then
    let heap ← heap.write p (List.replicate n.toNat 0)
    return (heap, p)
  else return (heap, p)

def alistStrdup (list : Nat) (heap : Heap) (s : Option (List (BitVec 8))) (answer : Answer) :
    Option (Heap × Nat) :=
  match s with
  | none => some (heap, 0)
  | some s => do
    let n := BitVec.ofNat 64 s.length + 1
    if n > 0 then
      let (heap, t) ← alistCalloc list heap n answer
      if t = 0 then return (heap, 0)
      else
        let heap ← heap.write t ((s ++ [0]).take n.toNat)
        let heap ← heap.write (t + (n - 1).toNat) [0]
        return (heap, t)
    else return (heap, 0)

def deallocFrom (p : Nat) : Nat → Heap → Nat → Option Heap
  | 0, _, _ => none
  | fuel + 1, heap, q => do
    let node ← heap.read q 8
    if node = 0 then return heap
    else
      let canary ← heap.read (node - 2) 2
      if canary ≠ soapCanary then return heap
      else
        let size ← heap.read (node + 8) 8
        if p = node - size then
          let next ← heap.read node 8
          let heap ← heap.writeWord q 8 next
          heap.free p
        else deallocFrom p fuel heap node

def deallocAll (list : Nat) : Nat → Heap → Option Heap
  | 0, _ => none
  | fuel + 1, heap => do
    let q ← heap.read list 8
    if q = 0 then return heap
    else
      let canary ← heap.read (q - 2) 2
      if canary ≠ soapCanary then return heap
      else
        let next ← heap.read q 8
        let heap ← heap.writeWord list 8 next
        let size ← heap.read (q + 8) 8
        let heap ← heap.free (q - size)
        deallocAll list fuel heap

/-- `alist_dealloc`. A run of its loops that lasts longer than there are blocks is `none` too. -/
def alistDealloc (list : Nat) (heap : Heap) (p : Nat) : Option Heap :=
  if p ≠ 0 then deallocFrom p (heap.live.length + 1) heap list
  else deallocAll list (heap.live.length + 1) heap

/-- `alist_uninit`, but for the mutex. -/
def alistUninit (list : Nat) (heap : Heap) : Option Heap := alistDealloc list heap 0

inductive Call where
  | malloc (n : BitVec 64) (answer : Answer)
  | calloc (n : BitVec 64) (answer : Answer)
  | strdup (s : Option (List (BitVec 8))) (answer : Answer)
  | dealloc (p : Nat)
  | uninit
  | user (addr : Nat) (byte : BitVec 8)

def Call.run (list : Nat) (heap : Heap) : Call → Option Heap
  | .malloc n answer => (alistMalloc list heap n answer).map Prod.fst
  | .calloc n answer => (alistCalloc list heap n answer).map Prod.fst
  | .strdup s answer => (alistStrdup list heap s answer).map Prod.fst
  | .dealloc p => alistDealloc list heap p
  | .uninit => alistUninit list heap
  | .user addr byte => heap.write addr [byte]

def runCalls (list : Nat) (heap : Heap) (calls : List Call) : Option Heap :=
  calls.foldlM (Call.run list) heap

end Alist
