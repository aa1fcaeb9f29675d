import CommonLib.Memory.Bytes

/- A heap of blocks in a memory, where every access is checked. A `none` is an access outside of the
   objects that are alive, or a `free` of something else than a block. -/
namespace Memory

/-- The memory, the blocks handed out (where they start, and their sizes), and the other objects. -/
structure Heap where
  mem : Mem
  live : List (Nat × Nat)
  objects : List (Nat × Nat)

namespace Heap

def Within (heap : Heap) (addr size : Nat) : Prop :=
  ∃ region ∈ heap.live ++ heap.objects, region.1 ≤ addr ∧ addr + size ≤ region.1 + region.2

instance (heap : Heap) (addr size : Nat) : Decidable (heap.Within addr size) :=
  inferInstanceAs (Decidable (∃ region ∈ _, _))

def read (heap : Heap) (addr size : Nat) : Option Nat :=
  if heap.Within addr size then some (load heap.mem addr size) else none

def write (heap : Heap) (addr : Nat) (bytes : List (BitVec 8)) : Option Heap :=
  if heap.Within addr bytes.length then some { heap with mem := put heap.mem addr bytes } else none

def writeWord (heap : Heap) (addr size value : Nat) : Option Heap :=
  heap.write addr (wordBytes size value)

def malloc (heap : Heap) (base size : Nat) (junk : Mem) : Heap :=
  { heap with
    mem := fun a => if base ≤ a ∧ a < base + size then junk a else heap.mem a
    live := (base, size) :: heap.live }

def free (heap : Heap) (base : Nat) : Option Heap :=
  if ∃ region ∈ heap.live, region.1 = base then
    some { heap with live := heap.live.eraseP (·.1 = base) }
  else none

theorem read_eq {heap : Heap} {addr size : Nat} (within : heap.Within addr size) :
    heap.read addr size = some (load heap.mem addr size) := if_pos within

theorem write_eq {heap : Heap} {addr : Nat} {bytes : List (BitVec 8)}
    (within : heap.Within addr bytes.length) :
    heap.write addr bytes = some { heap with mem := put heap.mem addr bytes } := if_pos within

theorem writeWord_eq {heap : Heap} {addr size : Nat} (value : Nat)
    (within : heap.Within addr size) :
    heap.writeWord addr size value = some { heap with mem := store heap.mem addr size value } :=
  write_eq (by simpa using within)

theorem free_eq {heap : Heap} {base size : Nat} (block : (base, size) ∈ heap.live) :
    heap.free base = some { heap with live := heap.live.eraseP (·.1 = base) } :=
  if_pos ⟨(base, size), block, rfl⟩

theorem within_mem {heap : Heap} {addr size : Nat} (within : heap.Within addr size) (mem : Mem) :
    Heap.Within ⟨mem, heap.live, heap.objects⟩ addr size := within

theorem within_live {heap : Heap} {base size addr size' : Nat} (block : (base, size) ∈ heap.live)
    (low : base ≤ addr) (high : addr + size' ≤ base + size) : heap.Within addr size' :=
  ⟨(base, size), List.mem_append_left _ block, low, high⟩

end Heap
end Memory
