import CommonLib.FileDb.Database
import CommonLib.Iteration.Loop
import Mathlib.Data.Finite.Prod

/- The file byte by byte, as `db_open` and `db_search` meet a damaged one: offsets of any value,
   reads that the end of the file cuts short, differences that wrap. A read of the handle outside of
   what `db_open` allocated is undefined. -/
namespace FileDb

structure Image where
  size : Nat
  byte : Nat → UInt8
  bound : size < 2 ^ 63

abbrev Buffer := Fin blockSize → UInt8

def Buffer.byte (b : Buffer) (i : Nat) : UInt8 := if h : i < blockSize then b ⟨i, h⟩ else 0
def Buffer.bytes (b : Buffer) (p n : Nat) : Bytes := (List.range n).map fun j => b.byte (p + j)
def Buffer.word (b : Buffer) (p n : Nat) : Nat := leNat n (b.bytes p n)

def readNode (d : DbT) (b : Buffer) : BtreeNode where
  self := b.word 0 8
  num := b.word 8 8
  free := b.word 16 8
  use := b.word 24 4 % 2 = 1
  type := if b.word 24 4 / 2 % 2 = 0 then .key else .value
  leaf := b.word 24 4 / 4 % 2 = 1
  last := b.word 24 4 / 8
  slot i :=
    let p := nodeHead + d.keyAlign * i
    ⟨b.word p 8, b.word (p + 8) 8, b.bytes (p + keyHead) (d.keyAlign - keyHead)⟩
  bytes := b.byte

def keyTypeOf : Int → KeyType
  | 0 => .stringKey
  | 1 => .bytesKey
  | 2 => .int32Key
  | 3 => .int64Key
  | code => .other code

namespace Image

def word (f : Image) (p n : Nat) : Nat := leNat n ((List.range n).map fun j => f.byte (p + j))

def head (f : Image) : DbT where
  keyType := keyTypeOf ((f.word 4 4 : Int).bmod (2 ^ 32))
  keySize := f.word 8 8
  keyAlign := f.word 16 8
  M := f.word 24 8
  keyTotal := f.word 32 8
  keyUseBlock := f.word 40 8
  valueUseBlock := f.word 48 8
  free := f.word 56 8
  current := f.word 64 8

/-- `pread` of a block: what lies past the end of the file stays as it was. A negative
    offset, here 2^63 or more, is past every end. -/
def nodeSeek (f : Image) (b : Buffer) (offset : Nat) : Buffer := fun j =>
  if offset + j < f.size then f.byte (offset + j) else b j

def view (f : Image) (d : DbT) : Db where
  db := d
  file := { size := f.size, head := d, disk := fun x => readNode d (f.nodeSeek (fun _ => 0) x) }

/-- The loop of `db_checker` reads whole blocks only; the sums are of type `size_t`. -/
def dbChecker (f : Image) (d : DbT) : Int :=
  if f.size < headSize + blockSize ∨ (f.size - headSize) % blockSize ≠ 0 then -1
  else if keySizeOk d.keyType d.keySize = false then -1
  else if d.keyAlign ≠ dbAlign (keyHead + d.keySize) alignment then -1
  else if d.M ≠ (blockSize - nodeHead) / d.keyAlign - 1 then -1
  else match checkBlocks (f.view d) (offsets f.size) {} with
    | none => -1
    | some t =>
      if t.key % sizeMod ≠ t.value % sizeMod ∨ t.key % sizeMod ≠ d.keyTotal ∨
          t.keyUse ≠ d.keyUseBlock ∨ t.valueUse ≠ d.valueUseBlock then -1
      else 0

def dbOpen (f : Image) : Option DbT := if f.dbChecker f.head = -1 then none else some f.head

def recordBlock (offset : Nat) : Nat :=
  (headSize + (offset + (sizeMod - headSize)) % sizeMod / blockSize * blockSize) % sizeMod

/-! ### Searching in the memory of the handle -/

/-- What `db_open` allocates: the header and five blocks, of which a search uses the first. -/
def handleSize : Nat := headSize + 5 * blockSize

/-- The memory of the handle with a block in it; the rest of it may hold anything. -/
def memory (rest : Nat → UInt8) (b : Buffer) (p : Nat) : UInt8 :=
  if headSize ≤ p ∧ p < headSize + blockSize then b.byte (p - headSize) else rest p

def bytesAt (m : Nat → UInt8) (p n : Nat) : Bytes := (List.range n).map fun j => m (p + j)

def readWord (m : Nat → UInt8) (p : Nat) : Result Nat :=
  if p + 8 ≤ handleSize then .ok (leNat 8 (bytesAt m p 8)) else .error .slot

def slotPlace (d : DbT) (i : Nat) : Nat := headSize + nodeHead + d.keyAlign * i

def strncmpReads : Bytes → Bytes → Nat → Nat
  | a :: as, b :: bs, n + 1 => if a ≠ b ∨ a = 0 then 1 else strncmpReads as bs n + 1
  | _, _, _ => 0

def keyReads (t : KeyType) (a b : Bytes) (n : Nat) : Nat :=
  match t with
  | .stringKey => strncmpReads a b n
  | .bytesKey => n
  | .int32Key => 4
  | .int64Key => 8
  | .other _ => 0

def keyBinarySearchLoop (d : DbT) (m : Nat → UInt8) (target : Bytes) : Nat → Int → Int → Result Int
  | 0, _, _ => .error .fuel
  | fuel + 1, low, high =>
    if low ≤ high then
      let mid := low + (high - low) / 2
      let p := slotPlace d mid.toNat + keyHead
      let key := bytesAt m p (d.keyAlign - keyHead)
      if handleSize < p + keyReads d.keyType target key d.keySize then .error .slot
      else
        let rc := keyCmp d.keyType target key d.keySize
        if rc = 0 then .ok mid
        else if 0 < rc then keyBinarySearchLoop d m target fuel (mid + 1) high
        else keyBinarySearchLoop d m target fuel low (mid - 1)
    else .ok (-low - 1)

def keyBinarySearch (d : DbT) (m : Nat → UInt8) (num : Nat) (target : Bytes) : Result Int :=
  keyBinarySearchLoop d m target (num + 1) 0 (((num : Int) - 1).bmod (2 ^ 32))

def recordPlace (b : Buffer) (offset : Nat) : Int :=
  headSize + ((offset : Int) - b.word 0 8).bmod sizeMod

def copyRecord (m : Nat → UInt8) (p : Int) (valueSize : Nat) : Result (Except Errno Bytes) :=
  if p < 0 ∨ (handleSize : Int) < p + valueHead then .error .value
  else
    let size := leNat valueHead (bytesAt m p.toNat valueHead)
    if valueSize < size then .ok (.error .E2BIG)
    else if handleSize < p.toNat + valueHead + size then .error .value
    else .ok (.ok (bytesAt m (p.toNat + valueHead) size))

def seekRecord (f : Image) (rest : Nat → UInt8) (valueSize : Nat) (b : Buffer) (offset : Nat) :
    Result (Except Errno Bytes) :=
  let b := f.nodeSeek b (recordBlock offset)
  copyRecord (memory rest b) (recordPlace b offset) valueSize

def searchRound (f : Image) (d : DbT) (rest : Nat → UInt8) (key : Bytes) (valueSize : Nat)
    (b : Buffer) : Result (Except Errno Bytes ⊕ Buffer) :=
  let m := memory rest b
  (keyBinarySearch d m (b.word 8 8) key).bind fun i =>
    if 0 ≤ i then
      (readWord m (slotPlace d i.toNat)).bind fun offset =>
        (f.seekRecord rest valueSize b offset).map .inl
    else
      (readWord m (slotPlace d (-(i + 1)).toNat + 8)).map fun offset =>
        if offset = 0 then .inl (.error .ENOMSG) else .inr (f.nodeSeek b offset)

def root (f : Image) : Buffer := f.nodeSeek (fun _ => 0) headSize

/-- `db_search` for at most so many rounds; `none` where its loop goes on. -/
def dbSearch (f : Image) (d : DbT) (rest : Nat → UInt8) (key : Bytes) (valueSize rounds : Nat) :
    Option (Result (Except Errno Bytes)) :=
  if d.keyType = .stringKey ∧ d.keySize ≤ strlen key then some (.ok (.error .EINVAL))
  else Iteration.loop (f.searchRound d rest key valueSize) rounds f.root

end Image

end FileDb
