import Mathlib.Data.Nat.Basic
import Mathlib.Data.Int.Basic
import Mathlib.Algebra.Group.Nat.Defs

/- The file format of the embedded database: a 4096-byte header followed by
   8192-byte blocks. Offsets, counts and sizes are Nat; where `size_t` wraps the
   arithmetic is written out modulo 2^64. -/
namespace FileDb

abbrev Bytes := List UInt8

def headSize : Nat := 4096
def blockSize : Nat := 8192
/-- `sizeof(btree_node)`, `sizeof(btree_key)` and `sizeof(btree_value)`. -/
def nodeHead : Nat := 32
def keyHead : Nat := 16
def valueHead : Nat := 8

def alignment : Nat := 16
def sizeMod : Nat := 2 ^ 64

/-- `db_align`: the addition wraps, the mask rounds down to a multiple of `a`. -/
def dbAlign (d a : Nat) : Nat := (d + (a - 1)) % sizeMod / a * a

def ceil (m : Nat) : Nat := (m - 1) / 2

inductive KeyType where
  | stringKey | bytesKey | int32Key | int64Key
  | other (code : Int)
  deriving DecidableEq, Repr

inductive NodeType where
  | key | value
  deriving DecidableEq, Repr

inductive Errno where
  | EINVAL | E2BIG | ENOMEM | ENOMSG | EEXIST
  deriving DecidableEq, Repr

structure BtreeKey where
  value : Nat
  child : Nat
  key : Bytes
  deriving DecidableEq, Repr

/-- A block. `slot` is its payload read as an array of `btree_key`, `bytes` the
    payload read as the value area (indexed from the start of the block); a block
    is only ever read the way it was written, as `type` says. -/
structure BtreeNode where
  self : Nat
  num : Nat
  free : Nat
  use : Bool
  type : NodeType
  leaf : Bool
  last : Nat
  slot : Nat → BtreeKey
  bytes : Nat → UInt8

/-- The header. `fd` is the file itself and `key_cmp` follows from `keyType`. -/
structure DbT where
  keyType : KeyType
  keySize : Nat
  keyAlign : Nat
  M : Nat
  keyTotal : Nat
  keyUseBlock : Nat
  valueUseBlock : Nat
  free : Nat
  current : Nat
  deriving DecidableEq, Repr

structure File where
  size : Nat
  head : DbT
  disk : Nat → BtreeNode

structure Db where
  db : DbT
  file : File

/-- What C leaves undefined: a slot or a byte outside the 8192-byte block. A loop
    that has not ended when its fuel is used up is kept apart from both. -/
inductive Fault where
  | slot | value | fuel
  deriving DecidableEq, Repr

abbrev Result := Except Fault

def BtreeNode.zero (d : DbT) (self : Nat) : BtreeNode where
  self := self
  num := 0
  free := 0
  use := false
  type := .key
  leaf := false
  last := 0
  slot := fun _ => ⟨0, 0, List.replicate (d.keyAlign - keyHead) 0⟩
  bytes := fun _ => 0

/-! ### Comparators -/

def strlen (s : Bytes) : Nat := (s.takeWhile (· ≠ 0)).length

def strncmp : Bytes → Bytes → Nat → Int
  | a :: as, b :: bs, n + 1 =>
    if a ≠ b then (a.toNat : Int) - b.toNat
    else if a = 0 then 0
    else strncmp as bs n
  | _, _, _ => 0

def memcmp : Bytes → Bytes → Nat → Int
  | a :: as, b :: bs, n + 1 =>
    if a ≠ b then (a.toNat : Int) - b.toNat else memcmp as bs n
  | _, _, _ => 0

def leNat : Nat → Bytes → Nat
  | 0, _ => 0
  | _, [] => 0
  | n + 1, b :: bs => b.toNat + 256 * leNat n bs

def int32At (b : Bytes) : Int := (leNat 4 b : Int).bmod (2 ^ 32)
def int64At (b : Bytes) : Int := (leNat 8 b : Int).bmod (2 ^ 64)

def cmpString (a b : Bytes) (n : Nat) : Int := strncmp a b n
def cmpBytes (a b : Bytes) (n : Nat) : Int := memcmp a b n
def cmpInt32 (a b : Bytes) : Int := (int32At a - int32At b).bmod (2 ^ 32)
/-- The subtraction wraps in 64 bits; returning it as `int` keeps the low 32. -/
def cmpInt64 (a b : Bytes) : Int := ((int64At a - int64At b).bmod (2 ^ 64)).bmod (2 ^ 32)

/-- The comparator `db_open` stores in the handle, called with `n = key_size`. -/
def keyCmp (t : KeyType) (a b : Bytes) (n : Nat) : Int :=
  match t with
  | .stringKey => cmpString a b n
  | .bytesKey => cmpBytes a b n
  | .int32Key => cmpInt32 a b
  | .int64Key => cmpInt64 a b
  | .other _ => 0

def keyWrite (t : KeyType) (n : Nat) (old key : Bytes) : Bytes :=
  match t with
  | .stringKey => key.take (strlen key + 1) ++ old.drop (strlen key + 1)
  | .bytesKey | .int32Key | .int64Key => key.take n ++ old.drop n
  | .other _ => old

/-! ### Seeking and flushing -/

/-- A read past the end of the file leaves the buffer as it is. -/
def nodeSeek (s : Db) (buf : BtreeNode) (offset : Nat) : BtreeNode :=
  if offset < s.file.size then s.file.disk offset else buf

def nodeFlush (s : Db) (node : BtreeNode) : Db :=
  { s with file := { s.file with
      size := max s.file.size (node.self + blockSize)
      disk := Function.update s.file.disk node.self node } }

def headFlush (s : Db) : Db := { s with file := { s.file with head := s.db } }

/-- The first half of `node_create`: the head of the free list, or a block appended to
    the file. `grow size` says whether a file of `size` bytes can be extended; where it
    cannot, the short write is truncated away and nothing has changed. -/
def takeBlock (grow : Nat → Bool) (s : Db) : Option (Db × Nat) :=
  if s.db.free ≠ 0 then
    let node := nodeSeek s (.zero s.db 0) s.db.free
    some ({ s with db := { s.db with free := node.free } }, node.self)
  else if grow s.file.size then
    let node := BtreeNode.zero s.db s.file.size
    some (nodeFlush s node, node.self)
  else none

/-- `none` is the result -1. -/
def nodeCreate (grow : Nat → Bool) (s : Db) (leaf : Bool) (type : NodeType) :
    Option (Db × BtreeNode) :=
  (takeBlock grow s).map fun (s, self) =>
    let s : Db := match type with
      | .key => { s with db := { s.db with keyUseBlock := s.db.keyUseBlock + 1 } }
      | .value => { s with db := { s.db with
          valueUseBlock := s.db.valueUseBlock + 1, current := self } }
    let s := headFlush s
    let node := { BtreeNode.zero s.db self with
      leaf := leaf, use := true, type := type, last := nodeHead }
    (nodeFlush s node, node)

def nodeDestroy (s : Db) (node : BtreeNode) : Db :=
  let node := { node with free := s.db.free, num := 0, use := false }
  let s : Db := { s with db := { s.db with free := node.self } }
  let s : Db := match node.type with
    | .key => { s with db := { s.db with keyUseBlock := s.db.keyUseBlock - 1 } }
    | .value => { s with db := { s.db with valueUseBlock := s.db.valueUseBlock - 1 } }
  nodeFlush (headFlush s) node

/-! ### Slots -/

def Fits (d : DbT) (i : Nat) : Prop := nodeHead + d.keyAlign * (i + 1) ≤ blockSize

instance (d : DbT) (i : Nat) : Decidable (Fits d i) :=
  inferInstanceAs (Decidable (_ ≤ _))

def slotAt (d : DbT) (node : BtreeNode) (i : Nat) : Result BtreeKey :=
  if Fits d i then .ok (node.slot i) else .error .slot

def setSlot (d : DbT) (node : BtreeNode) (i : Nat) (f : BtreeKey → BtreeKey) : Result BtreeNode :=
  if Fits d i then .ok { node with slot := Function.update node.slot i (f (node.slot i)) }
  else .error .slot

def setChild (d : DbT) (node : BtreeNode) (i child : Nat) : Result BtreeNode :=
  setSlot d node i fun k => { k with child := child }

def setKeyValue (d : DbT) (node : BtreeNode) (i : Nat) (from_ : BtreeKey) : Result BtreeNode :=
  setSlot d node i fun k => { k with key := from_.key, value := from_.value }

/-- The slots of `dst` once `count` slots of `src` from `j` on have been moved to `i`. -/
def slotMove (dst : Nat → BtreeKey) (i : Nat) (src : Nat → BtreeKey) (j count : Nat) :
    Nat → BtreeKey :=
  fun k => if i ≤ k ∧ k < i + count then src (k - i + j) else dst k

/-- `keycpy(db, ptr(dst,i), ptr(src,j), n)`: a memmove of `n + 1` slots. A count below
    zero is a huge `size_t`. -/
def keycpy (d : DbT) (dst : BtreeNode) (i : Nat) (src : BtreeNode) (j : Nat) (n : Int) :
    Result BtreeNode :=
  let count := (n + 1).toNat
  if n < -1 then .error .slot
  else if count = 0 ∨ Fits d (i + count - 1) ∧ Fits d (j + count - 1) then
    .ok { dst with slot := slotMove dst.slot i src.slot j count }
  else .error .slot

end FileDb
