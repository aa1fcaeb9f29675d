import CommonLib.FileDb.Format

/- The operations of the database, statement by statement. Every call reads the
   root into its first buffer before it looks at any buffer, so what an earlier
   call left in the handle's buffers is not part of the state. -/
namespace FileDb

/-! ### Creating, checking, opening and closing -/

def keySizeOk : KeyType → Nat → Bool
  | .stringKey, n | .bytesKey, n => decide (4 ≤ n ∧ n ≤ 128)
  | .int32Key, n => n = 4
  | .int64Key, n => n = 8
  | .other _, _ => false

/-- `db_create` on a path where no file exists and every write succeeds. -/
def dbCreate (keyType : KeyType) (maxKeySize : Nat) : Except Errno File :=
  if keySizeOk keyType maxKeySize = false then .error .EINVAL
  else
    let keyAlign := dbAlign (keyHead + maxKeySize) alignment
    if blockSize < nodeHead + keyAlign then .error .EINVAL
    else
      let M := (blockSize - nodeHead) / keyAlign - 1
      if M < 3 then .error .EINVAL
      else
        let db : DbT :=
          { keyType := keyType, keySize := maxKeySize, keyAlign := keyAlign, M := M,
            keyTotal := 0, keyUseBlock := 1, valueUseBlock := 0, free := 0, current := 0 }
        let root := { BtreeNode.zero db headSize with leaf := true, use := true }
        .ok { size := headSize + blockSize, head := db, disk := fun _ => root }

structure Totals where
  key : Nat := 0
  value : Nat := 0
  keyUse : Nat := 0
  valueUse : Nat := 0
  deriving DecidableEq, Repr

def Totals.add (t : Totals) (node : BtreeNode) : Totals :=
  if node.use then
    match node.type with
    | .key => { t with key := t.key + node.num, keyUse := t.keyUse + 1 }
    | .value => { t with value := t.value + node.num, valueUse := t.valueUse + 1 }
  else t

def offsets (size : Nat) : List Nat :=
  (List.range ((size - headSize) / blockSize)).map fun j => headSize + blockSize * j

def checkBlocks (s : Db) : List Nat → Totals → Option Totals
  | [], t => some t
  | i :: rest, t =>
    let node := nodeSeek s (.zero s.db 0) i
    if node.self ≠ i then none else checkBlocks s rest (t.add node)

def dbChecker (s : Db) : Int :=
  if s.file.size < headSize + blockSize ∨ (s.file.size - headSize) % blockSize ≠ 0 then -1
  else if keySizeOk s.db.keyType s.db.keySize = false then -1
  else if s.db.keyAlign ≠ dbAlign (keyHead + s.db.keySize) alignment then -1
  else if s.db.M ≠ (blockSize - nodeHead) / s.db.keyAlign - 1 then -1
  else match checkBlocks s (offsets s.file.size) {} with
    | none => -1
    | some t =>
      if t.key ≠ t.value ∨ t.key ≠ s.db.keyTotal ∨ t.keyUse ≠ s.db.keyUseBlock ∨
          t.valueUse ≠ s.db.valueUseBlock then -1
      else 0

def dbOpen (file : File) : Option Db :=
  let s : Db := { db := file.head, file := file }
  if dbChecker s = -1 then none else some s

def dbClose (s : Db) : File := s.file

/-! ### Searching -/

def keyBinarySearchLoop (d : DbT) (node : BtreeNode) (target : Bytes) :
    Nat → Int → Int → Result Int
  | 0, _, _ => .error .fuel
  | fuel + 1, low, high =>
    if low ≤ high then do
      let mid := low + (high - low) / 2
      let rc := keyCmp d.keyType target (← slotAt d node mid.toNat).key d.keySize
      if rc = 0 then return mid
      else if 0 < rc then keyBinarySearchLoop d node target fuel (mid + 1) high
      else keyBinarySearchLoop d node target fuel low (mid - 1)
    else return -low - 1

def keyBinarySearch (d : DbT) (node : BtreeNode) (target : Bytes) : Result Int :=
  keyBinarySearchLoop d node target (node.num + 1) 0 (((node.num : Int) - 1).bmod (2 ^ 32))

/-- The block a value offset falls in: `DB_HEAD_SIZE + ((offset - DB_HEAD_SIZE) & ~(DB_BLOCK_SIZE-1))`. -/
def blockOf (offset : Nat) : Nat := headSize + (offset - headSize) / blockSize * blockSize

def readSize (node : BtreeNode) (p : Nat) : Nat :=
  leNat valueHead ((List.range valueHead).map fun j => node.bytes (p + j))

def readValue (node : BtreeNode) (p : Nat) : Bytes :=
  (List.range (readSize node p)).map fun j => node.bytes (p + valueHead + j)

def dbSearchLoop (s : Db) (key : Bytes) (valueSize : Nat) :
    Nat → BtreeNode → Nat → Result (Except Errno Bytes)
  | 0, _, _ => .error .fuel
  | fuel + 1, node, offset => do
    let node := nodeSeek s node offset
    let i ← keyBinarySearch s.db node key
    if 0 ≤ i then
      let offset := (← slotAt s.db node i.toNat).value
      let node := nodeSeek s node (blockOf offset)
      let p := offset - node.self
      if blockSize < p + valueHead then .error .value
      else if valueSize < readSize node p then return .error .E2BIG
      else if blockSize < p + valueHead + readSize node p then .error .value
      else return .ok (readValue node p)
    else
      let offset := (← slotAt s.db node (-(i + 1)).toNat).child
      if offset = 0 then return .error .ENOMSG
      else dbSearchLoop s key valueSize fuel node offset

/-- `db_search`; `.ok v` is the return value `v.length` with `v` copied out. The loop
    may run once for every byte of the file before it counts as not terminating. -/
def dbSearch (s : Db) (key : Bytes) (valueSize : Nat) : Result (Except Errno Bytes) :=
  if s.db.keyType = .stringKey ∧ s.db.keySize ≤ strlen key then .ok (.error .EINVAL)
  else dbSearchLoop s key valueSize s.file.size (.zero s.db 0) headSize

/-! ### Splitting and merging -/

def btreeSplitChild (s : Db) (node : BtreeNode) (position : Nat) (subX subY : BtreeNode) :
    Result (Db × BtreeNode × BtreeNode × BtreeNode) := do
  let n := ceil s.db.M
  let subY ← keycpy s.db subY 0 subX (n + 1) ((subX.num : Int) - n - 1)
  let subY := { subY with num := subX.num - n - 1 }
  let subX := { subX with num := n }
  let node ← keycpy s.db node (position + 1) node position ((node.num : Int) - position)
  let up ← slotAt s.db subX n
  let node ← setSlot s.db node position fun _ => up
  let node ← setChild s.db node position subX.self
  let node ← setChild s.db node (position + 1) subY.self
  let node := { node with num := node.num + 1 }
  return (nodeFlush (nodeFlush (nodeFlush s node) subX) subY, node, subX, subY)

def btreeMerge (s : Db) (node : BtreeNode) (position : Nat) (subX subY : BtreeNode) :
    Result (Db × BtreeNode × BtreeNode × Bool) := do
  let up ← slotAt s.db node position
  let subX ← setKeyValue s.db subX subX.num up
  let subX ← keycpy s.db subX (subX.num + 1) subY 0 subY.num
  let subX := { subX with num := subX.num + (1 + subY.num) }
  let node ← keycpy s.db node position node (position + 1) ((node.num : Int) - position - 1)
  let node ← setChild s.db node position subX.self
  let node := { node with num := node.num - 1 }
  let s := nodeDestroy s subY
  if node.num ≠ 0 then
    return (nodeFlush (nodeFlush s subX) node, node, subX, false)
  else
    let node := { node with
      num := subX.num, leaf := subX.leaf, slot := subX.slot, bytes := subX.bytes }
    return (nodeFlush (nodeDestroy s subX) node, node, subX, true)

def borrowFromRight (s : Db) (node : BtreeNode) (i : Nat) (subX subY : BtreeNode) :
    Result (Db × BtreeNode × BtreeNode) := do
  let subX ← setKeyValue s.db subX subX.num (← slotAt s.db node i)
  let subX ← setChild s.db subX (subX.num + 1) (← slotAt s.db subY 0).child
  let subX := { subX with num := subX.num + 1 }
  let node ← setKeyValue s.db node i (← slotAt s.db subY 0)
  let subY ← keycpy s.db subY 0 subY 1 ((subY.num : Int) - 1)
  let subY := { subY with num := subY.num - 1 }
  return (nodeFlush (nodeFlush (nodeFlush s node) subX) subY, node, subX)

def borrowFromLeft (s : Db) (node : BtreeNode) (i : Nat) (subW subX : BtreeNode) :
    Result (Db × BtreeNode × BtreeNode) := do
  let subX ← keycpy s.db subX 1 subX 0 subX.num
  let subX ← setKeyValue s.db subX 0 (← slotAt s.db node (i - 1))
  let subX ← setChild s.db subX 0 (← slotAt s.db subW subW.num).child
  let subX := { subX with num := subX.num + 1 }
  let node ← setKeyValue s.db node (i - 1) (← slotAt s.db subW (subW.num - 1))
  let subW := { subW with num := subW.num - 1 }
  return (nodeFlush (nodeFlush (nodeFlush s node) subX) subW, node, subX)

/-! ### Inserting -/

/-- The room a value takes: `db_align(sizeof(btree_value) + value_size, DB_ALIGNMENT)`. -/
def valueRoom (valueSize : Nat) : Nat := dbAlign ((valueHead + valueSize) % sizeMod) alignment

/-- Find the `btree_value` block to use; the block is `none` where none could be created. -/
def chooseValueBlock (grow : Nat → Bool) (s : Db) (valueSize : Nat) : Db × Option BtreeNode :=
  let valnode := nodeSeek s (.zero s.db 0) s.db.current
  let s : Db :=
    if s.db.current ≠ 0 ∧ blockSize < (valnode.last + valueRoom valueSize) % sizeMod then
      headFlush { s with db := { s.db with current := 0 } }
    else s
  if s.db.current = 0 then
    match nodeCreate grow s false .value with
    | none => (s, none)
    | some (s, valnode) => (s, some valnode)
  else (s, some valnode)

/-- The size word, then the bytes; `last` is a 29-bit field. -/
def storeValue (valnode : BtreeNode) (value : Bytes) : Result BtreeNode :=
  let p := valnode.last
  if blockSize < p + valueHead + value.length then .error .value
  else .ok { valnode with
    bytes := fun q =>
      if p ≤ q ∧ q < p + valueHead then UInt8.ofNat (value.length / 256 ^ (q - p))
      else if p + valueHead ≤ q ∧ q < p + valueHead + value.length then
        value.getD (q - p - valueHead) 0
      else valnode.bytes q
    last := (valnode.last + valueRoom value.length) % sizeMod % 2 ^ 29
    num := valnode.num + 1 }

def insertLeaf (grow : Nat → Bool) (key value : Bytes) (s : Db) (node : BtreeNode) :
    Result (Db × Except Errno Int) := do
  let i ← keyBinarySearch s.db node key
  if 0 ≤ i then return (s, .ok 0)
  let i := (-(i + 1)).toNat
  match chooseValueBlock grow s value.length with
  | (s, none) => return (s, .error .ENOMEM)
  | (s, some valnode) =>
    let last := valnode.last
    let valnode ← storeValue valnode value
    let s := nodeFlush s valnode
    let node ← keycpy s.db node (i + 1) node i ((node.num : Int) - i)
    let node ← setSlot s.db node i fun k =>
      { k with
        key := keyWrite s.db.keyType s.db.keySize k.key key, value := valnode.self + last }
    let node := { node with num := node.num + 1 }
    let s := nodeFlush s node
    let s : Db := { s with db := { s.db with keyTotal := s.db.keyTotal + 1 } }
    return (headFlush s, .ok 1)

def insertLoop (grow : Nat → Bool) (key value : Bytes) :
    Nat → Db → BtreeNode → Result (Db × Except Errno Int)
  | 0, _, _ => .error .fuel
  | fuel + 1, s, node =>
    if node.leaf then insertLeaf grow key value s node
    else do
      let i ← keyBinarySearch s.db node key
      if 0 ≤ i then return (s, .ok 0)
      let i := (-(i + 1)).toNat
      let subX := nodeSeek s (.zero s.db 0) (← slotAt s.db node i).child
      if subX.num < s.db.M - 1 then insertLoop grow key value fuel s subX
      else match nodeCreate grow s subX.leaf .key with
        | none => return (s, .error .ENOMEM)
        | some (s, subY) => do
          let (s, node, subX, subY) ← btreeSplitChild s node i subX subY
          let rc := keyCmp s.db.keyType key (← slotAt s.db node i).key s.db.keySize
          if rc = 0 then return (s, .ok 0)
          else if 0 < rc then insertLoop grow key value fuel s subY
          else insertLoop grow key value fuel s subX

/-- `.ok 1`, `.ok 0` or an error number with the result -1. -/
def dbInsert (grow : Nat → Bool) (s : Db) (key value : Bytes) : Result (Db × Except Errno Int) :=
  if s.db.keyType = .stringKey ∧ s.db.keySize ≤ strlen key then .ok (s, .error .EINVAL)
  else if blockSize < (nodeHead + valueRoom value.length) % sizeMod then .ok (s, .error .E2BIG)
  else
    let fuel := s.file.size
    let node := nodeSeek s (.zero s.db 0) headSize
    if s.db.M - 1 ≤ node.num then
      match nodeCreate grow s node.leaf .key with
      | none => .ok (s, .error .ENOMEM)
      | some (s, subX) =>
        match nodeCreate grow s node.leaf .key with
        | none => .ok (s, .error .ENOMEM)
        | some (s, subY) => do
          let subX := { subX with num := node.num, slot := node.slot, bytes := node.bytes }
          let node ← setChild s.db { node with num := 0, leaf := false } 0 subX.self
          let (s, node, _, _) ← btreeSplitChild s node 0 subX subY
          insertLoop grow key value fuel s node
    else insertLoop grow key value fuel s node

/-! ### Deleting -/

inductive Flag where
  | zero | less | more
  deriving DecidableEq, Repr

structure Descent where
  node : BtreeNode
  flag : Flag
  nodeMatch : BtreeNode
  iMatch : Nat

def dropReference (s : Db) (node : BtreeNode) : Db :=
  let node := { node with num := node.num - 1 }
  if node.num = 0 then
    let s : Db :=
      if node.self = s.db.current then { s with db := { s.db with current := 0 } } else s
    nodeDestroy s node
  else nodeFlush s node

/-- The end of `db_delete`: release the value stored at `offset`. -/
def releaseValue (s : Db) (offset : Nat) : Db :=
  let s := dropReference s (nodeSeek s (.zero s.db 0) (blockOf offset))
  headFlush { s with db := { s.db with keyTotal := s.db.keyTotal - 1 } }

def deleteLeaf (key : Bytes) (s : Db) (d : Descent) : Result (Db × Except Errno Int) :=
  let node := d.node
  match d.flag with
  | .less => do
    let offset := (← slotAt s.db d.nodeMatch d.iMatch).value
    let nodeMatch ← setKeyValue s.db d.nodeMatch d.iMatch (← slotAt s.db node 0)
    let node ← keycpy s.db node 0 node 1 ((node.num : Int) - 1)
    let node := { node with num := node.num - 1 }
    return (releaseValue (nodeFlush (nodeFlush s nodeMatch) node) offset, .ok 1)
  | .more => do
    let offset := (← slotAt s.db d.nodeMatch d.iMatch).value
    let nodeMatch ← setKeyValue s.db d.nodeMatch d.iMatch (← slotAt s.db node (node.num - 1))
    let node := { node with num := node.num - 1 }
    return (releaseValue (nodeFlush (nodeFlush s nodeMatch) node) offset, .ok 1)
  | .zero => do
    let i ← keyBinarySearch s.db node key
    if i < 0 then return (s, .ok 0)
    let offset := (← slotAt s.db node i.toNat).value
    let node ← keycpy s.db node i.toNat node (i.toNat + 1) ((node.num : Int) - i.toNat - 1)
    let node := { node with num := node.num - 1 }
    return (releaseValue (nodeFlush s node) offset, .ok 1)

def deletePosition (key : Bytes) (s : Db) (d : Descent) : Result Int :=
  match d.flag with
  | .less => .ok (-0 - 1)
  | .more => .ok (-(d.node.num : Int) - 1)
  | .zero => keyBinarySearch s.db d.node key

def seekChild (s : Db) (node : BtreeNode) (i : Nat) : Result BtreeNode := do
  return nodeSeek s (.zero s.db 0) (← slotAt s.db node i).child

def seekChildIf (c : Bool) (s : Db) (node : BtreeNode) (i : Nat) : Result BtreeNode :=
  if c then seekChild s node i else .ok (.zero s.db 0)

def mergeInto (s : Db) (d : Descent) (i : Nat) (subX subY : BtreeNode) : Result (Db × Descent) := do
  let (s, node, subX, root) ← btreeMerge s d.node i subX subY
  return (s, { d with node := if root then node else subX })

/-- A match at slot `i` of an internal node: it is remembered, and the descent goes on
    to its predecessor or successor; or the children beside it are merged. -/
def enterMatch (s : Db) (d : Descent) (i : Nat) : Result (Db × Descent) := do
  let subX ← seekChild s d.node i
  if ceil s.db.M < subX.num then
    return (s, { node := subX, flag := .more, nodeMatch := d.node, iMatch := i })
  else
    let subY ← seekChild s d.node (i + 1)
    if ceil s.db.M < subY.num then
      return (s, { node := subY, flag := .less, nodeMatch := d.node, iMatch := i })
    else mergeInto s d i subX subY

/-- The child at `i` of a node without a match: with too few keys it borrows from a
    sibling or is merged with one before it is entered. -/
def enterChild (s : Db) (d : Descent) (i : Nat) : Result (Db × Descent) := do
  let node := d.node
  let subX ← seekChild s node i
  if ceil s.db.M < subX.num then return (s, { d with node := subX })
  else
    let subY ← seekChildIf (i + 1 ≤ node.num) s node (i + 1)
    let subW ← seekChildIf (1 ≤ i ∧ (node.num < i + 1 ∨ subY.num ≤ ceil s.db.M)) s node (i - 1)
    if i + 1 ≤ node.num ∧ ceil s.db.M < subY.num then
      let (s, _, subX) ← borrowFromRight s node i subX subY
      return (s, { d with node := subX })
    else if 1 ≤ i ∧ ceil s.db.M < subW.num then
      let (s, _, subX) ← borrowFromLeft s node i subW subX
      return (s, { d with node := subX })
    else if i + 1 ≤ node.num then mergeInto s d i subX subY
    else mergeInto s d (i - 1) subW subX

def deleteStep (key : Bytes) (s : Db) (d : Descent) : Result (Db × Descent) := do
  let i ← deletePosition key s d
  if 0 ≤ i then enterMatch s d i.toNat else enterChild s d (-(i + 1)).toNat

def deleteLoop (key : Bytes) : Nat → Db → Descent → Result (Db × Except Errno Int)
  | 0, _, _ => .error .fuel
  | fuel + 1, s, d =>
    if d.node.leaf then deleteLeaf key s d
    else do
      let (s, d) ← deleteStep key s d
      deleteLoop key fuel s d

def dbDelete (s : Db) (key : Bytes) : Result (Db × Except Errno Int) :=
  if s.db.keyType = .stringKey ∧ s.db.keySize ≤ strlen key then .ok (s, .error .EINVAL)
  else
    let node := nodeSeek s (.zero s.db 0) headSize
    deleteLoop key s.file.size s
      { node := node, flag := .zero, nodeMatch := .zero s.db 0, iMatch := 0 }

end FileDb
