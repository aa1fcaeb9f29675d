import CommonLib.FileDb.Rebalance
import Mathlib.Data.List.Perm.Basic
import Mathlib.Data.List.Count
import Mathlib.Data.List.Nodup

/- The three roles of a block and how blocks change role: `K` holds the key blocks,
   `V` the value blocks and `F` the free list, and together they are the file. -/
namespace FileDb
open OrderedTree

structure Shape where
  keyType : KeyType
  keySize : Nat
  valid : keySizeOk keyType keySize = true

def Shape.keyAlign (p : Shape) : Nat := dbAlign (keyHead + p.keySize) alignment
def Shape.M (p : Shape) : Nat := (blockSize - nodeHead) / p.keyAlign - 1

theorem Shape.size_bounds (p : Shape) : 4 ≤ p.keySize ∧ p.keySize ≤ 128 := by
  obtain ⟨t, n, valid⟩ := p
  cases t with
  | stringKey => simpa [keySizeOk] using valid
  | bytesKey => simpa [keySizeOk] using valid
  | int32Key => simp [keySizeOk] at valid; simp [valid]
  | int64Key => simp [keySizeOk] at valid; simp [valid]
  | other code => simp [keySizeOk] at valid

theorem Shape.align_bounds (p : Shape) : 32 ≤ p.keyAlign ∧ p.keyAlign ≤ 144 := by
  have := p.size_bounds
  simp only [Shape.keyAlign, dbAlign, keyHead, alignment, sizeMod]
  omega

theorem Shape.order (p : Shape) : 5 ≤ p.M ∧ p.M < 2 ^ 31 := by
  obtain ⟨low, high⟩ := p.align_bounds
  have most : (blockSize - nodeHead) / 144 ≤ (blockSize - nodeHead) / p.keyAlign :=
    Nat.div_le_div_left high (by omega)
  have least : (blockSize - nodeHead) / p.keyAlign ≤ blockSize - nodeHead := Nat.div_le_self _ _
  simp only [blockSize, nodeHead] at most least
  simp only [Shape.M, blockSize, nodeHead]
  omega

theorem Shape.fits (p : Shape) : nodeHead + p.keyAlign * (p.M + 1) ≤ blockSize := by
  have order := p.order.1
  have := Nat.mul_div_le (blockSize - nodeHead) p.keyAlign
  have whole : p.M + 1 = (blockSize - nodeHead) / p.keyAlign := by
    simp only [Shape.M] at order ⊢
    omega
  rw [whole]
  simp only [blockSize, nodeHead] at this ⊢
  omega

structure DbT.Has (d : DbT) (p : Shape) : Prop where
  keyType : d.keyType = p.keyType
  keySize : d.keySize = p.keySize
  keyAlign : d.keyAlign = p.keyAlign
  M : d.M = p.M

theorem DbT.Has.fits_slot {d : DbT} {p : Shape} (h : d.Has p) {i : Nat} (hi : i ≤ p.M) :
    Fits d i := by
  have : Fits d p.M := by
    unfold Fits
    rw [h.keyAlign]
    exact p.fits
  exact this.mono hi

theorem DbT.Has.write {d : DbT} {p : Shape} (h : d.Has p) :
    keyWrite d.keyType d.keySize = keyWrite p.keyType p.keySize := by
  rw [h.keyType, h.keySize]

theorem DbT.Has.compare {d : DbT} {p : Shape} (h : d.Has p) (a b : Bytes) :
    keyCmp d.keyType a b d.keySize = keyCmp p.keyType a b p.keySize := by
  rw [h.keyType, h.keySize]

/-! ### The offsets of the blocks -/

theorem mem_offsets {size x : Nat} :
    x ∈ offsets size ↔ ∃ j < (size - headSize) / blockSize, headSize + blockSize * j = x := by
  simp [offsets]

theorem offsets_nodup (size : Nat) : (offsets size).Nodup := by
  refine List.Nodup.map ?_ List.nodup_range
  intro i j h
  simp only [headSize, blockSize] at h
  omega

theorem offsets_bounds {size x : Nat} (h : x ∈ offsets size) :
    headSize ≤ x ∧ x + blockSize ≤ size := by
  obtain ⟨j, hj, rfl⟩ := mem_offsets.mp h
  simp only [headSize, blockSize] at hj ⊢
  omega

theorem offsets_grow {size : Nat} (h : ∃ n, size = headSize + blockSize * n) :
    offsets (size + blockSize) = offsets size ++ [size] := by
  obtain ⟨n, rfl⟩ := h
  have one : (headSize + blockSize * n + blockSize - headSize) / blockSize = n + 1 := by
    simp only [headSize, blockSize]; omega
  have two : (headSize + blockSize * n - headSize) / blockSize = n := by
    simp only [headSize, blockSize]; omega
  simp only [offsets, one, two, List.range_succ, List.map_append]
  rfl

/-! ### The free list -/

def FreeChain (disk : Nat → BtreeNode) : Nat → List Nat → Prop
  | off, [] => off = 0
  | off, f :: fs => off = f ∧ FreeChain disk (disk f).free fs

theorem FreeChain.congr {disk disk' : Nat → BtreeNode} {off : Nat} {F : List Nat}
    (h : FreeChain disk off F) (same : ∀ f ∈ F, disk' f = disk f) : FreeChain disk' off F := by
  induction F generalizing off with
  | nil => exact h
  | cons f fs ih =>
    refine ⟨h.1, ?_⟩
    rw [same f List.mem_cons_self]
    exact ih h.2 fun g hg => same g (List.mem_cons_of_mem _ hg)

/-! ### The partition -/

structure Part (p : Shape) (s : Db) (K V F : List Nat) : Prop where
  has : s.db.Has p
  size : ∃ n, s.file.size = headSize + blockSize * n
  blocks : (K ++ V ++ F).Perm (offsets s.file.size)
  self : ∀ x ∈ offsets s.file.size, (s.file.disk x).self = x
  keyBlock : ∀ k ∈ K, (s.file.disk k).use = true ∧ (s.file.disk k).type = .key
  valueBlock : ∀ v ∈ V, (s.file.disk v).use = true ∧ (s.file.disk v).type = .value
  freeBlock : ∀ f ∈ F, (s.file.disk f).use = false
  chain : FreeChain s.file.disk s.db.free F
  head : s.file.head = s.db
  keyCount : s.db.keyUseBlock = K.length
  valueCount : s.db.valueUseBlock = V.length
  current : s.db.current = 0 ∨ s.db.current ∈ V

section Part
variable {p : Shape} {s : Db} {K V F : List Nat}

theorem Part.mem (h : Part p s K V F) {x : Nat} :
    x ∈ offsets s.file.size ↔ x ∈ K ∨ x ∈ V ∨ x ∈ F := by
  rw [← h.blocks.mem_iff]
  simp

theorem Part.nodup (h : Part p s K V F) : (K ++ V ++ F).Nodup :=
  h.blocks.nodup_iff.mpr (offsets_nodup _)

theorem Part.key_mem (h : Part p s K V F) {k : Nat} (hk : k ∈ K) : k ∈ offsets s.file.size :=
  h.mem.mpr (.inl hk)

theorem Part.value_mem (h : Part p s K V F) {v : Nat} (hv : v ∈ V) : v ∈ offsets s.file.size :=
  h.mem.mpr (.inr (.inl hv))

theorem Part.disjoint (h : Part p s K V F) :
    (∀ x ∈ K, x ∉ V ∧ x ∉ F) ∧ ∀ x ∈ V, x ∉ F := by
  have nd := h.nodup
  rw [List.append_assoc, List.nodup_append, List.nodup_append] at nd
  obtain ⟨_, ⟨_, _, vf⟩, kvf⟩ := nd
  refine ⟨fun x hx => ⟨fun hv => ?_, fun hf => ?_⟩, fun x hv hf => vf x hv x hf rfl⟩
  · exact kvf x hx x (List.mem_append_left _ hv) rfl
  · exact kvf x hx x (List.mem_append_right _ hf) rfl

theorem Part.key_nodup (h : Part p s K V F) : K.Nodup :=
  (List.nodup_append.mp (List.nodup_append.mp h.nodup).1).1

theorem Part.value_nodup (h : Part p s K V F) : V.Nodup :=
  (List.nodup_append.mp (List.nodup_append.mp h.nodup).1).2.1

structure Apart (a x y : Nat) (rest : List Nat) : Prop where
  ax : a ≠ x
  ay : a ≠ y
  xy : x ≠ y
  rest : ∀ z ∈ rest, z ≠ a ∧ z ≠ x ∧ z ≠ y

theorem Part.apart {a x y : Nat} {rest R : List Nat}
    (part : Part p s (a :: ([x, y] ++ rest) ++ R) V F) : Apart a x y (rest ++ R ++ V) := by
  have nd := part.key_nodup
  simp only [List.cons_append, List.nil_append, List.nodup_cons, List.mem_cons, List.mem_append,
    not_or] at nd
  obtain ⟨⟨ax, ay, aRest, aR⟩, ⟨xy, xRest, xR⟩, ⟨yRest, yR⟩, _⟩ := nd
  refine ⟨ax, ay, xy, fun z hz => ?_⟩
  simp only [List.mem_append] at hz
  refine ⟨fun e => ?_, fun e => ?_, fun e => ?_⟩ <;> subst e
  · rcases hz with (hz | hz) | hz
    · exact aRest hz
    · exact aR hz
    · exact (part.disjoint.1 z (by simp)).1 hz
  · rcases hz with (hz | hz) | hz
    · exact xRest hz
    · exact xR hz
    · exact (part.disjoint.1 z (by simp)).1 hz
  · rcases hz with (hz | hz) | hz
    · exact yRest hz
    · exact yR hz
    · exact (part.disjoint.1 z (by simp)).1 hz

theorem seek_ok {x : Nat} (hx : x ∈ offsets s.file.size) (buf : BtreeNode) :
    nodeSeek s buf x = s.file.disk x := by
  have := (offsets_bounds hx).2
  simp only [blockSize] at this
  exact if_pos (by omega)

theorem flush_size {node : BtreeNode} (h : node.self ∈ offsets s.file.size) :
    (nodeFlush s node).file.size = s.file.size := by
  have := (offsets_bounds h).2
  simp only [nodeFlush]
  omega

@[simp] theorem flush_disk (s : Db) (node : BtreeNode) :
    (nodeFlush s node).file.disk = Function.update s.file.disk node.self node := rfl

@[simp] theorem flush_db (s : Db) (node : BtreeNode) : (nodeFlush s node).db = s.db := rfl

@[simp] theorem flush_head (s : Db) (node : BtreeNode) :
  (nodeFlush s node).file.head = s.file.head := rfl

theorem Part.permK (h : Part p s K V F) {K' : List Nat} (perm : K.Perm K') : Part p s K' V F where
  has := h.has
  size := h.size
  blocks := (((perm.symm.append_right V).append_right F)).trans h.blocks
  self := h.self
  keyBlock k hk := h.keyBlock k (perm.mem_iff.mpr hk)
  valueBlock := h.valueBlock
  freeBlock := h.freeBlock
  chain := h.chain
  head := h.head
  keyCount := h.keyCount.trans perm.length_eq
  valueCount := h.valueCount
  current := h.current

structure KeyNode (node : BtreeNode) (x : Nat) : Prop where
  self : node.self = x
  use : node.use = true
  type : node.type = .key

theorem Part.keyNode (h : Part p s K V F) {k : Nat} (hk : k ∈ K) : KeyNode (s.file.disk k) k :=
  ⟨h.self k (h.key_mem hk), (h.keyBlock k hk).1, (h.keyBlock k hk).2⟩

/-- A block in use may be rewritten in place as long as it keeps its role. -/
theorem Part.flush (h : Part p s K V F) {node : BtreeNode} (mem : node.self ∈ K ∨ node.self ∈ V)
    (use : node.use = true) (type : node.type = (s.file.disk node.self).type) :
    Part p (nodeFlush s node) K V F := by
  have inFile : node.self ∈ offsets s.file.size := h.mem.mpr (by tauto)
  have size := flush_size inFile
  have notFree : node.self ∉ F := by
    rcases mem with hk | hv
    · exact (h.disjoint.1 _ hk).2
    · exact h.disjoint.2 _ hv
  refine
    { has := h.has, size := size ▸ h.size, blocks := size ▸ h.blocks, self := ?_, keyBlock := ?_,
      valueBlock := ?_, freeBlock := ?_, chain := h.chain.congr ?_, head := h.head,
      keyCount := h.keyCount, valueCount := h.valueCount, current := h.current }
  · rw [size]
    intro x hx
    by_cases same : x = node.self
    · subst same; simp
    · simp [same, h.self x hx]
  · intro k hk
    by_cases same : k = node.self
    · subst same; simpa [use, type] using (h.keyBlock _ hk).2
    · simpa [same] using h.keyBlock k hk
  · intro v hv
    by_cases same : v = node.self
    · subst same; simpa [use, type] using (h.valueBlock _ hv).2
    · simpa [same] using h.valueBlock v hv
  · intro f hf
    have ne : f ≠ node.self := fun e => notFree (e ▸ hf)
    simpa [ne] using h.freeBlock f hf
  · intro f hf
    have ne : f ≠ node.self := fun e => notFree (e ▸ hf)
    simp [ne]

theorem Part.flush_key (h : Part p s K V F) {node : BtreeNode} {x : Nat} (key : KeyNode node x)
    (mem : x ∈ K) : Part p (nodeFlush s node) K V F := by
  obtain ⟨rfl, use, type⟩ := key
  exact h.flush (.inl mem) use (type.trans (h.keyBlock _ mem).2.symm)

theorem Part.flush_value (h : Part p s K V F) {node : BtreeNode} (mem : node.self ∈ V)
    (use : node.use = true) (type : node.type = .value) : Part p (nodeFlush s node) K V F :=
  h.flush (.inr mem) use (type.trans (h.valueBlock _ mem).2.symm)

structure Wrote (s s' : Db) (a x y : Nat) (A X Y : BtreeNode) : Prop where
  atA : s'.file.disk a = A
  atX : s'.file.disk x = X
  atY : s'.file.disk y = Y
  away : ∀ z, z ≠ a → z ≠ x → z ≠ y → s'.file.disk z = s.file.disk z
  db : s'.db = s.db

theorem Part.flush_three (h : Part p s K V F) {a x y : Nat} {A X Y : BtreeNode} (ka : KeyNode A a)
    (kx : KeyNode X x) (ky : KeyNode Y y) (ma : a ∈ K) (mx : x ∈ K) (my : y ∈ K) (ax : a ≠ x)
    (ay : a ≠ y) (xy : x ≠ y) :
    Part p (nodeFlush (nodeFlush (nodeFlush s A) X) Y) K V F ∧
      Wrote s (nodeFlush (nodeFlush (nodeFlush s A) X) Y) a x y A X Y := by
  have disk : (nodeFlush (nodeFlush (nodeFlush s A) X) Y).file.disk =
      Function.update (Function.update (Function.update s.file.disk a A) x X) y Y := by
    rw [flush_disk, flush_disk, flush_disk, ka.self, kx.self, ky.self]
  refine ⟨?_, ⟨?_, ?_, ?_, fun z za zx zy => ?_, rfl⟩⟩
  · exact ((h.flush_key ka ma).flush_key kx mx).flush_key ky my
  · rw [disk, Function.update_of_ne ay, Function.update_of_ne ax, Function.update_self]
  · rw [disk, Function.update_of_ne xy, Function.update_self]
  · rw [disk, Function.update_self]
  · rw [disk, Function.update_of_ne zy, Function.update_of_ne zx, Function.update_of_ne za]

/-! ### Creating and destroying -/

def freshNode (d : DbT) (x : Nat) (leaf : Bool) (type : NodeType) : BtreeNode :=
  { BtreeNode.zero d x with leaf := leaf, use := true, type := type, last := nodeHead }

structure Taken (s s' : Db) (x : Nat) (K V F : List Nat) : Prop where
  size : ∃ n, s'.file.size = headSize + blockSize * n
  blocks : (x :: (K ++ V ++ F)).Perm (offsets s'.file.size)
  other : ∀ y, y ≠ x → s'.file.disk y = s.file.disk y
  chain : FreeChain s.file.disk s'.db.free F
  db : s'.db = { s.db with free := s'.db.free }

theorem Part.take_free (h : Part p s K V F) {x : Nat} {fs : List Nat} (hF : F = x :: fs)
    (grow : Nat → Bool) : ∃ s', takeBlock grow s = some (s', x) ∧ Taken s s' x K V fs ∧
      s'.file.size = s.file.size := by
  subst hF
  have chain := h.chain
  have inFile : x ∈ offsets s.file.size := h.mem.mpr (by simp)
  have pos : s.db.free ≠ 0 := by
    have := (offsets_bounds inFile).1
    simp only [headSize] at this
    rw [chain.1]; omega
  refine ⟨{ s with db := { s.db with free := (s.file.disk x).free } }, ?_, ?_, rfl⟩
  · simp only [takeBlock, pos, ne_eq, not_false_eq_true, ↓reduceIte]
    rw [chain.1, seek_ok inFile, h.self x inFile]
  · refine ⟨h.size, ?_, fun _ _ => rfl, chain.2, rfl⟩
    exact List.perm_middle.symm.trans h.blocks

theorem Part.take_append (h : Part p s K V F) (hF : F = []) {grow : Nat → Bool}
    (can : grow s.file.size = true) : ∃ s', takeBlock grow s = some (s', s.file.size) ∧
      Taken s s' s.file.size K V [] ∧ s'.file.size = s.file.size + blockSize := by
  subst hF
  have zero : s.db.free = 0 := h.chain
  have size : (nodeFlush s (.zero s.db s.file.size)).file.size = s.file.size + blockSize := by
    simp only [nodeFlush, BtreeNode.zero]; omega
  refine ⟨nodeFlush s (.zero s.db s.file.size), ?_, ?_, size⟩
  · simp [takeBlock, zero, can, BtreeNode.zero]
  · refine ⟨?_, ?_, ?_, zero, rfl⟩
    · obtain ⟨n, hn⟩ := h.size
      refine ⟨n + 1, ?_⟩
      rw [size, hn, Nat.mul_add, Nat.mul_one, Nat.add_assoc]
    · rw [size, offsets_grow h.size]
      exact (h.blocks.cons _).trans (List.perm_append_singleton _ _).symm
    · intro y hy
      exact Function.update_of_ne hy _ _

theorem Part.take_none (h : Part p s K V F) (hF : F = []) {grow : Nat → Bool}
    (full : grow s.file.size = false) : takeBlock grow s = none := by
  subst hF
  have zero : s.db.free = 0 := h.chain
  simp [takeBlock, zero, full]

theorem Taken.nodup {s' : Db} {x : Nat} (t : Taken s s' x K V F) :
    x ∉ K ∧ x ∉ V ∧ x ∉ F := by
  have nd := t.blocks.nodup_iff.mpr (offsets_nodup _)
  have := (List.nodup_cons.mp nd).1
  simpa [not_or, and_assoc] using this

/-- The second half of `node_create`, once a block has been taken. -/
theorem Part.create {F' : List Nat} (h : Part p s K V F') {s1 : Db} {x : Nat}
    (t : Taken s s1 x K V F) (sub : ∀ f ∈ F, f ∈ F') {s' : Db} (leaf : Bool) (type : NodeType)
    (size : s'.file.size = max s1.file.size (x + blockSize))
    (disk : s'.file.disk = Function.update s1.file.disk x (freshNode s.db x leaf type))
    (head : s'.file.head = s'.db) (has : s'.db.Has p) (free : s'.db.free = s1.db.free)
    {K' V' : List Nat} (roles : type = .key ∧ K' = x :: K ∧ V' = V ∨ type = .value ∧ K' = K ∧
    V' = x :: V)
    (keyCount : s'.db.keyUseBlock = K'.length) (valueCount : s'.db.valueUseBlock = V'.length)
    (current : s'.db.current = 0 ∨ s'.db.current ∈ V') : Part p s' K' V' F := by
  obtain ⟨xK, xV, xF⟩ := t.nodup
  have inFile : x ∈ offsets s1.file.size := t.blocks.mem_iff.mp List.mem_cons_self
  have size1 : s'.file.size = s1.file.size := by
    have := (offsets_bounds inFile).2
    omega
  have perm : (K' ++ V' ++ F).Perm (x :: (K ++ V ++ F)) := by
    rcases roles with ⟨_, rfl, rfl⟩ | ⟨_, rfl, rfl⟩
    · exact List.Perm.refl _
    · rw [List.append_assoc, List.append_assoc]
      exact List.perm_middle
  have old : ∀ y, y ≠ x → s'.file.disk y = s.file.disk y := fun y hy => by
    rw [disk, Function.update_of_ne hy, t.other y hy]
  have new : s'.file.disk x = freshNode s.db x leaf type := by rw [disk, Function.update_self]
  refine
    { has := has, size := size1 ▸ t.size, blocks := perm.trans (size1 ▸ t.blocks), self := ?_,
      keyBlock := ?_, valueBlock := ?_, freeBlock := ?_, chain := ?_, head := head,
      keyCount := keyCount, valueCount := valueCount, current := current }
  · rw [size1]
    intro y hy
    by_cases same : y = x
    · rw [same, new]; rfl
    · rw [old y same]
      have := t.blocks.mem_iff.mpr hy
      simp only [List.mem_cons, same, false_or, List.mem_append] at this
      refine h.self y (h.mem.mpr ?_)
      rcases this with (hk | hv) | hf
      · exact .inl hk
      · exact .inr (.inl hv)
      · exact .inr (.inr (sub y hf))
  · intro k hk
    by_cases same : k = x
    · subst same
      rcases roles with ⟨ht, _, _⟩ | ⟨_, rfl, _⟩
      · rw [new]; exact ⟨rfl, ht⟩
      · exact absurd hk xK
    · rw [old k same]
      rcases roles with ⟨_, rfl, _⟩ | ⟨_, rfl, _⟩
      · exact h.keyBlock k ((List.mem_cons.mp hk).resolve_left same)
      · exact h.keyBlock k hk
  · intro v hv
    by_cases same : v = x
    · subst same
      rcases roles with ⟨_, _, rfl⟩ | ⟨ht, _, _⟩
      · exact absurd hv xV
      · rw [new]; exact ⟨rfl, ht⟩
    · rw [old v same]
      rcases roles with ⟨_, _, rfl⟩ | ⟨_, _, rfl⟩
      · exact h.valueBlock v hv
      · exact h.valueBlock v ((List.mem_cons.mp hv).resolve_left same)
  · intro f hf
    have ne : f ≠ x := fun e => xF (e ▸ hf)
    rw [old f ne]
    exact h.freeBlock f (sub f hf)
  · rw [free]
    exact t.chain.congr fun f hf => old f fun e => xF (e ▸ hf)

structure Created (s s' : Db) (x : Nat) (node : BtreeNode) : Prop where
  new : s'.file.disk x = node
  other : ∀ y, y ≠ x → s'.file.disk y = s.file.disk y
  total : s'.db.keyTotal = s.db.keyTotal

theorem nodeCreate_none (h : Part p s K V F) (hF : F = []) {grow : Nat → Bool}
    (full : grow s.file.size = false) (leaf : Bool) (type : NodeType) :
    nodeCreate grow s leaf type = none := by
  simp [nodeCreate, h.take_none hF full]

/-- Where the next block comes from: the free list, or the end of the file. -/
def Source (grow : Nat → Bool) (s s' : Db) (x : Nat) (F F' : List Nat) : Prop :=
  F = x :: F' ∧ s'.file.size = s.file.size ∨
    F = [] ∧ F' = [] ∧ x = s.file.size ∧ grow x = true ∧ s'.file.size = s.file.size + blockSize

theorem Part.take_some (h : Part p s K V F) {grow : Nat → Bool}
    (can : F ≠ [] ∨ grow s.file.size = true) :
    ∃ s1 x F', takeBlock grow s = some (s1, x) ∧ Taken s s1 x K V F' ∧ (∀ f ∈ F', f ∈ F) ∧
      Source grow s s1 x F F' := by
  cases F with
  | cons x fs =>
    obtain ⟨s1, run, taken, size⟩ := h.take_free rfl grow
    exact ⟨s1, x, fs, run, taken, fun f hf => List.mem_cons_of_mem _ hf, .inl ⟨rfl, size⟩⟩
  | nil =>
    have can := can.resolve_left (by simp)
    obtain ⟨s1, run, taken, size⟩ := h.take_append rfl can
    exact ⟨s1, _, [], run, taken, by simp, .inr ⟨rfl, rfl, rfl, can, size⟩⟩

theorem DbT.Has.congr {d d' : DbT} (h : d.Has p) (t : d'.keyType = d.keyType)
    (n : d'.keySize = d.keySize) (a : d'.keyAlign = d.keyAlign) (m : d'.M = d.M) : d'.Has p :=
  ⟨t.trans h.keyType, n.trans h.keySize, a.trans h.keyAlign, m.trans h.M⟩

theorem nodeCreate_key (h : Part p s K V F) {grow : Nat → Bool} (leaf : Bool)
    (can : F ≠ [] ∨ grow s.file.size = true) :
    ∃ s' x F', nodeCreate grow s leaf .key = some (s', freshNode s.db x leaf .key) ∧
      Part p s' (x :: K) V F' ∧ Created s s' x (freshNode s.db x leaf .key) ∧
      Source grow s s' x F F' ∧ s'.db.current = s.db.current := by
  obtain ⟨s1, x, F', run, taken, sub, source⟩ := h.take_some can
  have inFile : x ∈ offsets s1.file.size := taken.blocks.mem_iff.mp List.mem_cons_self
  have size : max s1.file.size (x + blockSize) = s1.file.size := by
    have := (offsets_bounds inFile).2
    omega
  have zero : BtreeNode.zero s1.db x = BtreeNode.zero s.db x := by rw [taken.db]; rfl
  refine ⟨nodeFlush (headFlush { s1 with db := { s1.db with
      keyUseBlock := s1.db.keyUseBlock + 1 } }) (freshNode s.db x leaf .key), x, F', ?_, ?_,
        ?_, ?_, ?_⟩
  · simp only [nodeCreate, run, Option.map_some]
    rw [freshNode, ← zero]
    rfl
  · refine h.create taken sub leaf .key ?_ ?_ ?_ ?_ ?_ (.inl ⟨rfl, rfl, rfl⟩) ?_ ?_ ?_
    · rfl
    · rfl
    · rfl
    · simp only [flush_db, headFlush]
      rw [taken.db]
      exact h.has.congr rfl rfl rfl rfl
    · rfl
    · simp only [flush_db, headFlush, List.length_cons]
      rw [taken.db, ← h.keyCount]
    · simp only [flush_db, headFlush]
      rw [taken.db, ← h.valueCount]
    · simp only [flush_db, headFlush]
      rw [taken.db]
      exact h.current
  · refine ⟨Function.update_self _ _ _, fun y hy => ?_, ?_⟩
    · exact (Function.update_of_ne hy _ _).trans (taken.other y hy)
    · simp only [flush_db, headFlush]; rw [taken.db]
  · simp only [Source, nodeFlush, headFlush] at source ⊢
    change F = x :: F' ∧ max s1.file.size (x + blockSize) = _ ∨ F = [] ∧ F' = [] ∧ _ ∧ _ ∧
      max s1.file.size (x + blockSize) = _
    rwa [size]
  · simp only [flush_db, headFlush]; rw [taken.db]

theorem nodeCreate_value (h : Part p s K V F) {grow : Nat → Bool} (leaf : Bool)
    (can : F ≠ [] ∨ grow s.file.size = true) :
    ∃ s' x F', nodeCreate grow s leaf .value = some (s', freshNode s.db x leaf .value) ∧
      Part p s' K (x :: V) F' ∧ Created s s' x (freshNode s.db x leaf .value) ∧
      s'.db.current = x := by
  obtain ⟨s1, x, F', run, taken, sub, source⟩ := h.take_some can
  have zero : BtreeNode.zero s1.db x = BtreeNode.zero s.db x := by rw [taken.db]; rfl
  refine ⟨nodeFlush (headFlush { s1 with db := { s1.db with
      valueUseBlock := s1.db.valueUseBlock + 1, current := x } }) (freshNode s.db x leaf .value),
    x, F', ?_, ?_, ?_, rfl⟩
  · simp only [nodeCreate, run, Option.map_some]
    rw [freshNode, ← zero]
    rfl
  · refine h.create taken sub leaf .value ?_ ?_ ?_ ?_ ?_ (.inr ⟨rfl, rfl, rfl⟩) ?_ ?_ (.inr ?_)
    · rfl
    · rfl
    · rfl
    · simp only [flush_db, headFlush]
      rw [taken.db]
      exact h.has.congr rfl rfl rfl rfl
    · rfl
    · simp only [flush_db, headFlush]
      rw [taken.db, ← h.keyCount]
    · simp only [flush_db, headFlush, List.length_cons]
      rw [taken.db, ← h.valueCount]
    · exact List.mem_cons_self
  · refine ⟨Function.update_self _ _ _, fun y hy => ?_, ?_⟩
    · exact (Function.update_of_ne hy _ _).trans (taken.other y hy)
    · simp only [flush_db, headFlush]; rw [taken.db]

/-- A block that is put back: its role is gone, and the free list starts with it. -/
theorem Part.destroy (h : Part p s K V F) {s' : Db} {x : Nat} (node : BtreeNode) {K' V' : List Nat}
    (roles : (K ++ V).Perm (x :: (K' ++ V'))) (subK : ∀ k ∈ K', k ∈ K) (subV : ∀ v ∈ V', v ∈ V)
    (size : s'.file.size = max s.file.size (x + blockSize))
    (disk : s'.file.disk = Function.update s.file.disk x node)
    (self : node.self = x) (use : node.use = false) (link : node.free = s.db.free)
    (head : s'.file.head = s'.db) (has : s'.db.Has p) (free : s'.db.free = x)
    (keyCount : s'.db.keyUseBlock = K'.length) (valueCount : s'.db.valueUseBlock = V'.length)
    (current : s'.db.current = 0 ∨ s'.db.current ∈ V') : Part p s' K' V' (x :: F) := by
  have perm : (K' ++ V' ++ x :: F).Perm (K ++ V ++ F) :=
    List.perm_middle.trans ((roles.symm.append_right F))
  have inFile : x ∈ offsets s.file.size :=
    h.blocks.mem_iff.mp (perm.mem_iff.mp (by simp))
  have size1 : s'.file.size = s.file.size := by
    have := (offsets_bounds inFile).2
    omega
  have nd := perm.nodup_iff.mpr h.nodup
  obtain ⟨xOut, _⟩ := List.nodup_cons.mp (List.perm_middle.nodup_iff.mp nd)
  simp only [List.mem_append, not_or] at xOut
  have old : ∀ y, y ≠ x → s'.file.disk y = s.file.disk y := fun y hy => by
    rw [disk, Function.update_of_ne hy]
  have new : s'.file.disk x = node := by rw [disk, Function.update_self]
  refine
    { has := has, size := size1 ▸ h.size, blocks := perm.trans (size1 ▸ h.blocks), self := ?_,
      keyBlock := ?_, valueBlock := ?_, freeBlock := ?_, chain := ?_, head := head,
      keyCount := keyCount, valueCount := valueCount, current := current }
  · rw [size1]
    intro y hy
    by_cases same : y = x
    · rw [same, new, self]
    · rw [old y same, h.self y hy]
  · intro k hk
    have ne : k ≠ x := fun e => xOut.1.1 (e ▸ hk)
    rw [old k ne]
    exact h.keyBlock k (subK k hk)
  · intro v hv
    have ne : v ≠ x := fun e => xOut.1.2 (e ▸ hv)
    rw [old v ne]
    exact h.valueBlock v (subV v hv)
  · intro f hf
    by_cases same : f = x
    · rw [same, new, use]
    · rw [old f same]
      exact h.freeBlock f ((List.mem_cons.mp hf).resolve_left same)
  · refine ⟨free, ?_⟩
    rw [new, link]
    exact h.chain.congr fun f hf => old f fun e => xOut.2 (e ▸ hf)

def freedNode (d : DbT) (node : BtreeNode) : BtreeNode :=
  { node with free := d.free, num := 0, use := false }

theorem nodeDestroy_key (h : Part p s K V F) {node : BtreeNode} {K' : List Nat}
    (roles : K.Perm (node.self :: K')) (type : node.type = .key) :
    Part p (nodeDestroy s node) K' V (node.self :: F) ∧
      (nodeDestroy s node).file.disk =
        Function.update s.file.disk node.self (freedNode s.db node) ∧
      (nodeDestroy s node).db.keyTotal = s.db.keyTotal := by
  have run : nodeDestroy s node = nodeFlush (headFlush { s with db := { s.db with
      free := node.self, keyUseBlock := s.db.keyUseBlock - 1 } }) (freedNode s.db node) := by
    simp only [nodeDestroy, freedNode, type]
  rw [run]
  refine ⟨?_, rfl, rfl⟩
  refine h.destroy (freedNode s.db node) (roles.append_right V) ?_ (fun v hv => hv) rfl rfl
    rfl rfl rfl rfl ?_ rfl ?_ h.valueCount h.current
  · exact fun k hk => roles.mem_iff.mpr (List.mem_cons_of_mem _ hk)
  · exact h.has.congr rfl rfl rfl rfl
  · have := roles.length_eq
    have count := h.keyCount
    simp only [flush_db, headFlush, List.length_cons] at this ⊢
    omega

theorem nodeDestroy_value (h : Part p s K V F) {node : BtreeNode} {V' : List Nat} {c : Nat}
    (roles : V.Perm (node.self :: V')) (type : node.type = .value) (current : c = 0 ∨ c ∈ V') :
    let s' := nodeDestroy { s with db := { s.db with current := c } } node
    Part p s' K V' (node.self :: F) ∧
      s'.file.disk = Function.update s.file.disk node.self (freedNode s.db node) ∧
      s'.db.keyTotal = s.db.keyTotal := by
  intro s'
  have run : s' = nodeFlush (headFlush { s with db := { s.db with
      current := c, free := node.self, valueUseBlock := s.db.valueUseBlock - 1 } })
        (freedNode s.db node) := by
    simp only [s', nodeDestroy, freedNode, type]
  rw [run]
  refine ⟨?_, rfl, rfl⟩
  refine h.destroy (freedNode s.db node) ?_ (fun k hk => hk) ?_ rfl rfl rfl rfl rfl rfl ?_ rfl
    h.keyCount ?_ current
  · exact (roles.append_left K).trans List.perm_middle
  · exact fun v hv => roles.mem_iff.mpr (List.mem_cons_of_mem _ hv)
  · exact h.has.congr rfl rfl rfl rfl
  · have := roles.length_eq
    have count := h.valueCount
    simp only [flush_db, headFlush, List.length_cons] at this ⊢
    omega

/-- The header alone may be rewritten where the roles of the blocks are not concerned. -/
theorem Part.headFlush (h : Part p s K V F) {d : DbT} (has : d.Has p) (free : d.free = s.db.free)
    (keyUse : d.keyUseBlock = s.db.keyUseBlock) (valueUse : d.valueUseBlock = s.db.valueUseBlock)
    (current : d.current = 0 ∨ d.current ∈ V) : Part p (headFlush { s with db := d }) K V F where
  has := has
  size := h.size
  blocks := h.blocks
  self := h.self
  keyBlock := h.keyBlock
  valueBlock := h.valueBlock
  freeBlock := h.freeBlock
  chain := free ▸ h.chain
  head := rfl
  keyCount := keyUse.trans h.keyCount
  valueCount := valueUse.trans h.valueCount
  current := current

end Part

end FileDb
