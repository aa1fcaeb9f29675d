import CommonLib.FileDb.Blocks
import Mathlib.Tactic.Ring

/- The value blocks: every stored entry points at a record in a block in use, every
   block counts the records in it, and a new record is written past the old ones. -/
namespace FileDb
open OrderedTree

/-! ### Records -/

theorem leNat_map (n v : Nat) (f : Nat → UInt8) (h : ∀ j < n, f j = UInt8.ofNat (v / 256 ^ j)) :
    leNat n ((List.range n).map f) = v % 256 ^ n := by
  induction n generalizing v f with
  | zero => simp [leNat, Nat.mod_one]
  | succ n ih =>
    have tail := ih (v / 256) (fun j => f (j + 1)) fun j hj => by
      rw [h (j + 1) (by omega), Nat.div_div_eq_div_mul, Nat.pow_succ, Nat.mul_comm 256]
    have first := h 0 (by omega)
    rw [List.range_succ_eq_map, List.map_cons, List.map_map]
    simp only [leNat]
    change (f 0).toNat + 256 * leNat n ((List.range n).map fun j => f (j + 1)) = _
    rw [tail, first, Nat.pow_succ, Nat.mul_comm _ 256, Nat.mod_mul]
    simp

theorem readSize_congr {a b : BtreeNode} {q : Nat}
    (h : ∀ j < valueHead, a.bytes (q + j) = b.bytes (q + j)) : readSize a q = readSize b q := by
  simp only [readSize]
  congr 1
  exact List.map_congr_left fun j hj => h j (List.mem_range.mp hj)

theorem readValue_congr {a b : BtreeNode} {q : Nat}
    (h : ∀ j < valueHead + readSize b q, a.bytes (q + j) = b.bytes (q + j)) :
    readValue a q = readValue b q := by
  have size : readSize a q = readSize b q := readSize_congr fun j hj => h j (by omega)
  simp only [readValue, size]
  refine List.map_congr_left fun j hj => ?_
  rw [Nat.add_assoc]
  exact h _ (by have := List.mem_range.mp hj; omega)

def withValue (valnode : BtreeNode) (value : Bytes) : BtreeNode :=
  { valnode with
    bytes := fun q =>
      if valnode.last ≤ q ∧ q < valnode.last + valueHead then
        UInt8.ofNat (value.length / 256 ^ (q - valnode.last))
      else if valnode.last + valueHead ≤ q ∧ q < valnode.last + valueHead + value.length then
        value.getD (q - valnode.last - valueHead) 0
      else valnode.bytes q
    last := valnode.last + valueRoom value.length
    num := valnode.num + 1 }

theorem withValue_size (b : BtreeNode) {value : Bytes} (small : value.length ≤ blockSize) :
    readSize (withValue b value) b.last = value.length := by
  have read := leNat_map valueHead value.length
    (fun j => (withValue b value).bytes (b.last + j)) fun j hj => by
      simp only [withValue]
      rw [if_pos (by omega), Nat.add_sub_cancel_left]
  rw [readSize, read]
  simp only [blockSize, valueHead] at *
  omega

theorem withValue_value (b : BtreeNode) {value : Bytes} (small : value.length ≤ blockSize) :
    readValue (withValue b value) b.last = value := by
  rw [readValue, withValue_size b small]
  apply List.ext_getElem
  · simp
  · intro j h1 h2
    simp only [List.getElem_map, List.getElem_range, withValue]
    rw [if_neg (by omega), if_pos (by omega),
      show b.last + valueHead + j - b.last - valueHead = j by omega]
    simp [h2]

theorem withValue_below (b : BtreeNode) (value : Bytes) {q : Nat} (h : q < b.last) :
    (withValue b value).bytes q = b.bytes q := by
  simp only [withValue]
  rw [if_neg (by omega), if_neg (by omega)]

/-- A value that `db_insert` accepts, its sizes not wrapped. -/
structure Accepted (value : Bytes) : Prop where
  noWrap : nodeHead + valueHead + value.length + alignment ≤ sizeMod
  fits : ¬ blockSize < (nodeHead + valueRoom value.length) % sizeMod

theorem accepted_of_length {value : Bytes}
    (small : nodeHead + valueHead + value.length ≤ blockSize) :
    Accepted value := by
  simp only [nodeHead, valueHead, blockSize] at small
  refine ⟨?_, ?_⟩
  · simp only [nodeHead, valueHead, alignment, sizeMod]
    omega
  · simp only [valueRoom, dbAlign, nodeHead, valueHead, alignment, sizeMod, blockSize]
    omega

theorem Accepted.room {value : Bytes} (h : Accepted value) :
    valueHead + value.length ≤ valueRoom value.length ∧
      nodeHead + valueRoom value.length ≤ blockSize := by
  obtain ⟨noWrap, fits⟩ := h
  simp only [valueRoom, dbAlign, nodeHead, valueHead, alignment, sizeMod, blockSize] at *
  omega

theorem storeValue_ok {b : BtreeNode} {value : Bytes} (h : Accepted value)
    (room : b.last + valueRoom value.length ≤ blockSize) :
    storeValue b value = .ok (withValue b value) := by
  have bounds := h.room
  have last : (b.last + valueRoom value.length) % sizeMod % 2 ^ 29 =
      b.last + valueRoom value.length := by
    simp only [blockSize, sizeMod] at *
    omega
  simp only [storeValue, last]
  rw [if_neg (by omega)]
  rfl

/-! ### The invariant of the value blocks -/

def valueAt (disk : Nat → BtreeNode) (offset : Nat) : Bytes :=
  readValue (disk (blockOf offset)) (offset - blockOf offset)

structure Values (disk : Nat → BtreeNode) (V : List Nat) (es : List Entry) : Prop where
  count : ∀ v ∈ V, (disk v).num = es.countP fun e => blockOf e.2 = v
  used : ∀ v ∈ V, 0 < (disk v).num
  last : ∀ v ∈ V, (disk v).last ≤ blockSize
  block : ∀ e ∈ es, blockOf e.2 ∈ V
  room : ∀ e ∈ es, e.2 - blockOf e.2 + valueHead +
    readSize (disk (blockOf e.2)) (e.2 - blockOf e.2) ≤ (disk (blockOf e.2)).last

theorem valueAt_congr {disk disk' : Nat → BtreeNode} {o : Nat}
    (h : disk' (blockOf o) = disk (blockOf o)) : valueAt disk' o = valueAt disk o := by
  rw [valueAt, h, valueAt]

section Values
variable {disk disk' : Nat → BtreeNode} {V : List Nat} {es : List Entry}

theorem Values.congr (h : Values disk V es) (same : ∀ v ∈ V, disk' v = disk v) :
    Values disk' V es where
  count v hv := by rw [same v hv, h.count v hv]
  used v hv := by rw [same v hv]; exact h.used v hv
  last v hv := by rw [same v hv]; exact h.last v hv
  block := h.block
  room e he := by rw [same _ (h.block e he)]; exact h.room e he

theorem Values.perm (h : Values disk V es) {es' : List Entry} (p : es.Perm es') :
    Values disk V es' where
  count v hv := by rw [h.count v hv]; exact p.countP_eq _
  used := h.used
  last := h.last
  block e he := h.block e (p.mem_iff.mpr he)
  room e he := h.room e (p.mem_iff.mpr he)

end Values

theorem blockOf_block {size v q : Nat} (hv : v ∈ offsets size) (hq : q < blockSize) :
    blockOf (v + q) = v := by
  obtain ⟨j, _, rfl⟩ := mem_offsets.mp hv
  simp only [blockOf, headSize, blockSize] at *
  omega

section Part
variable {p : Shape} {s : Db} {K V F : List Nat} {es : List Entry}

/-! ### Storing -/

inductive Chosen (s s' : Db) (V V' : List Nat) : BtreeNode → Prop where
  | old (v : Nat) (mem : v ∈ V) (same : V' = V) (disk : s'.file.disk = s.file.disk) :
      Chosen s s' V V' (s.file.disk v)
  | new (x : Nat) (fresh : V' = x :: V) (block : s'.file.disk x = freshNode s.db x false .value)
      (other : ∀ y, y ≠ x → s'.file.disk y = s.file.disk y) :
      Chosen s s' V V' (freshNode s.db x false .value)

theorem chooseValueBlock_spec (h : Part p s K V F) (vals : Values s.file.disk V es)
    (grow : Nat → Bool) {value : Bytes} (acc : Accepted value) :
    (∃ s', chooseValueBlock grow s value.length = (s', none) ∧ F = [] ∧
        grow s.file.size = false ∧ Part p s' K V F ∧ s'.file.disk = s.file.disk ∧
        s'.file.size = s.file.size ∧ s'.db.keyTotal = s.db.keyTotal) ∨
      ∃ s' b V' F', chooseValueBlock grow s value.length = (s', some b) ∧ Part p s' K V' F' ∧
        Chosen s s' V V' b ∧ b.last + valueRoom value.length ≤ blockSize ∧
        s'.db.keyTotal = s.db.keyTotal := by
  have bounds := acc.room
  -- the handle once a full current block has been given up
  obtain ⟨s1, hs1, part1, disk1, size1, total1, db1⟩ : ∃ s1 : Db,
      (if s.db.current ≠ 0 ∧ blockSize <
          ((nodeSeek s (.zero s.db 0) s.db.current).last + valueRoom value.length) % sizeMod then
        headFlush { s with db := { s.db with current := 0 } } else s) = s1 ∧
      Part p s1 K V F ∧ s1.file.disk = s.file.disk ∧ s1.file.size = s.file.size ∧
      s1.db.keyTotal = s.db.keyTotal ∧
      (s1.db.current = 0 ∨ s1 = s ∧ s.db.current ∈ V ∧
        (s.file.disk s.db.current).last + valueRoom value.length ≤ blockSize) := by
    split
    · exact ⟨_, rfl, h.headFlush (h.has.congr rfl rfl rfl rfl) rfl rfl rfl (.inl rfl),
        rfl, rfl, rfl,
        .inl rfl⟩
    · rename_i keep
      refine ⟨s, rfl, h, rfl, rfl, rfl, ?_⟩
      rcases h.current with zero | mem
      · exact .inl zero
      · refine .inr ⟨rfl, mem, ?_⟩
        have inFile := h.value_mem mem
        have pos := (offsets_bounds inFile).1
        have last := vals.last _ mem
        rw [seek_ok inFile, not_and] at keep
        simp only [headSize, blockSize, sizeMod] at *
        have := keep (by omega)
        omega
  simp only [chooseValueBlock]
  rw [hs1]
  rcases db1 with zero | ⟨rfl, mem, room⟩
  · rw [if_pos zero]
    by_cases can : F ≠ [] ∨ grow s1.file.size = true
    · right
      obtain ⟨s', x, F', run, part, made, _⟩ := nodeCreate_value part1 false can
      have fresh : freshNode s1.db x false .value = freshNode s.db x false .value := by
        rw [freshNode, freshNode, BtreeNode.zero, BtreeNode.zero, part1.has.keyAlign,
          h.has.keyAlign]
      rw [fresh] at run made
      refine ⟨s', _, _, _, by rw [run], part, .new x rfl made.new ?_, ?_, made.total.trans total1⟩
      · intro y hy
        rw [made.other y hy, disk1]
      · simpa [freshNode] using bounds.2
    · simp only [ne_eq, not_or, Decidable.not_not, Bool.not_eq_true] at can
      left
      refine ⟨s1, by rw [nodeCreate_none part1 can.1 can.2], can.1, size1 ▸ can.2, part1, disk1, size1,
        total1⟩
  · right
    have pos := (offsets_bounds (h.value_mem mem)).1
    rw [if_neg (by simp only [headSize] at pos; omega), seek_ok (h.value_mem mem)]
    exact ⟨s1, _, V, F, rfl, h, .old _ mem rfl rfl, room, rfl⟩

/-- Choosing a block and storing the value: a new record, the others as they were. -/
theorem placeValue (h : Part p s K V F) (vals : Values s.file.disk V es) {s' : Db} {b : BtreeNode}
    {V' F' : List Nat} (part : Part p s' K V' F') (chosen : Chosen s s' V V' b) {value : Bytes}
    (acc : Accepted value) (room : b.last + valueRoom value.length ≤ blockSize) (key : Bytes) :
    let s2 := nodeFlush s' (withValue b value)
    Part p s2 K V' F' ∧ Values s2.file.disk V' ((key, b.self + b.last) :: es) ∧
      valueAt s2.file.disk (b.self + b.last) = value ∧
      (∀ e ∈ es, valueAt s2.file.disk e.2 = valueAt s.file.disk e.2) ∧
      ∀ k ∈ K, s2.file.disk k = s.file.disk k := by
  intro s2
  have bounds := acc.room
  have small : value.length ≤ blockSize := by omega
  have self : b.self ∈ V' ∧ b.use = true ∧ b.type = .value := by
    cases chosen with
    | old v mem same disk =>
      rw [h.self v (h.value_mem mem), same]
      exact ⟨mem, h.valueBlock v mem⟩
    | new x fresh block other => exact ⟨fresh ▸ List.mem_cons_self, rfl, rfl⟩
  obtain ⟨mem, use, type⟩ := self
  have inBlock : blockOf (b.self + b.last) = b.self := by
    refine blockOf_block (part.value_mem mem) ?_
    simp only [valueHead, blockSize] at *
    omega
  have disk2 : s2.file.disk = Function.update s'.file.disk b.self (withValue b value) := rfl
  have here : s2.file.disk b.self = withValue b value := by rw [disk2, Function.update_self]
  -- the old records of the block lie below `last`; the other blocks have not changed
  have old : ∀ y, y ≠ b.self → s2.file.disk y = s.file.disk y := by
    intro y hy
    rw [disk2, Function.update_of_ne hy]
    cases chosen with
    | old v mem' same disk => rw [disk]
    | new x fresh block other => exact other y hy
  have entry : ∀ e ∈ es, blockOf e.2 = b.self → s.file.disk b.self = b := by
    intro e he eq
    cases chosen with
    | old v mem' same disk => rw [h.self v (h.value_mem mem')]
    | new x fresh block other =>
      have nodup : (x :: V).Nodup := fresh ▸ part.value_nodup
      have inV : x ∈ V := by
        have := vals.block e he
        rwa [eq] at this
      exact absurd inV (List.nodup_cons.mp nodup).1
  have record : ∀ e ∈ es, ∀ j < valueHead +
    readSize (s.file.disk (blockOf e.2)) (e.2 - blockOf e.2),
      (s2.file.disk (blockOf e.2)).bytes (e.2 - blockOf e.2 + j) =
        (s.file.disk (blockOf e.2)).bytes (e.2 - blockOf e.2 + j) := by
    intro e he j hj
    by_cases same : blockOf e.2 = b.self
    · have within := vals.room e he
      rw [same, entry e he same] at within hj ⊢
      rw [here, withValue_below b value (by omega)]
    · rw [old _ same]
  have oldMem : ∀ v ∈ V, v ∈ V' := by
    intro v hv
    cases chosen with
    | old v mem' same disk => exact same ▸ hv
    | new x fresh block other => exact fresh ▸ List.mem_cons_of_mem _ hv
  refine ⟨part.flush_value mem use type, ?_, ?_, ?_, ?_⟩
  · constructor
    · intro v hv
      rw [List.countP_cons]
      by_cases same : v = b.self
      · subst same
        rw [here]
        simp only [inBlock, decide_true, ↓reduceIte]
        change b.num + 1 = _
        congr 1
        cases chosen with
        | old v mem' eq disk => rw [h.self v (h.value_mem mem'), vals.count v mem']
        | new x fresh block other =>
          have nodup : (x :: V).Nodup := fresh ▸ part.value_nodup
          refine (List.countP_eq_zero.mpr fun e he eq => ?_).symm
          have inV : x ∈ V := by
            have := vals.block e he
            rwa [of_decide_eq_true eq] at this
          exact (List.nodup_cons.mp nodup).1 inV
      · have inV : v ∈ V := by
          cases chosen with
          | old w mem' eq disk => exact eq ▸ hv
          | new x fresh block other =>
            exact (List.mem_cons.mp (fresh ▸ hv)).resolve_left same
        rw [old v same, vals.count v inV]
        simp [inBlock, Ne.symm same]
    · intro v hv
      by_cases same : v = b.self
      · subst same; rw [here]; simp [withValue]
      · rw [old v same]
        refine vals.used v ?_
        cases chosen with
        | old w mem' eq disk => exact eq ▸ hv
        | new x fresh block other => exact (List.mem_cons.mp (fresh ▸ hv)).resolve_left same
    · intro v hv
      by_cases same : v = b.self
      · subst same; rw [here]; exact room
      · rw [old v same]
        refine vals.last v ?_
        cases chosen with
        | old w mem' eq disk => exact eq ▸ hv
        | new x fresh block other => exact (List.mem_cons.mp (fresh ▸ hv)).resolve_left same
    · intro e he
      rcases List.mem_cons.mp he with rfl | he
      · rw [inBlock]; exact mem
      · exact oldMem _ (vals.block e he)
    · intro e he
      rcases List.mem_cons.mp he with rfl | he
      · simp only [inBlock, Nat.add_sub_cancel_left, here]
        rw [withValue_size b small]
        simp only [withValue]
        omega
      · have size : readSize (s2.file.disk (blockOf e.2)) (e.2 - blockOf e.2) =
            readSize (s.file.disk (blockOf e.2)) (e.2 - blockOf e.2) :=
          readSize_congr fun j hj => record e he j (by omega)
        have within := vals.room e he
        rw [size]
        by_cases same : blockOf e.2 = b.self
        · rw [same, entry e he same] at within ⊢
          rw [here]
          simp only [withValue]
          omega
        · rw [old _ same]; exact within
  · rw [valueAt, inBlock, here, Nat.add_sub_cancel_left, withValue_value b small]
  · intro e he
    exact readValue_congr (record e he)
  · intro k hk
    refine old k fun eq => ?_
    exact (part.disjoint.1 k hk).1 (eq ▸ mem)

/-! ### Releasing -/

structure Dropped (p : Shape) (s s' : Db) (K V' F' : List Nat) (es : List Entry) : Prop where
  part : Part p s' K V' F'
  values : Values s'.file.disk V' es
  same : ∀ f ∈ es, valueAt s'.file.disk f.2 = valueAt s.file.disk f.2
  keys : ∀ k ∈ K, s'.file.disk k = s.file.disk k
  total : s'.db.keyTotal = s.db.keyTotal

theorem dropLastReference (h : Part p s K V F) {e : Entry} (vals : Values s.file.disk V (e :: es))
    {v : Nat} (hv : blockOf e.2 = v) (mem : v ∈ V) (single : (s.file.disk v).num = 1) {c : Nat}
    (current : c = 0 ∨ c ∈ V.erase v) {node : BtreeNode} (self : node.self = v)
    (type : node.type = .value) :
    Dropped p s (nodeDestroy { s with db := { s.db with current := c } } node) K (V.erase v)
      (v :: F) es := by
  have count := vals.count v mem
  rw [List.countP_cons] at count
  simp only [hv, decide_true, ↓reduceIte] at count
  have away : ∀ f ∈ es, blockOf f.2 ≠ v := by
    have zero : es.countP (fun f => decide (blockOf f.2 = v)) = 0 := by omega
    intro f hf eq
    exact List.countP_eq_zero.mp zero f hf (decide_eq_true eq)
  have roles : V.Perm (node.self :: V.erase v) := by
    rw [self]
    exact List.perm_cons_erase mem
  obtain ⟨part, disk, total⟩ := nodeDestroy_value h roles type current
  rw [self] at part disk
  have other : ∀ y, y ≠ v → (nodeDestroy { s with db := { s.db with current := c } }
      node).file.disk y = s.file.disk y := by
    intro y hy
    rw [disk, Function.update_of_ne hy]
  have ne : ∀ w ∈ V.erase v, w ≠ v := fun w hw eq =>
    (List.Nodup.mem_erase_iff h.value_nodup).mp hw |>.1 eq
  refine ⟨part, ?_, fun f hf => valueAt_congr (other _ (away f hf)), ?_, total⟩
  · constructor
    · intro w hw
      rw [other w (ne w hw), vals.count w (List.mem_of_mem_erase hw), List.countP_cons]
      simp [hv, Ne.symm (ne w hw)]
    · intro w hw
      rw [other w (ne w hw)]
      exact vals.used w (List.mem_of_mem_erase hw)
    · intro w hw
      rw [other w (ne w hw)]
      exact vals.last w (List.mem_of_mem_erase hw)
    · intro f hf
      exact (List.mem_erase_of_ne (away f hf)).mpr (vals.block f (List.mem_cons_of_mem _ hf))
    · intro f hf
      rw [other _ (away f hf)]
      exact vals.room f (List.mem_cons_of_mem _ hf)
  · exact fun k hk => other k fun eq => (h.disjoint.1 k hk).1 (eq ▸ mem)

theorem dropOneReference (h : Part p s K V F) {e : Entry} (vals : Values s.file.disk V (e :: es))
    {v : Nat} (hv : blockOf e.2 = v) (mem : v ∈ V) (more : 1 < (s.file.disk v).num) :
    Dropped p s (nodeFlush s { s.file.disk v with num := (s.file.disk v).num - 1 }) K V F es := by
  obtain ⟨node, hn⟩ : ∃ node, { s.file.disk v with num := (s.file.disk v).num - 1 } =
    node := ⟨_, rfl⟩
  have self : node.self = v := by rw [← hn]; exact h.self v (h.value_mem mem)
  have bytes : node.bytes = (s.file.disk v).bytes := by rw [← hn]
  have last : node.last = (s.file.disk v).last := by rw [← hn]
  have num : node.num = (s.file.disk v).num - 1 := by rw [← hn]
  obtain ⟨use, type⟩ := h.valueBlock v mem
  rw [hn]
  have disk : (nodeFlush s node).file.disk = Function.update s.file.disk v node := by
    rw [flush_disk, self]
  have inV : node.self ∈ V := self ▸ mem
  have part := h.flush_value inV (by rw [← hn]; exact use) (by rw [← hn]; exact type)
  have sameBytes : ∀ y, ((nodeFlush s node).file.disk y).bytes = (s.file.disk y).bytes := by
    intro y
    by_cases same : y = v
    · rw [same, disk, Function.update_self, bytes]
    · rw [disk, Function.update_of_ne same]
  have sameLast : ∀ y, ((nodeFlush s node).file.disk y).last = (s.file.disk y).last := by
    intro y
    by_cases same : y = v
    · rw [same, disk, Function.update_self, last]
    · rw [disk, Function.update_of_ne same]
  refine ⟨part, ?_, ?_, ?_, rfl⟩
  · constructor
    · intro w hw
      have each := vals.count w hw
      rw [List.countP_cons] at each
      by_cases same : w = v
      · subst same
        rw [disk, Function.update_self, num, each]
        simp [hv]
      · rw [disk, Function.update_of_ne same, each]
        simp [hv, Ne.symm same]
    · intro w hw
      by_cases same : w = v
      · rw [same, disk, Function.update_self]
        omega
      · rw [disk, Function.update_of_ne same]
        exact vals.used w hw
    · intro w hw
      rw [sameLast]
      exact vals.last w hw
    · exact fun f hf => vals.block f (List.mem_cons_of_mem _ hf)
    · intro f hf
      have size : readSize ((nodeFlush s node).file.disk (blockOf f.2)) (f.2 - blockOf f.2) =
          readSize (s.file.disk (blockOf f.2)) (f.2 - blockOf f.2) :=
        readSize_congr fun j _ => congrFun (sameBytes _) _
      rw [sameLast, size]
      exact vals.room f (List.mem_cons_of_mem _ hf)
  · exact fun f hf => readValue_congr fun j _ => congrFun (sameBytes _) _
  · intro k hk
    have away : k ≠ v := fun eq => (h.disjoint.1 k hk).1 (eq ▸ mem)
    rw [disk, Function.update_of_ne away]

theorem dropReference_spec {e : Entry} (h : Part p s K V F)
    (vals : Values s.file.disk V (e :: es)) :
    ∃ V' F', Dropped p s (dropReference s (s.file.disk (blockOf e.2))) K V' F' es := by
  obtain ⟨v, hv⟩ : ∃ v, blockOf e.2 = v := ⟨_, rfl⟩
  have mem : v ∈ V := hv ▸ vals.block e List.mem_cons_self
  have self : (s.file.disk v).self = v := h.self v (h.value_mem mem)
  have used := vals.used v mem
  rw [hv, dropReference]
  by_cases single : (s.file.disk v).num = 1
  · have zero : (s.file.disk v).num - 1 = 0 := by omega
    simp only [zero, ↓reduceIte, self]
    have type := (h.valueBlock v mem).2
    split
    · exact ⟨_, _, dropLastReference h vals hv mem single (.inl rfl) rfl type⟩
    · rename_i other
      refine ⟨_, _, dropLastReference h vals hv mem single (c := s.db.current) ?_ rfl type⟩
      rcases h.current with none | inV
      · exact .inl none
      · exact .inr ((List.mem_erase_of_ne (Ne.symm other)).mpr inV)
  · have more : ¬ (s.file.disk v).num - 1 = 0 := by omega
    simp only [more, ↓reduceIte]
    exact ⟨_, _, dropOneReference h vals hv mem (by omega)⟩

theorem releaseValue_spec {e : Entry} (h : Part p s K V F) (vals : Values s.file.disk V (e :: es)) :
    ∃ V' F', Part p (releaseValue s e.2) K V' F' ∧
      Values (releaseValue s e.2).file.disk V' es ∧
      (∀ f ∈ es, valueAt (releaseValue s e.2).file.disk f.2 = valueAt s.file.disk f.2) ∧
      (∀ k ∈ K, (releaseValue s e.2).file.disk k = s.file.disk k) ∧
      (releaseValue s e.2).db.keyTotal = s.db.keyTotal - 1 := by
  have inFile := h.value_mem (vals.block e List.mem_cons_self)
  obtain ⟨V', F', dropped⟩ := dropReference_spec h vals
  have run : releaseValue s e.2 = headFlush { dropReference s (s.file.disk (blockOf e.2)) with
      db := { (dropReference s (s.file.disk (blockOf e.2))).db with
        keyTotal := (dropReference s (s.file.disk (blockOf e.2))).db.keyTotal - 1 } } := by
    rw [releaseValue, seek_ok inFile]
  rw [run]
  refine ⟨V', F', dropped.part.headFlush ?_ rfl rfl rfl dropped.part.current, dropped.values,
    dropped.same, dropped.keys, ?_⟩
  · exact dropped.part.has.congr rfl rfl rfl rfl
  · rw [headFlush, dropped.total]

end Part

end FileDb
