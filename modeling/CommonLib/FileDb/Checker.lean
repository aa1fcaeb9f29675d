import CommonLib.FileDb.Database
import Mathlib.Algebra.BigOperators.Group.List.Lemmas

/- `db_checker` on a database that stands: its totals are the numbers in the header. -/
namespace FileDb
open OrderedTree

/-! ### What the loop adds up -/

def keyNums (node : BtreeNode) : Nat := if node.use = true ∧ node.type = .key then node.num else 0
def valueNums (node : BtreeNode) : Nat :=
  if node.use = true ∧ node.type = .value then node.num else 0
def keyOnes (node : BtreeNode) : Nat := if node.use = true ∧ node.type = .key then 1 else 0
def valueOnes (node : BtreeNode) : Nat := if node.use = true ∧ node.type = .value then 1 else 0

theorem Totals.add_eq (t : Totals) (node : BtreeNode) :
    t.add node = ⟨t.key + keyNums node, t.value + valueNums node, t.keyUse + keyOnes node,
      t.valueUse + valueOnes node⟩ := by
  cases used : node.use with
  | false => simp [Totals.add, keyNums, valueNums, keyOnes, valueOnes, used]
  | true =>
    cases kind : node.type with
    | key => simp [Totals.add, keyNums, valueNums, keyOnes, valueOnes, used, kind]
    | value => simp [Totals.add, keyNums, valueNums, keyOnes, valueOnes, used, kind]

def sumOf (f : BtreeNode → Nat) (disk : Nat → BtreeNode) (l : List Nat) : Nat :=
  (l.map fun x => f (disk x)).sum

theorem checkBlocks_sum {s : Db} (l : List Nat) (t : Totals)
    (inFile : ∀ x ∈ l, x ∈ offsets s.file.size)
    (self : ∀ x ∈ l, (s.file.disk x).self = x) :
    checkBlocks s l t = some ⟨t.key + sumOf keyNums s.file.disk l,
      t.value + sumOf valueNums s.file.disk l, t.keyUse + sumOf keyOnes s.file.disk l,
      t.valueUse + sumOf valueOnes s.file.disk l⟩ := by
  induction l generalizing t with
  | nil => simp [checkBlocks, sumOf]
  | cons x l ih =>
    simp only [checkBlocks, seek_ok (inFile x List.mem_cons_self)]
    rw [if_neg (by simp [self x List.mem_cons_self]),
      ih _ (fun y hy => inFile y (List.mem_cons_of_mem _ hy))
        fun y hy => self y (List.mem_cons_of_mem _ hy), Totals.add_eq]
    simp only [sumOf, List.map_cons, List.sum_cons, Nat.add_assoc]

theorem sumOf_append (f : BtreeNode → Nat) (disk : Nat → BtreeNode) (l m : List Nat) :
    sumOf f disk (l ++ m) = sumOf f disk l + sumOf f disk m := by simp [sumOf]

theorem sumOf_perm (f : BtreeNode → Nat) (disk : Nat → BtreeNode) {l m : List Nat}
    (perm : l.Perm m) :
    sumOf f disk l = sumOf f disk m := (perm.map _).sum_eq

theorem sumOf_congr {f g : BtreeNode → Nat} {disk : Nat → BtreeNode} {l : List Nat}
    (same : ∀ x ∈ l, f (disk x) = g (disk x)) : sumOf f disk l = sumOf g disk l := by
  rw [sumOf, List.map_congr_left same, sumOf]

theorem sumOf_zero {f : BtreeNode → Nat} {disk : Nat → BtreeNode} {l : List Nat}
    (zero : ∀ x ∈ l, f (disk x) = 0) : sumOf f disk l = 0 := by
  refine List.sum_eq_zero fun n hn => ?_
  obtain ⟨x, hx, rfl⟩ := List.mem_map.mp hn
  exact zero x hx

theorem sumOf_one {f : BtreeNode → Nat} {disk : Nat → BtreeNode} {l : List Nat}
    (one : ∀ x ∈ l, f (disk x) = 1) : sumOf f disk l = l.length := by
  rw [sumOf, List.map_congr_left one]
  simp

/-! ### The entries in the blocks -/

theorem stored_length (disk : Nat → BtreeNode) (K : List Nat) :
    (stored disk K).length = sumOf BtreeNode.num disk K := by
  simp [stored, sumOf, List.length_flatMap]

theorem sum_countP {α : Type} (f : α → Nat) (V : List Nat) (es : List α) (nodup : V.Nodup)
    (mem : ∀ e ∈ es, f e ∈ V) :
    (V.map fun v => es.countP fun e => decide (f e = v)).sum = es.length := by
  have ones : ∀ (V : List Nat) (x : Nat),
    (V.map fun v => if decide (x = v) = true then 1 else 0).sum =
      V.count x := by
    intro V x
    induction V with
    | nil => rfl
    | cons v V ih =>
      rw [List.map_cons, List.sum_cons, ih, List.count_cons, Nat.add_comm]
      by_cases same : v = x
      · simp [same]
      · simp [same, Ne.symm same]
  induction es with
  | nil => simp
  | cons e es ih =>
    have step : (V.map fun v => (e :: es).countP fun e => decide (f e = v)) =
        V.map fun v => (es.countP fun e => decide (f e = v)) +
          if decide (f e = v) = true then 1 else 0 :=
      List.map_congr_left fun v _ => List.countP_cons
    rw [step, List.sum_map_add, ih fun a ha => mem a (List.mem_cons_of_mem _ ha), ones,
      List.count_eq_one_of_mem nodup (mem e List.mem_cons_self), List.length_cons]

/-! ### The checker -/

section Checker
variable {κ : Type} [LinearOrder κ] {p : Shape} {O : KeyOrder κ p.keyType p.keySize}
    {s : Db} {h : Nat}
  {V F : List Nat}

theorem Part.totals {K : List Nat} (part : Part p s K V F) :
    checkBlocks s (offsets s.file.size) {} = some ⟨sumOf BtreeNode.num s.file.disk K,
      sumOf BtreeNode.num s.file.disk V, K.length, V.length⟩ := by
  have key : ∀ k ∈ K, (s.file.disk k).use = true ∧ (s.file.disk k).type = .key := part.keyBlock
  have value : ∀ v ∈ V, (s.file.disk v).use = true ∧ (s.file.disk v).type = .value :=
    part.valueBlock
  have free : ∀ f ∈ F, (s.file.disk f).use = false := part.freeBlock
  have split (f : BtreeNode → Nat) : sumOf f s.file.disk (offsets s.file.size) =
      sumOf f s.file.disk K + sumOf f s.file.disk V + sumOf f s.file.disk F := by
    rw [← sumOf_perm f _ part.blocks, sumOf_append, sumOf_append]
  rw [checkBlocks_sum _ _ (fun _ hx => hx) part.self, split, split, split, split]
  rw [sumOf_congr (f := keyNums) (g := BtreeNode.num) (l := K) fun k hk => if_pos (key k hk),
    sumOf_zero (f := keyNums) (l := V) fun v hv => by simp [keyNums, value v hv],
    sumOf_zero (f := keyNums) (l := F) fun f hf => by simp [keyNums, free f hf],
    sumOf_congr (f := valueNums) (g := BtreeNode.num) (l := V) fun v hv => if_pos (value v hv),
    sumOf_zero (f := valueNums) (l := K) fun k hk => by simp [valueNums, key k hk],
    sumOf_zero (f := valueNums) (l := F) fun f hf => by simp [valueNums, free f hf],
    sumOf_one (f := keyOnes) (l := K) fun k hk => if_pos (key k hk),
    sumOf_zero (f := keyOnes) (l := V) fun v hv => by simp [keyOnes, value v hv],
    sumOf_zero (f := keyOnes) (l := F) fun f hf => by simp [keyOnes, free f hf],
    sumOf_one (f := valueOnes) (l := V) fun v hv => if_pos (value v hv),
    sumOf_zero (f := valueOnes) (l := K) fun k hk => by simp [valueOnes, key k hk],
    sumOf_zero (f := valueOnes) (l := F) fun f hf => by simp [valueOnes, free f hf]]
  simp

/-- The order of the keys does not matter to the checker. -/
theorem TreeAt.checker (t : TreeAt p s h headSize [] [] V F)
    (total : s.db.keyTotal = (flat s.file.disk h headSize).length) : dbChecker s = 0 := by
  have part := t.part
  have has := part.has
  rw [List.append_nil] at part
  obtain ⟨n, size⟩ := part.size
  have one : headSize ∈ offsets s.file.size := t.block_mem (by simp [blocks])
  have large := (offsets_bounds one).2
  have whole : (s.file.size - headSize) % blockSize = 0 := by
    rw [size]
    simp
  have keys : sumOf BtreeNode.num s.file.disk (blocks s.file.disk h headSize) = s.db.keyTotal := by
    rw [total, (flat_perm h headSize).length_eq, stored_length]
  have values : sumOf BtreeNode.num s.file.disk V = s.db.keyTotal := by
    have vals := t.values
    rw [List.append_nil] at vals
    rw [total, ← sum_countP (fun e : Entry => blockOf e.2) V _ part.value_nodup vals.block]
    exact congrArg List.sum (List.map_congr_left vals.count)
  have valid : ¬ keySizeOk s.db.keyType s.db.keySize = false := by
    rw [has.keyType, has.keySize, p.valid]
    simp
  have align : s.db.keyAlign = dbAlign (keyHead + s.db.keySize) alignment := by
    rw [has.keyAlign, has.keySize]
    rfl
  have order : s.db.M = (blockSize - nodeHead) / s.db.keyAlign - 1 := by
    rw [has.M, has.keyAlign]
    rfl
  simp only [dbChecker]
  rw [if_neg (by omega), if_neg valid, if_neg (not_not_intro align), if_neg (not_not_intro order),
    part.totals]
  simp only [keys, values, part.keyCount, part.valueCount, ne_eq, not_true_eq_false, or_self,
    ↓reduceIte]

theorem TreeAt.reopen (t : TreeAt p s h headSize [] [] V F)
    (total : s.db.keyTotal = (flat s.file.disk h headSize).length) :
        dbOpen (dbClose s) = some s := by
  have same : ({ db := s.file.head, file := s.file } : Db) = s := by rw [t.part.head]
  simp [dbOpen, dbClose, same, t.checker total]

theorem Stands.checker (st : Stands O s h [] V F) : dbChecker s = 0 := st.tree.checker st.total

theorem Stands.reopen (st : Stands O s h [] V F) : dbOpen (dbClose s) = some s :=
  st.tree.reopen st.total

end Checker

end FileDb
