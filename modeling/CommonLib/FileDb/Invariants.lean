import CommonLib.FileDb.Contract
import CommonLib.FileDb.Reach

/- What holds of the file after every run: the shape of the tree, and the account of
   the blocks that `db_checker` goes by. -/
namespace FileDb
open OrderedTree

/-! ### The shape of the tree -/

/-- A B-tree of height `h` at the root block; the entries are counted in its blocks. -/
structure SearchTree (t : KeyType) (n : Nat) (s : Db) (h : Nat) : Prop where
  order : s.db.M = (blockSize - nodeHead) / dbAlign (keyHead + n) alignment - 1
  leaf : (s.file.disk headSize).leaf = decide (h = 0)
  upper : (s.file.disk headSize).num ≤ s.db.M
  inner : h ≠ 0 → 1 ≤ (s.file.disk headSize).num
  children : ChildrenOk s.db.M s.file.disk h (kids (s.file.disk headSize))
  ordered : Ordered (fun e => keyName t n e.1) (flat s.file.disk h headSize)
  fits : ∀ x ∈ blocks s.file.disk h headSize, Fits s.db (s.file.disk x).num

section Tree
variable {M : Nat} {disk : Nat → BtreeNode} {h a : Nat}

theorem num_of_children (root : (disk a).num ≤ M) (children : ChildrenOk M disk h (kids (disk a)))
    {x : Nat} (mem : x ∈ blocks disk h a) : (disk x).num ≤ M := by
  induction h generalizing a with
  | zero =>
    have : x = a := by simpa [blocks, blocksOf] using mem
    exact this ▸ root
  | succ h ih =>
    rw [blocks_succ] at mem
    rcases List.mem_cons.mp mem with rfl | mem
    · exact root
    · obtain ⟨c, hc, hx⟩ := List.mem_flatMap.mp mem
      obtain ⟨node, below⟩ := children c hc
      exact ih node.upper below hx

end Tree

section Stands
variable {t : KeyType} {n : Nat} {plain : Plain t} {valid : keySizeOk t n = true} {s : Db} {h : Nat}
  {R V F : List Nat}

theorem Stands.searchTree (st : Stands (p := ⟨t, n, valid⟩) (plainOrder t n plain) s h R V F) :
    SearchTree t n s h := by
  have has := st.tree.part.has
  have order := st.sorted.ordered
  refine ⟨has.M, st.tree.leaf, has.M ▸ st.tree.num, st.tree.inner, has.M ▸ st.tree.children, ?_, ?_⟩
  · rw [← plainOrder_rank n plain]
    exact order
  · exact fun x hx => has.fits_slot (num_of_children st.tree.num st.tree.children hx)

end Stands

/-- After every run the tree is a B-tree of the order that `db_create` computed, and no
    step has touched a slot outside its block. -/
theorem searchTree_run {t : KeyType} {n : Nat} {file : File} (plain : Plain t)
    (made : dbCreate t n = .ok file) (cs : List Call) (valid : ∀ c ∈ cs, c.Valid t n ∧ c.Grows) :
    ∃ s s' rs h, dbOpen file = some s ∧ run cs s = .ok (s', rs) ∧ SearchTree t n s' h := by
  obtain ⟨s, s', rs, h, V, F, opened, hrun, st, _⟩ := created_run plain made cs valid
  exact ⟨s, s', rs, h, opened, hrun, st.searchTree⟩

def afterSample (file : File) : Option (Nat × Nat × Bool) :=
  match run sampleCalls { db := file.head, file := file } with
  | .ok (s, _) => some (s.db.keyTotal, s.db.keyUseBlock, (s.file.disk headSize).leaf)
  | .error _ => none

theorem afterSample_spec {file : File} (made : dbCreate .bytesKey 128 = .ok file) {s s' : Db}
    {rs : List Reply} (opened : dbOpen file = some s) (hrun : run sampleCalls s = .ok (s', rs)) :
    s'.db.keyTotal = 57 ∧ s'.db.keyUseBlock = 3 ∧ (s'.file.disk headSize).leaf = false := by
  have eval : (dbCreate .bytesKey 128).toOption.bind afterSample = some (57, 3, false) := by
    decide +kernel
  have start : s = { db := file.head, file := file } := by
    simp only [dbOpen] at opened
    split at opened
    · cases opened
    · exact (Option.some.inj opened).symm
  rw [made, Except.toOption, Option.bind_some, afterSample, ← start, hrun] at eval
  simpa using eval

theorem searchTree_run_sample : ∃ file s s' rs h, dbCreate .bytesKey 128 = .ok file ∧
    dbOpen file = some s ∧ run sampleCalls s = .ok (s', rs) ∧ SearchTree .bytesKey 128 s' h ∧
    0 < h ∧ s'.db.keyTotal = 57 := by
  obtain ⟨file, made⟩ : ∃ file, dbCreate .bytesKey 128 = .ok file := ⟨_, rfl⟩
  obtain ⟨s, s', rs, h, opened, hrun, tree⟩ :=
    searchTree_run (.inr rfl) made sampleCalls sampleCalls_valid
  obtain ⟨keys, _, inner⟩ := afterSample_spec made opened hrun
  refine ⟨file, s, s', rs, h, made, opened, hrun, tree, ?_, keys⟩
  have leaf := tree.leaf
  rw [inner] at leaf
  exact Nat.pos_of_ne_zero (of_decide_eq_false leaf.symm)

/-! ### The account of the blocks -/

/-- The blocks of the file by role, and what the header says of them. -/
structure Accounted (s : Db) (K V F : List Nat) : Prop where
  size : ∃ n, s.file.size = headSize + blockSize * n
  blocks : (K ++ V ++ F).Perm (offsets s.file.size)
  key : ∀ x, x ∈ K ↔ Reached s.file.disk x
  keyBlock : ∀ x ∈ K, (s.file.disk x).use = true ∧ (s.file.disk x).type = .key
  value : ∀ x, x ∈ V ↔
    x ∈ offsets s.file.size ∧ (s.file.disk x).use = true ∧ (s.file.disk x).type = .value
  free : ∀ x ∈ F, (s.file.disk x).use = false
  chain : FreeChain s.file.disk s.db.free F
  acyclic : F.Nodup
  counted : ∀ v ∈ V, 1 ≤ (s.file.disk v).num ∧
    (s.file.disk v).num = (stored s.file.disk K).countP fun e => blockOf e.2 = v
  referenced : ∀ e ∈ stored s.file.disk K, blockOf e.2 ∈ V
  keyUse : s.db.keyUseBlock = K.length
  valueUse : s.db.valueUseBlock = V.length
  total : s.db.keyTotal = (stored s.file.disk K).length
  current : s.db.current = 0 ∨ s.db.current ∈ V
  head : s.file.head = s.db

section Stands
variable {κ : Type} [LinearOrder κ] {p : Shape} {O : KeyOrder κ p.keyType p.keySize}
    {s : Db} {h : Nat}
  {V F : List Nat}

theorem Stands.accounted (st : Stands O s h [] V F) :
    Accounted s (blocks s.file.disk h headSize) V F := by
  have part := st.tree.part
  have values := st.tree.values
  rw [List.append_nil] at part values
  have perm : (flat s.file.disk h headSize).Perm _ := flat_perm h headSize
  have free : F.Nodup := (List.nodup_append.mp part.nodup).2.1
  refine ⟨part.size, part.blocks, fun x => st.reached_iff.symm, part.keyBlock, fun x => ⟨?_, ?_⟩,
    part.freeBlock, part.chain, free, ?_, ?_, part.keyCount, part.valueCount, ?_, part.current,
    part.head⟩
  · exact fun mem => ⟨part.value_mem mem, part.valueBlock x mem⟩
  · rintro ⟨inFile, use, type⟩
    rcases part.mem.mp inFile with hk | hv | hf
    · rw [(part.keyBlock x hk).2] at type
      exact nomatch type
    · exact hv
    · rw [part.freeBlock x hf] at use
      exact nomatch use
  · intro v hv
    refine ⟨values.used v hv, ?_⟩
    rw [values.count v hv]
    exact perm.countP_eq _
  · exact fun e he => values.block e (perm.mem_iff.mpr he)
  · rw [st.total, perm.length_eq]

end Stands

/-- After every run each block has one role and the header counts them; so `db_checker`
    passes, and closing and opening again gives the same handle. -/
theorem accounted_run {t : KeyType} {n : Nat} {file : File} (plain : Plain t)
    (made : dbCreate t n = .ok file) (cs : List Call) (valid : ∀ c ∈ cs, c.Valid t n ∧ c.Grows) :
    ∃ s s' rs K V F, dbOpen file = some s ∧ run cs s = .ok (s', rs) ∧ Accounted s' K V F ∧
      dbChecker s' = 0 ∧ dbOpen (dbClose s') = some s' := by
  obtain ⟨s, s', rs, h, V, F, opened, hrun, st, _⟩ := created_run plain made cs valid
  exact ⟨s, s', rs, _, V, F, opened, hrun, st.accounted, st.checker, st.reopen⟩

theorem accounted_run_sample : ∃ file s s' rs K V F, dbCreate .bytesKey 128 = .ok file ∧
    dbOpen file = some s ∧ run sampleCalls s = .ok (s', rs) ∧ Accounted s' K V F ∧
    dbChecker s' = 0 ∧ dbOpen (dbClose s') = some s' ∧
    K.length = 3 ∧ (stored s'.file.disk K).length = 57 := by
  obtain ⟨file, made⟩ : ∃ file, dbCreate .bytesKey 128 = .ok file := ⟨_, rfl⟩
  obtain ⟨s, s', rs, K, V, F, opened, hrun, account, checked, reopened⟩ :=
    accounted_run (.inr rfl) made sampleCalls sampleCalls_valid
  obtain ⟨keys, blocks, _⟩ := afterSample_spec made opened hrun
  exact ⟨file, s, s', rs, K, V, F, made, opened, hrun, account, checked, reopened,
    account.keyUse.symm.trans blocks, account.total.symm.trans keys⟩

end FileDb
