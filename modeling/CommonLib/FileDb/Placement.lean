import CommonLib.FileDb.NoSpace

/- Where `db_insert` puts a value: past the others of its block and inside the block, as
   long as the sums it makes with the size of the value do not wrap. -/
namespace FileDb
open OrderedTree
variable {p : Shape}

/-! ### Where `E2BIG` comes from -/

def NotBig (run : Result (Db × Except Errno Int)) : Prop := ∀ s', run ≠ .ok (s', .error .E2BIG)

theorem NotBig.ok {r : Except Errno Int} (s : Db) (other : r ≠ .error .E2BIG) :
    NotBig (.ok (s, r)) := by
  intro s' eq
  exact other (Prod.mk.inj (Except.ok.inj eq)).2

theorem NotBig.bind {α : Type} (x : Result α) {f : α → Result (Db × Except Errno Int)}
    (rest : ∀ a, NotBig (f a)) : NotBig (x >>= f) := by
  cases x with
  | error fault => exact fun s' eq => nomatch eq
  | ok a => exact rest a

theorem NotBig.create (created : Option (Db × BtreeNode)) (s : Db)
    {f : Db → BtreeNode → Result (Db × Except Errno Int)} (rest : ∀ s node, NotBig (f s node)) :
    NotBig
      (match created with
        | none => .ok (s, .error .ENOMEM)
        | some (s, node) => f s node) := by
  cases created with
  | none => exact .ok s (by decide)
  | some made => exact rest made.1 made.2

theorem insertLeaf_notBig (grow : Nat → Bool) (key value : Bytes) (s : Db) (node : BtreeNode) :
    NotBig (insertLeaf grow key value s node) := by
  refine .bind _ fun i => ?_
  split
  · exact .ok s (by simp)
  · simp only
    split
    · exact .ok _ (by simp)
    · exact .bind _ fun valnode => .bind _ fun moved => .bind _ fun node => .ok _ (by simp)

theorem insertLoop_notBig (grow : Nat → Bool) (key value : Bytes) (fuel : Nat) (s : Db)
    (node : BtreeNode) :
    NotBig (insertLoop grow key value fuel s node) := by
  induction fuel generalizing s node with
  | zero => exact fun s' eq => nomatch eq
  | succ fuel ih =>
    simp only [insertLoop]
    split
    · exact insertLeaf_notBig grow key value s node
    · refine .bind _ fun i => ?_
      split
      · exact .ok s (by simp)
      · refine .bind _ fun slot => ?_
        split
        · exact ih _ _
        · refine .create _ s fun s subY => .bind _ fun parts => .bind _ fun up => ?_
          split
          · exact .ok _ (by simp)
          · split
            · exact ih _ _
            · exact ih _ _

theorem dbInsert_notBig (grow : Nat → Bool) (s : Db) (key : Bytes) {value : Bytes}
    (fits : ¬ blockSize < (nodeHead + valueRoom value.length) % sizeMod) :
        NotBig (dbInsert grow s key value) := by
  simp only [dbInsert, if_neg fits]
  split
  · exact .ok s (by decide)
  · split
    · refine .create _ s fun s subX => .create _ s fun s subY => ?_
      exact .bind _ fun node => .bind _ fun parts => insertLoop_notBig grow key value _ _ _
    · exact insertLoop_notBig grow key value _ _ _

/-! ### Where a value goes -/

def Holds (s : Db) (o : Nat) : Prop :=
  ∃ a, Reached s.file.disk a ∧ ∃ i < (s.file.disk a).num, ((s.file.disk a).slot i).value = o

def Absent (s : Db) (key : Bytes) : Prop :=
  ∀ a, Reached s.file.disk a → ∀ i < (s.file.disk a).num,
    keyCmp s.db.keyType key ((s.file.disk a).slot i).key s.db.keySize ≠ 0

/-- The insertion that leads from `s` to `s'` has written the length and the bytes of the
    value at `last` in the value block `v`, and a slot of the tree points there. -/
structure Placed (s s' : Db) (key value : Bytes) (v last : Nat) : Prop where
  block : v ∈ offsets s'.file.size ∧ (s'.file.disk v).use = true ∧ (s'.file.disk v).type = .value
  within : last + valueHead + value.length ≤ blockSize
  length : readSize (s'.file.disk v) last = value.length
  bytes : readValue (s'.file.disk v) last = value
  apart : ∀ o, Holds s o → blockOf o = v → o - v + valueHead + (valueAt s.file.disk o).length ≤ last
  next : (s'.file.disk v).last ≤ blockSize
  entry : ∃ a, Reached s'.file.disk a ∧ ∃ i < (s'.file.disk a).num,
    ((s'.file.disk a).slot i).value = v + last ∧
      ∃ old, ((s'.file.disk a).slot i).key = keyWrite s.db.keyType s.db.keySize old key

def PlacedOrRefused (s : Db) (key value : Bytes) (run : Result (Db × Except Errno Int)) : Prop :=
  run = .ok (s, .error .E2BIG) ∨ ∃ s' v last, run = .ok (s', .ok 1) ∧ Placed s s' key value v last

section Place
variable {s s' : Db} {h h' : Nat} {R R' V V' F F' : List Nat} {key value : Bytes}

theorem Landed.placed {b : BtreeNode} {e : Entry} {old : Bytes} (t : TreeAt p s h headSize R [] V F)
    (t' : TreeAt p s' h' headSize R' [] V' F') (acc : Accepted value)
    (landed : Landed value s s' V V' b)
    (mem : e ∈ flat s'.file.disk h' headSize) (offset : e.2 = b.self + b.last)
    (image : e.1 = keyWrite p.keyType p.keySize old key) : Placed s s' key value b.self b.last := by
  have has := t.part.has
  have room := acc.room
  have fit := landed.room
  have small : value.length ≤ blockSize := by omega
  refine ⟨⟨t'.part.value_mem landed.mem, t'.part.valueBlock _ landed.mem⟩, by omega, ?_, ?_, ?_,
    t'.values.last _ landed.mem, ?_⟩
  · rw [landed.new, withValue_size b small]
  · rw [landed.new, withValue_value b small]
  · intro o holds block
    obtain ⟨f, hf, rfl⟩ := (t.stored_iff fun e => e.2 = o).mp holds
    have mem : f ∈ flat s.file.disk h headSize ++ [] := by simpa using hf
    have inV : b.self ∈ V := block ▸ t.values.block f mem
    have within := t.values.room f mem
    rw [block, ← landed.old inV] at within
    have length : (valueAt s.file.disk f.2).length = readSize b (f.2 - b.self) := by
      rw [valueAt, block, ← landed.old inV, readValue, List.length_map, List.length_range]
    omega
  · obtain ⟨a, reached, i, hi, rfl⟩ := (t'.stored_iff (· = e)).mpr ⟨e, mem, rfl⟩
    exact ⟨a, reached, i, hi, offset, old, by rw [has.keyType, has.keySize]; exact image⟩

def Stuck (grow : Nat → Bool) (run : Result (Db × Except Errno Int)) : Prop :=
  (∃ s', run = .ok (s', .error .ENOMEM)) ∧ ∃ size, grow size = false

theorem dbInsert_placed (grow : Nat → Bool) (t : TreeAt p s h headSize R [] V F)
    (short : ¬ TooLong s.db key)
    (absent : Absent s key) (noWrap : Unwrapped value) :
    PlacedOrRefused s key value (dbInsert grow s key value) ∨
        Stuck grow (dbInsert grow s key value) := by
  by_cases big : blockSize < (nodeHead + valueRoom value.length) % sizeMod
  · exact .inl (.inl (dbInsert_big grow short big))
  have acc : Accepted value := accepted_iff.mpr ⟨noWrap, big⟩
  have has := t.part.has
  obtain ⟨s', r, h', R', V', F', run, t', _, _, _, arrived⟩ := dbInsert_arrives grow t short acc
  rw [run]
  cases arrived with
  | present e mem zero =>
    rw [← has.keyType, ← has.keySize] at zero
    obtain ⟨a, reached, i, hi, rfl⟩ := (t.stored_iff (· = e)).mpr ⟨e, mem, rfl⟩
    exact absurd zero (absent a reached i hi)
  | stored b landed e mem offset old image =>
    exact .inl (.inr ⟨s', b.self, b.last, rfl, landed.placed t t' acc mem offset image⟩)
  | full same m stuck total => exact .inr ⟨⟨s', rfl⟩, m, stuck⟩

/-- A size that wraps is neither refused nor stored. -/
theorem unwrapped_of_placed {grow : Nat → Bool} (size : value.length < sizeMod)
    (done : PlacedOrRefused s key value (dbInsert grow s key value)) : Unwrapped value := by
  by_contra wraps
  rcases done with refused | ⟨s', v, last, _, placed⟩
  · exact dbInsert_notBig grow s key (wrapped_fits size wraps) s refused
  · exact wrapped_long wraps last placed.within

end Place

/-! ### A size that wraps -/

theorem Fresh.absent {file : File} (fresh : Fresh p file) (key : Bytes) :
    Absent { db := file.head, file := file } key := by
  intro a reached i hi zero
  obtain ⟨e, he, _⟩ := (fresh.tree.stored_iff fun _ => True).mp ⟨a, reached, i, hi, trivial⟩
  rw [fresh.empty] at he
  exact absurd he List.not_mem_nil

theorem Fresh.overruns {file : File} (fresh : Fresh p file) {key value : Bytes}
    (short : ¬ TooLong file.head key) (size : value.length < sizeMod) (wraps : ¬ Unwrapped value) :
    dbInsert always { db := file.head, file := file } key value = .error .value := by
  have t := fresh.tree
  have order := p.order.1
  have num : (file.disk headSize).num = 0 := by rw [fresh.root]; rfl
  have leaf : (file.disk headSize).leaf = true := by rw [fresh.root]
  have root : nodeSeek { db := file.head, file := file } (.zero file.head 0) headSize =
    file.disk headSize :=
    t.seek (by simp [blocks]) _
  have bytes : file.size = (headSize + blockSize - 1) + 1 := fresh.size
  have grows : ∀ size, always size = true := fun _ => rfl
  obtain ⟨s1, x, F1, created, _⟩ := nodeCreate_value t.part false (.inr (grows file.size))
  have chosen : chooseValueBlock always { db := file.head, file := file } value.length =
      (s1, some (freshNode file.head x false .value)) := by
    simp only [chooseValueBlock, fresh.current, ne_eq, not_true_eq_false, false_and,
      ↓reduceIte, created]
  have copy : storeValue (freshNode file.head x false .value) value = .error .value := by
    have long := wrapped_long wraps (freshNode file.head x false .value).last
    rw [storeValue, if_pos (by omega)]
  have M : ¬ file.head.M - 1 ≤ 0 := by
    have same := fresh.has.M
    omega
  simp only [dbInsert]
  rw [if_neg short, if_neg (wrapped_fits size wraps), root, num, if_neg M, bytes]
  simp only [insertLoop, leaf, ↓reduceIte, insertLeaf, keyBinarySearch_empty file.head num, bind,
    Except.bind]
  rw [if_neg (by omega), chosen]
  simp only [copy]

/-- With the length word the largest size comes to 7, which is rounded up to 16. -/
theorem largest_not_placed : ∃ file s, dbCreate .bytesKey 4 = .ok file ∧ dbOpen file = some s ∧
    Absent s [1, 2, 3, 4] ∧
    dbInsert always s [1, 2, 3, 4] (List.replicate (2 ^ 64 - 1) 0) = .error .value ∧
    ¬ PlacedOrRefused s [1, 2, 3, 4] (List.replicate (2 ^ 64 - 1) 0)
      (dbInsert always s [1, 2, 3, 4] (List.replicate (2 ^ 64 - 1) 0)) := by
  obtain ⟨value, eq⟩ : ∃ value : Bytes, value = List.replicate (2 ^ 64 - 1) 0 := ⟨_, rfl⟩
  have length : value.length = 2 ^ 64 - 1 := by rw [eq, List.length_replicate]
  have size : value.length < sizeMod := by simp only [sizeMod]; omega
  have wraps : ¬ Unwrapped value := by
    simp only [Unwrapped, nodeHead, valueHead, alignment, sizeMod]
    omega
  obtain ⟨file, made⟩ : ∃ file, dbCreate .bytesKey 4 = .ok file := ⟨_, rfl⟩
  have fresh := dbCreate_fresh made ⟨.bytesKey, 4, dbCreate_ok made⟩ rfl rfl
  have valid : ValidKey .bytesKey 4 [1, 2, 3, 4] := Nat.le_refl 4
  have short : ¬ TooLong file.head [1, 2, 3, 4] :=
    ValidKey.short (s := { db := file.head, file := file }) fresh.has valid
  have overruns := fresh.overruns short size wraps
  rw [← eq]
  refine ⟨file, _, made, fresh.tree.reopen fresh.counted, fresh.absent _, overruns, fun done => ?_⟩
  exact wraps (unwrapped_of_placed size done)

/-! ### Every state -/

/-- In every state that a new database can reach with sizes that do not wrap: the insertion
    of an absent key refuses the size or places the value just when the size does not wrap.
    Where the file cannot grow the third outcome is -1 with `ENOMEM`. -/
theorem dbInsert_placed_iff {t : KeyType} {n : Nat} {file : File} (made : dbCreate t n = .ok file)
    (cs : List Call) (sized : ∀ c ∈ cs, c.Sized t n) :
    ∃ s s' rs, dbOpen file = some s ∧ run cs s = .ok (s', rs) ∧
      ∀ grow key value, ValidKey t n key → Absent s' key → value.length < sizeMod →
        ((∀ size, grow size = true) →
          (PlacedOrRefused s' key value (dbInsert grow s' key value) ↔ Unwrapped value)) ∧
        (Unwrapped value → PlacedOrRefused s' key value (dbInsert grow s' key value) ∨
          Stuck grow (dbInsert grow s' key value)) := by
  have fresh := dbCreate_fresh made ⟨t, n, dbCreate_ok made⟩ rfl rfl
  have tree := fresh.tree
  obtain ⟨s', rs, h, R, V, F, hrun, tree'⟩ := run_keeps cs tree sized
  refine ⟨_, s', rs, tree.reopen fresh.counted, hrun, fun grow key value valid absent size => ?_⟩
  have short := ValidKey.short tree'.part.has valid
  refine ⟨fun grows => ⟨unwrapped_of_placed size, fun noWrap => ?_⟩,
    dbInsert_placed grow tree' short absent⟩
  rcases dbInsert_placed grow tree' short absent noWrap with done | ⟨_, m, stuck⟩
  · exact done
  · rw [grows m] at stuck
    exact nomatch stuck

theorem absent_of_leaf {s : Db} {key : Bytes} (leaf : (s.file.disk headSize).leaf = true)
    (other : ∀ i < (s.file.disk headSize).num,
      keyCmp s.db.keyType key ((s.file.disk headSize).slot i).key s.db.keySize ≠ 0) :
          Absent s key := by
  intro a reached
  have root : a = headSize := by
    induction reached with
    | root => rfl
    | child parent inner le ih =>
      rw [ih, leaf] at inner
      exact nomatch inner
  exact root ▸ other

theorem dbInsert_placed_sample : ∃ file s s', dbCreate .bytesKey 4 = .ok file ∧
    dbOpen file = some s ∧
    run [.insert always [1, 2, 3, 4] [7]] s = .ok (s', [.status (.ok 1)]) ∧
    PlacedOrRefused s' [1, 2, 3, 5] [8] (dbInsert always s' [1, 2, 3, 5] [8]) := by
  have key : ValidKey .bytesKey 4 [1, 2, 3, 4] := Nat.le_refl 4
  have next : ValidKey .bytesKey 4 [1, 2, 3, 5] := Nat.le_refl 4
  have small (b : UInt8) : Unwrapped [b] := by
    simp [Unwrapped, nodeHead, valueHead, alignment, sizeMod]
  -- the state after the first insertion
  obtain ⟨file, s1, made, run1, leaf, num, other⟩ : ∃ file s1, dbCreate .bytesKey 4 = .ok file ∧
      run [.insert always [1, 2, 3, 4] [7]] { db := file.head, file := file } =
        .ok (s1, [.status (.ok 1)]) ∧
      (s1.file.disk headSize).leaf = true ∧ (s1.file.disk headSize).num = 1 ∧
      keyCmp s1.db.keyType [1, 2, 3, 5] ((s1.file.disk headSize).slot 0).key s1.db.keySize = 1 :=
    ⟨_, _, rfl, rfl, rfl, rfl, rfl⟩
  have absent : Absent s1 [1, 2, 3, 5] := by
    refine absent_of_leaf leaf fun i hi => ?_
    obtain rfl : i = 0 := by omega
    rw [other]
    decide
  obtain ⟨s, s', rs, opened, hrun, all⟩ :=
    dbInsert_placed_iff made [.insert always [1, 2, 3, 4] [7]]
      (by simpa [Call.Sized] using ⟨key, small 7⟩)
  have same : s = { db := file.head, file := file } := by
    simp only [dbOpen] at opened
    split at opened
    · cases opened
    · exact (Option.some.inj opened).symm
  rw [same, run1] at hrun
  obtain ⟨rfl, -⟩ := Prod.mk.inj (Except.ok.inj hrun)
  refine ⟨file, s, s1, made, opened, same ▸ run1, ?_⟩
  exact ((all _ [1, 2, 3, 5] [8] next absent (by simp [sizeMod])).1 fun _ => rfl).mpr (small 8)

end FileDb
