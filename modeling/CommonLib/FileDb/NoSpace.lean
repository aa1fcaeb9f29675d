import CommonLib.FileDb.Invariants
import CommonLib.FileDb.AnyOrder

/- Insertions for which the file cannot grow. They end with -1 and leave the stored
   pairs alone; a block is lost when only the second half of a root split fails. -/
namespace FileDb
open OrderedTree

/-! ### A refusal is the only way to notice -/

def always : Nat → Bool := fun _ => true

theorem takeBlock_always (grow : Nat → Bool) (s : Db) :
    takeBlock grow s = none ∨ takeBlock grow s = takeBlock always s := by
  simp only [takeBlock, always]
  split
  · exact .inr rfl
  · split
    · exact .inr rfl
    · exact .inl rfl

theorem nodeCreate_always (grow : Nat → Bool) (s : Db) (leaf : Bool) (type : NodeType) :
    nodeCreate grow s leaf type = none ∨
        nodeCreate grow s leaf type = nodeCreate always s leaf type := by
  rcases takeBlock_always grow s with none | same
  · left
    rw [nodeCreate, none, Option.map_none]
  · right
    rw [nodeCreate, nodeCreate, same]

theorem chooseValueBlock_always (grow : Nat → Bool) (s : Db) (valueSize : Nat) :
    (chooseValueBlock grow s valueSize).2 = none ∨
      chooseValueBlock grow s valueSize = chooseValueBlock always s valueSize := by
  simp only [chooseValueBlock]
  generalize (if s.db.current ≠ 0 ∧ blockSize < ((nodeSeek s (.zero s.db 0) s.db.current).last +
    valueRoom valueSize) % sizeMod then headFlush { s with db :=
      { s.db with current := 0 } } else s) = s1
  split
  · rcases nodeCreate_always grow s1 false .value with none | same
    · left
      rw [none]
    · right
      rw [same]
  · exact .inr rfl

def Unaffected (run run' : Result (Db × Except Errno Int)) : Prop :=
  (∃ s', run = .ok (s', .error .ENOMEM)) ∨ run = run'

theorem Unaffected.refl (run : Result (Db × Except Errno Int)) : Unaffected run run := .inr rfl

theorem Unaffected.bind {α : Type} (x : Result α) {f f' : α → Result (Db × Except Errno Int)}
    (rest : ∀ a, Unaffected (f a) (f' a)) : Unaffected (x >>= f) (x >>= f') := by
  cases x with
  | error fault => exact .inr rfl
  | ok a => exact rest a

theorem Unaffected.create (grow : Nat → Bool) (s : Db) (leaf : Bool)
    {f f' : Db → BtreeNode → Result (Db × Except Errno Int)}
    (rest : ∀ s node, Unaffected (f s node) (f' s node)) :
    Unaffected
      (match nodeCreate grow s leaf .key with
        | none => .ok (s, .error .ENOMEM)
        | some (s, node) => f s node)
      (match nodeCreate always s leaf .key with
        | none => .ok (s, .error .ENOMEM)
        | some (s, node) => f' s node) := by
  rcases nodeCreate_always grow s leaf .key with none | same
  · left
    rw [none]
    exact ⟨s, rfl⟩
  · rw [same]
    cases nodeCreate always s leaf .key with
    | none => exact .inr rfl
    | some made => exact rest made.1 made.2

theorem insertLeaf_always (grow : Nat → Bool) (key value : Bytes) (s : Db) (node : BtreeNode) :
    Unaffected (insertLeaf grow key value s node) (insertLeaf always key value s node) := by
  refine .bind _ fun i => ?_
  split
  · exact .refl _
  · rcases chooseValueBlock_always grow s value.length with none | same
    · left
      cases chosen : chooseValueBlock grow s value.length with
      | mk s1 block =>
        obtain rfl : block = Option.none := by rw [chosen] at none; exact none
        exact ⟨s1, rfl⟩
    · right
      rw [same]

theorem insertLoop_always (grow : Nat → Bool) (key value : Bytes) (fuel : Nat) (s : Db)
    (node : BtreeNode) :
    Unaffected (insertLoop grow key value fuel s node)
        (insertLoop always key value fuel s node) := by
  induction fuel generalizing s node with
  | zero => exact .refl _
  | succ fuel ih =>
    simp only [insertLoop]
    split
    · exact insertLeaf_always grow key value s node
    · refine .bind _ fun i => ?_
      split
      · exact .refl _
      · refine .bind _ fun slot => ?_
        split
        · exact ih _ _
        · refine .create grow s _ fun s subY => .bind _ fun parts => .bind _ fun up => ?_
          split
          · exact .refl _
          · split
            · exact ih _ _
            · exact ih _ _

theorem dbInsert_always (grow : Nat → Bool) (s : Db) (key value : Bytes) :
    Unaffected (dbInsert grow s key value) (dbInsert always s key value) := by
  simp only [dbInsert]
  split
  · exact .refl _
  · split
    · exact .refl _
    · split
      · refine .create grow s _ fun s subX => .create grow s _ fun s subY => ?_
        exact .bind _ fun node => .bind _ fun parts => insertLoop_always grow key value _ _ _
      · exact insertLoop_always grow key value _ _ _

/-! ### One refused insertion -/

def HasPair (s : Db) (key value : Bytes) : Prop :=
  ∃ a, Reached s.file.disk a ∧ ∃ i < (s.file.disk a).num,
    ((s.file.disk a).slot i).key = key ∧
      valueAt s.file.disk ((s.file.disk a).slot i).value = value

/-- How an insertion should end that a block was refused. -/
structure Refusal (s s' : Db) (r : Except Errno Int) : Prop where
  result : r = .error .ENOMEM
  same : ∀ key value, HasPair s' key value ↔ HasPair s key value
  total : s'.db.keyTotal = s.db.keyTotal
  kept : ∀ x, ¬ Leaked s' x

section Tree
variable {p : Shape} {grow : Nat → Bool} {key value : Bytes} {s s' : Db} {h h' : Nat}
  {R V V' F F' : List Nat} {r : Except Errno Int}

theorem TreeAt.hasPair_iff (t : TreeAt p s h headSize R [] V F) (key value : Bytes) :
    HasPair s key value ↔
      ∃ e ∈ flat s.file.disk h headSize, e.1 = key ∧ valueAt s.file.disk e.2 = value :=
  t.stored_iff fun e => e.1 = key ∧ valueAt s.file.disk e.2 = value

theorem Arrived.refused {es es' : List Entry}
    (arrived : Arrived grow key value p s s' V V' es es' (.error .ENOMEM)) :
    es' = es ∧ s'.db.keyTotal = s.db.keyTotal ∧ ∃ size, grow size = false := by
  cases arrived with
  | full same m stuck total => exact ⟨same, total, m, stuck⟩

/-- An insertion ends with -1 just when a block was refused. -/
theorem refused_iff (t : TreeAt p s h headSize R [] V F) (short : ¬ TooLong s.db key)
    (acc : Accepted value) (run : dbInsert grow s key value = .ok (s', r)) :
    r = .error .ENOMEM ↔ dbInsert grow s key value ≠ dbInsert always s key value := by
  obtain ⟨s1, r1, _, _, _, _, run1, _, _, _, _, arrived⟩ := dbInsert_arrives always t short acc
  constructor
  · rintro rfl same
    rw [run, run1] at same
    obtain ⟨rfl, rfl⟩ := Prod.mk.inj (Except.ok.inj same)
    obtain ⟨_, _, n, stuck⟩ := arrived.refused
    exact nomatch stuck
  · intro differs
    obtain ⟨s2, refused⟩ := (dbInsert_always grow s key value).resolve_right differs
    rw [run] at refused
    exact (Prod.mk.inj (Except.ok.inj refused)).2

theorem TreeAt.same_pairs (t : TreeAt p s h headSize R [] V F) {R' : List Nat}
    (t' : TreeAt p s' h' headSize R' [] V' F')
    (same : flat s'.file.disk h' headSize = flat s.file.disk h headSize)
    (values : ∀ e ∈ flat s.file.disk h headSize,
      valueAt s'.file.disk e.2 = valueAt s.file.disk e.2) (key value : Bytes) :
    HasPair s' key value ↔ HasPair s key value := by
  rw [t.hasPair_iff, t'.hasPair_iff, same]
  constructor
  · rintro ⟨e, he, name, rfl⟩
    exact ⟨e, he, name, (values e he).symm⟩
  · rintro ⟨e, he, name, rfl⟩
    exact ⟨e, he, name, values e he⟩

/-! ### Runs that lose no block -/

/-- No call of the run meets a full root with room for one more block only. -/
def KeepsBlocks : List Call → Db → Prop
  | [], _ => True
  | c :: cs, s => ¬ c.Leaks s ∧ ∀ s' r, step s c = .ok (s', r) → KeepsBlocks cs s'

theorem Call.Valid.sized {t : KeyType} {n : Nat} {c : Call} (valid : c.Valid t n) :
    c.Sized t n := by
  cases c with
  | insert grow key value => exact ⟨valid.1, (accepted_iff.mp valid.2).1⟩
  | delete key => exact valid
  | search key valueSize => exact valid

theorem run_trees (cs : List Call) (t : TreeAt p s h headSize [] [] V F)
    (valid : ∀ c ∈ cs, c.Valid p.keyType p.keySize) (keeps : KeepsBlocks cs s) :
    ∃ s' rs h' V' F', run cs s = .ok (s', rs) ∧ TreeAt p s' h' headSize [] [] V' F' := by
  induction cs generalizing s h V F with
  | nil => exact ⟨s, [], h, V, F, rfl, t⟩
  | cons c cs ih =>
    obtain ⟨notNow, later⟩ := keeps
    obtain ⟨s1, r, h1, R1, V1, F1, step1, t1, kept⟩ := step_keeps t (valid c List.mem_cons_self).sized
    obtain rfl := kept notNow
    obtain ⟨s', rs, h', V', F', run', t'⟩ :=
      ih t1 (fun d hd => valid d (List.mem_cons_of_mem _ hd)) (later s1 r step1)
    refine ⟨s', r :: rs, h', V', F', ?_, t'⟩
    simp only [run, step1, run', bind, Except.bind]
    rfl

end Tree

/-! ### What a search finds after a refusal -/

section Stands
variable {κ : Type} [LinearOrder κ] {p : Shape} {O : KeyOrder κ p.keyType p.keySize}
  {key : Bytes} {s s' : Db} {h h' : Nat} {R R' V V' F F' : List Nat}

theorem found_contents (O : KeyOrder κ p.keyType p.keySize) (disk : Nat → BtreeNode) (key : Bytes)
    (valueSize : Nat) (es : List Entry) :
    found O disk key valueSize es =
      match contents O disk es (O.rank key) with
      | none => .error .ENOMSG
      | some v => if valueSize < v.length then .error .E2BIG else .ok v := by
  rw [found, contents]
  cases lookup O.entryRank es (O.rank key) with
  | none => rfl
  | some e => rfl

/-- Where the comparator orders the keys, the same entries give the same answers. -/
theorem search_same (st : Stands O s h R V F) (t' : TreeAt p s' h' headSize R' [] V' F')
    (same : flat s'.file.disk h' headSize = flat s.file.disk h headSize)
    (total : s'.db.keyTotal = s.db.keyTotal)
    (values : ∀ e ∈ flat s.file.disk h headSize,
      valueAt s'.file.disk e.2 = valueAt s.file.disk e.2)
    (arg : O.arg key) (valueSize : Nat) : dbSearch s' key valueSize = dbSearch s key valueSize := by
  have st' : Stands O s' h' R' V' F' := by
    refine ⟨t', same.symm ▸ st.sorted, ?_⟩
    rw [total, same]
    exact st.total
  rw [dbSearch_spec st arg, dbSearch_spec st' arg, found_contents, found_contents, same,
    contents_congr values]

theorem run_stands (cs : List Call) (st : Stands O s h [] V F) (ok : ∀ c ∈ cs, c.Ok O)
    (keeps : KeepsBlocks cs s) :
    ∃ s' rs h' V' F', run cs s = .ok (s', rs) ∧ Stands O s' h' [] V' F' := by
  induction cs generalizing s h V F with
  | nil => exact ⟨s, [], h, V, F, rfl, st⟩
  | cons c cs ih =>
    obtain ⟨notNow, later⟩ := keeps
    obtain ⟨s1, r, h1, R1, V1, F1, step1, st1, lost, _⟩ := step_spec st c (ok c List.mem_cons_self)
    obtain rfl := lost notNow
    obtain ⟨s', rs, h', V', F', run', st'⟩ :=
      ih st1 (fun d hd => ok d (List.mem_cons_of_mem _ hd)) (later s1 r step1)
    refine ⟨s', r :: rs, h', V', F', ?_, st'⟩
    simp only [run, step1, run', bind, Except.bind]
    rfl

end Stands

/-- With keys of any type: in a run that avoids the half-made root split no block is lost, and the
    next insertion that a block is refused ends as it should if and only if it avoids it too. Where
    the comparator orders the keys, no search tells the state after it from the one before. -/
theorem refusal_iff {t : KeyType} {n : Nat} {file : File} {s s1 : Db} {rs : List Reply}
    (made : dbCreate t n = .ok file) (opened : dbOpen file = some s) (cs : List Call)
    (valid : ∀ c ∈ cs, c.Valid t n) (keeps : KeepsBlocks cs s) (hrun : run cs s = .ok (s1, rs))
    (grow : Nat → Bool) (key value : Bytes) (call : (Call.insert grow key value).Valid t n) :
    (∀ x, ¬ Leaked s1 x) ∧ ∃ s2 r, dbInsert grow s1 key value = .ok (s2, r) ∧
      (r = .error .ENOMEM ↔ dbInsert grow s1 key value ≠ dbInsert always s1 key value) ∧
      (r = .error .ENOMEM → (Refusal s1 s2 r ↔ ¬ Leaks grow s1) ∧
        (Plain t → ∀ key valueSize, ValidKey t n key →
          dbSearch s2 key valueSize = dbSearch s1 key valueSize)) := by
  have fresh := dbCreate_fresh made ⟨t, n, dbCreate_ok made⟩ rfl rfl
  obtain rfl : _ = s := Option.some.inj ((fresh.tree.reopen fresh.counted).symm.trans opened)
  obtain ⟨s1', rs', h, V, F, hrun', t1⟩ := run_trees cs fresh.tree valid keeps
  obtain ⟨rfl, rfl⟩ := Prod.mk.inj (Except.ok.inj (hrun'.symm.trans hrun))
  obtain ⟨arg, acc⟩ := call
  have short := ValidKey.short t1.part.has arg
  obtain ⟨s2, r, h2, R2, V2, F2, run2, t2, kept, lost, values, arrived⟩ :=
    dbInsert_arrives grow t1 short acc
  refine ⟨fun x leak => by simpa using t1.leaked_iff.mp leak, s2, r, run2,
    refused_iff t1 short acc run2, ?_⟩
  rintro rfl
  obtain ⟨same, totals, _⟩ := arrived.refused
  refine ⟨⟨?_, ?_⟩, ?_⟩
  · intro ended leak
    obtain ⟨x, rfl⟩ := lost leak
    exact ended.kept x (t2.leaked_iff.mpr List.mem_cons_self)
  · intro avoids
    obtain rfl := kept avoids
    exact ⟨rfl, t1.same_pairs t2 same values, totals,
      fun x leak => by simpa using t2.leaked_iff.mp leak⟩
  · intro plain key valueSize valid'
    -- the run seen once more, with its keys in order
    obtain ⟨s1', rs', h', V', F', hrun', st1⟩ := run_stands cs (fresh.stands (plainOrder t n plain))
      (fun c hc => Call.ok_of_valid plain (valid c hc)) keeps
    obtain ⟨rfl, rfl⟩ := Prod.mk.inj (Except.ok.inj (hrun'.symm.trans hrun))
    obtain ⟨s2', r', h2', R2', V2', F2', run2', t2', _, _, values', arrived'⟩ :=
      dbInsert_arrives grow st1.tree short acc
    obtain ⟨rfl, rfl⟩ := Prod.mk.inj (Except.ok.inj (run2'.symm.trans run2))
    obtain ⟨same', totals', _⟩ := arrived'.refused
    exact search_same st1 t2' same' totals' values' (ValidKey.arg valid' plain) valueSize

/-! ### A value block refused, and a root split half made -/

instance (grow : Nat → Bool) (s : Db) : Decidable (OneBlockLeft grow s) := by
  unfold OneBlockLeft
  infer_instance

instance (grow : Nat → Bool) (s : Db) : Decidable (Leaks grow s) :=
  inferInstanceAs (Decidable (_ ∧ _))

def refusedAfter (cs : List Call) (grow : Nat → Bool) (key value : Bytes) (leak : Bool)
    (file : File) :
    Bool :=
  match run cs { db := file.head, file := file } with
  | .error _ => false
  | .ok (s1, _) =>
    match dbInsert grow s1 key value with
    | .ok (_, .error .ENOMEM) => decide (Leaks grow s1) == leak
    | _ => false

theorem refusedAfter_spec {cs : List Call} {grow : Nat → Bool} {key value : Bytes} {leak : Bool}
    {file : File} (eval : refusedAfter cs grow key value leak file = true) :
    ∃ s1 rs s2, run cs { db := file.head, file := file } = .ok (s1, rs) ∧
      dbInsert grow s1 key value = .ok (s2, .error .ENOMEM) ∧ decide (Leaks grow s1) = leak := by
  simp only [refusedAfter] at eval
  split at eval
  · exact nomatch eval
  · next s1 rs run =>
    split at eval
    · next s2 refused => exact ⟨s1, rs, s2, run, refused, by simpa using eval⟩
    · exact nomatch eval

theorem KeepsBlocks.of_grows (cs : List Call) (grows : ∀ c ∈ cs, c.Grows) (s : Db) :
    KeepsBlocks cs s := by
  induction cs generalizing s with
  | nil => trivial
  | cons c cs ih =>
    exact ⟨(grows c List.mem_cons_self).not_leaks s,
      fun s' _ _ => ih (fun d hd => grows d (List.mem_cons_of_mem _ hd)) s'⟩

theorem refusal_iff_sample : ∃ file s s1 rs s2, dbCreate .int32Key 4 = .ok file ∧
    dbOpen file = some s ∧
    run [.insert always [1, 0, 0, 128] [7]] s = .ok (s1, rs) ∧
    dbInsert (fun _ => false) s1 [2, 0, 0, 0] (List.replicate 8150 0) = .ok (s2, .error .ENOMEM) ∧
    Refusal s1 s2 (.error .ENOMEM) := by
  obtain ⟨file, made⟩ : ∃ file, dbCreate .int32Key 4 = .ok file := ⟨_, rfl⟩
  have valid : ∀ c ∈ [Call.insert always [1, 0, 0, 128] [7]], c.Valid .int32Key 4 := by
    intro c hc
    obtain rfl := List.mem_singleton.mp hc
    exact ⟨Nat.le_refl 4, accepted_of_length (by decide)⟩
  have accepted : Accepted (List.replicate 8150 0) :=
    accepted_of_length (by rw [List.length_replicate]; decide)
  have eval : (dbCreate .int32Key 4).toOption.any
      (refusedAfter [.insert always [1, 0, 0, 128] [7]]
        (fun _ => false) [2, 0, 0, 0] (List.replicate 8150 0) false) = true := by decide +kernel
  rw [made] at eval
  obtain ⟨s1, rs, s2, hrun, refused, keeps⟩ := refusedAfter_spec eval
  have fresh := dbCreate_fresh made ⟨_, _, dbCreate_ok made⟩ rfl rfl
  have opened := fresh.tree.reopen fresh.counted
  obtain ⟨_, s2', r, run2, _, iff⟩ := refusal_iff made opened _ valid
    (.of_grows _ (by simp [Call.Grows, always]) _) hrun (fun _ => false) [2, 0, 0, 0]
    (List.replicate 8150 0) ⟨Nat.le_refl 4, accepted⟩
  obtain ⟨rfl, rfl⟩ := Prod.mk.inj (Except.ok.inj (refused.symm.trans run2))
  exact ⟨file, _, s1, rs, s2, made, opened, hrun, refused,
    (iff rfl).1.mpr (of_decide_eq_false keeps)⟩

/-- With room for one block beside the root and the value block, the first half of the
    root split keeps the block it got: it is in use, and nothing refers to it. -/
theorem lostBlock_sample : ∃ file s s1 rs s2 x, dbCreate .bytesKey 128 = .ok file ∧
    dbOpen file = some s ∧
    run fillRoot s = .ok (s1, rs) ∧
    dbInsert (fun size => size == 20480) s1 (longKey 54) [7] = .ok (s2, .error .ENOMEM) ∧
    Leaked s2 x := by
  obtain ⟨file, made⟩ : ∃ file, dbCreate .bytesKey 128 = .ok file := ⟨_, rfl⟩
  have eval : (dbCreate .bytesKey 128).toOption.any
    (refusedAfter fillRoot (fun size => size == 20480)
      (longKey 54) [7] true) = true := by decide +kernel
  rw [made] at eval
  obtain ⟨s1, rs, s2, hrun, refused, leak⟩ := refusedAfter_spec eval
  have fresh := dbCreate_fresh made ⟨_, _, dbCreate_ok made⟩ rfl rfl
  obtain ⟨s1', rs', h, V, F, hrun', t1⟩ :=
    run_trees fillRoot fresh.tree (fun c hc => (insertKeys_valid 54 c hc).1)
      (.of_grows _ (fun c hc => (insertKeys_valid 54 c hc).2) _)
  obtain ⟨rfl, rfl⟩ := Prod.mk.inj (Except.ok.inj (hrun'.symm.trans hrun))
  have acc : Accepted [7] := accepted_of_length (by decide)
  obtain ⟨s2', r, h2, R2, V2, F2, run2, t2, _, lost, _⟩ :=
    dbInsert_arrives (fun size => size == 20480) t1 (ValidKey.short t1.part.has (longKey_valid 54)) acc
  obtain ⟨rfl, rfl⟩ := Prod.mk.inj (Except.ok.inj (refused.symm.trans run2))
  obtain ⟨x, rfl⟩ := lost (of_decide_eq_true leak)
  exact ⟨file, _, s1', rs', s2, x, made, fresh.tree.reopen fresh.counted, hrun', refused,
    t2.leaked_iff.mpr List.mem_cons_self⟩

end FileDb
