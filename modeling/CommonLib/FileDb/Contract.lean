import CommonLib.FileDb.Runs

/- The calls of a program that respects the interface, on a database fresh from
   `db_create`: they are the operations of a finite map. -/
namespace FileDb
open OrderedTree

/-! ### A new database -/

theorem dbCreate_ok {t : KeyType} {n : Nat} {file : File} (made : dbCreate t n = .ok file) :
    keySizeOk t n = true := by
  cases valid : keySizeOk t n with
  | true => rfl
  | false => simp [dbCreate, valid] at made

structure Fresh (p : Shape) (file : File) : Prop where
  has : file.head.Has p
  size : file.size = headSize + blockSize
  total : file.head.keyTotal = 0
  keyUse : file.head.keyUseBlock = 1
  valueUse : file.head.valueUseBlock = 0
  free : file.head.free = 0
  current : file.head.current = 0
  root : file.disk headSize = { BtreeNode.zero file.head headSize with leaf := true, use := true }

theorem dbCreate_fresh {t : KeyType} {n : Nat} {file : File} (made : dbCreate t n = .ok file)
    (p : Shape) (type : p.keyType = t) (size : p.keySize = n) : Fresh p file := by
  have align : p.keyAlign = dbAlign (keyHead + n) alignment := by rw [Shape.keyAlign, size]
  have order : p.M = (blockSize - nodeHead) / dbAlign (keyHead + n) alignment - 1 := by
    rw [Shape.M, align]
  simp only [dbCreate, dbCreate_ok made, Bool.true_eq_false, ↓reduceIte] at made
  split at made
  · cases made
  · split at made
    · cases made
    · obtain rfl := Except.ok.inj made
      exact ⟨⟨type.symm, size.symm, align.symm, order.symm⟩, rfl, rfl, rfl, rfl, rfl, rfl, rfl⟩

theorem offsets_one : offsets (headSize + blockSize) = [headSize] := by
  have one : (headSize + blockSize - headSize) / blockSize = 1 := by simp only [headSize, blockSize]
  rw [offsets, one]
  rfl

section Fresh
variable {κ : Type} [LinearOrder κ] {p : Shape} {file : File}

theorem Fresh.empty (fresh : Fresh p file) : flat file.disk 0 headSize = [] := by
  rw [flat, flatOf, entries, fresh.root]
  rfl

theorem Fresh.tree (fresh : Fresh p file) :
    TreeAt p { db := file.head, file := file } 0 headSize [] [] [] [] := by
  have kids : kids (file.disk headSize) = [0] := by
    rw [kids, fresh.root]
    rfl
  have order := p.order.1
  refine ⟨⟨fresh.has, ⟨1, ?_⟩, ?_, ?_, ?_, ?_, ?_, fresh.free, rfl, ?_, ?_, .inl fresh.current⟩, ?_,
    ?_, ?_, ?_, ?_⟩
  · simp only [fresh.size, Nat.mul_one]
  · simp only [fresh.size, offsets_one]
    simp [blocks, blocksOf]
  · intro x hx
    simp only [fresh.size, offsets_one, List.mem_singleton] at hx
    rw [hx, fresh.root]
    rfl
  · intro k hk
    have : k = headSize := by simpa [blocks, blocksOf] using hk
    rw [this, fresh.root]
    exact ⟨rfl, rfl⟩
  · simp
  · simp
  · simp [blocks, blocksOf, fresh.keyUse]
  · simp [fresh.valueUse]
  · rw [fresh.empty]
    exact ⟨by simp, by simp, by simp, by simp, by simp⟩
  · simp only [fresh.root]
    rfl
  · simp only [fresh.root, BtreeNode.zero]
    omega
  · simp
  · intro c hc
    rw [kids] at hc
    simpa using hc

theorem Fresh.counted (fresh : Fresh p file) :
    file.head.keyTotal = (flat file.disk 0 headSize).length := by
  rw [fresh.empty]
  exact fresh.total

theorem Fresh.stands (fresh : Fresh p file) (O : KeyOrder κ p.keyType p.keySize) :
    Stands O { db := file.head, file := file } 0 [] [] [] := by
  refine ⟨fresh.tree, ?_, fresh.counted⟩
  rw [fresh.empty]
  exact ⟨by simp, List.Pairwise.nil⟩

end Fresh

/-! ### Runs that keep to the interface -/

def Call.Grows : Call → Prop
  | .insert grow _ _ => ∀ size, grow size = true
  | _ => True

theorem Call.Grows.not_leaks {c : Call} (grows : c.Grows) (s : Db) : ¬ c.Leaks s := by
  cases c with
  | delete key => exact id
  | search key valueSize => exact id
  | insert grow key value =>
    rintro ⟨_, one⟩
    have always : ∀ size, grow size = true := grows
    by_cases free : s.db.free = 0
    · simp [OneBlockLeft, free, always] at one
    · simp [OneBlockLeft, free, always] at one

section Run
variable {κ : Type} [LinearOrder κ] {p : Shape} {O : KeyOrder κ p.keyType p.keySize} {s : Db}
  {h : Nat} {V F : List Nat}

theorem Ended.grown {m m' : Store κ} {c : Call} {r : Reply} (ended : Ended O m m' c r)
    (grows : c.Grows) : m.step O.rank c = (m', r) := by
  cases ended with
  | done c r eq => exact eq
  | refused grow key value n stuck same =>
    have can : grow n = true := grows n
    rw [can] at stuck
    exact nomatch stuck

theorem run_spec (cs : List Call) (st : Stands O s h [] V F) (ok : ∀ c ∈ cs, c.Ok O ∧ c.Grows) :
    ∃ s' rs h' V' F', run cs s = .ok (s', rs) ∧ Stands O s' h' [] V' F' ∧
      Store.run O.rank cs (contents O s.file.disk (flat s.file.disk h headSize)) =
        (contents O s'.file.disk (flat s'.file.disk h' headSize), rs) := by
  induction cs generalizing s h V F with
  | nil => exact ⟨s, [], h, V, F, rfl, st, rfl⟩
  | cons c cs ih =>
    obtain ⟨okc, grows⟩ := ok c List.mem_cons_self
    obtain ⟨s1, r, h1, R1, V1, F1, step1, st1, lost, ended⟩ := step_spec st c okc
    obtain rfl := lost (grows.not_leaks s)
    obtain ⟨s', rs, h', V', F', run', st', store⟩ :=
      ih st1 fun d hd => ok d (List.mem_cons_of_mem _ hd)
    refine ⟨s', r :: rs, h', V', F', ?_, st', ?_⟩
    · simp only [run, step1, run', bind, Except.bind]
      rfl
    · simp only [Store.run, ended.grown grows, store]

end Run

/-! ### Strings and byte keys -/

def Plain (t : KeyType) : Prop := t = .stringKey ∨ t = .bytesKey

def keyName (t : KeyType) (n : Nat) (key : Bytes) : List Nat :=
  match t with
  | .stringKey => chars key
  | _ => byteValues n key

/-- A terminated string shorter than `key_size`, or a buffer that holds a key. -/
def ValidKey (t : KeyType) (n : Nat) (key : Bytes) : Prop :=
  match t with
  | .stringKey => 0 ∈ key ∧ strlen key < n
  | _ => n ≤ key.length

def plainOrder (t : KeyType) (n : Nat) (plain : Plain t) : KeyOrder (List Nat) t n :=
  match t with
  | .stringKey => stringOrder n
  | .bytesKey => bytesOrder n
  | .int32Key | .int64Key | .other _ => absurd plain (by simp [Plain])

theorem plainOrder_rank {t : KeyType} (n : Nat) (plain : Plain t) :
    (plainOrder t n plain).rank = keyName t n := by
  rcases plain with rfl | rfl
  · rfl
  · rfl

theorem ValidKey.arg {t : KeyType} {n : Nat} {key : Bytes} (valid : ValidKey t n key)
    (plain : Plain t) : (plainOrder t n plain).arg key := by
  rcases plain with rfl | rfl
  · exact valid
  · exact valid

def Call.Valid (t : KeyType) (n : Nat) : Call → Prop
  | .insert _ key value => ValidKey t n key ∧ Accepted value
  | .delete key => ValidKey t n key
  | .search key _ => ValidKey t n key

theorem Call.ok_of_valid {p : Shape} {c : Call} (plain : Plain p.keyType)
    (valid : c.Valid p.keyType p.keySize) : c.Ok (plainOrder p.keyType p.keySize plain) := by
  cases c with
  | insert grow key value => exact ⟨valid.1.arg plain, valid.2⟩
  | delete key => exact ValidKey.arg valid plain
  | search key valueSize => exact ValidKey.arg valid plain

theorem Fresh.nothing {κ : Type} [LinearOrder κ] {p : Shape} {file : File} (fresh : Fresh p file)
    (O : KeyOrder κ p.keyType p.keySize) :
    contents O file.disk (flat file.disk 0 headSize) = Store.empty := by
  have st := fresh.stands O
  have none : flat file.disk 0 headSize = [] :=
    List.length_eq_zero_iff.mp (st.total.symm.trans fresh.total)
  rw [none]
  rfl

/-- A run from `db_create` on stands at its end, and its replies are those of the map. -/
theorem created_run {t : KeyType} {n : Nat} {file : File} (plain : Plain t)
    (made : dbCreate t n = .ok file) (cs : List Call) (valid : ∀ c ∈ cs, c.Valid t n ∧ c.Grows) :
    ∃ s s' rs h' V' F', dbOpen file = some s ∧ run cs s = .ok (s', rs) ∧
      Stands (p := ⟨t, n, dbCreate_ok made⟩) (plainOrder t n plain) s' h' [] V' F' ∧
      (Store.run (keyName t n) cs .empty).2 = rs := by
  have fresh := dbCreate_fresh made ⟨t, n, dbCreate_ok made⟩ rfl rfl
  have st := fresh.stands (plainOrder t n plain)
  obtain ⟨s', rs, h', V', F', hrun, st', store⟩ :=
    run_spec cs st fun c hc => ⟨Call.ok_of_valid plain (valid c hc).1, (valid c hc).2⟩
  refine ⟨_, s', rs, h', V', F', st.reopen, hrun, st', ?_⟩
  rw [plainOrder_rank, fresh.nothing] at store
  have same := congrArg Prod.snd store
  convert same

/-- Every call ends, with the result it has on the map. -/
theorem calls_of_map {t : KeyType} {n : Nat} {file : File} (plain : Plain t)
    (made : dbCreate t n = .ok file) (cs : List Call) (valid : ∀ c ∈ cs, c.Valid t n ∧ c.Grows) :
    ∃ s s', dbOpen file = some s ∧ run cs s = .ok (s', (Store.run (keyName t n) cs .empty).2) := by
  obtain ⟨s, s', rs, h', V', F', opened, hrun, _, store⟩ := created_run plain made cs valid
  exact ⟨s, s', opened, store ▸ hrun⟩

def longKey (i : Nat) : Bytes := UInt8.ofNat i :: List.replicate 127 0

def insertKeys (n : Nat) : List Call :=
  (List.range n).map fun i => .insert (fun _ => true) (longKey i) [7]

def fillRoot : List Call := insertKeys 54

/-- The root is split; a key is found, not stored twice, and another one deleted and missed. -/
def sampleCalls : List Call :=
  insertKeys 58 ++ [.search (longKey 54) 8, .insert (fun _ => true) (longKey 3) [9],
    .search (longKey 3) 8, .delete (longKey 20), .search (longKey 20) 8]

theorem longKey_valid (i : Nat) : ValidKey .bytesKey 128 (longKey i) := by
  simp [ValidKey, longKey]

theorem insertKeys_valid (n : Nat) : ∀ c ∈ insertKeys n, c.Valid .bytesKey 128 ∧ c.Grows := by
  intro c hc
  obtain ⟨i, _, rfl⟩ := List.mem_map.mp hc
  exact ⟨⟨longKey_valid i, accepted_of_length (by decide)⟩, fun _ => rfl⟩

theorem sampleCalls_valid : ∀ c ∈ sampleCalls, c.Valid .bytesKey 128 ∧ c.Grows := by
  intro c hc
  rcases List.mem_append.mp hc with inserted | hc
  · exact insertKeys_valid 58 c inserted
  simp only [List.mem_cons, List.not_mem_nil, or_false] at hc
  rcases hc with rfl | rfl | rfl | rfl | rfl
  · exact ⟨longKey_valid 54, trivial⟩
  · exact ⟨⟨longKey_valid 3, accepted_of_length (by decide)⟩, fun _ => rfl⟩
  · exact ⟨longKey_valid 3, trivial⟩
  · exact ⟨longKey_valid 20, trivial⟩
  · exact ⟨longKey_valid 20, trivial⟩

theorem calls_of_map_sample : ∃ file s s', dbCreate .bytesKey 128 = .ok file ∧
    dbOpen file = some s ∧ run sampleCalls s = .ok (s', List.replicate 58 (.status (.ok 1)) ++
      [.value (.ok [7]), .status (.ok 0), .value (.ok [7]), .status (.ok 1),
        .value (.error .ENOMSG)]) := by
  obtain ⟨s, s', opened, hrun⟩ := calls_of_map (.inr rfl) rfl sampleCalls sampleCalls_valid
  have replies : (Store.run (keyName .bytesKey 128) sampleCalls .empty).2 =
      List.replicate 58 (.status (.ok 1)) ++ [.value (.ok [7]), .status (.ok 0), .value (.ok [7]),
        .status (.ok 1), .value (.error .ENOMSG)] := by
    decide +kernel
  exact ⟨_, s, s', rfl, opened, replies ▸ hrun⟩

end FileDb
