import CommonLib.RadixTree.Runs

/- What a caller of the tree may rely on, from `ngx_radix_tree_create` on. -/
namespace RadixTree
open SearchTree

/-! ### Any pool -/

section Any
variable {pool : Pool} {fuel : Nat} {mem : Mem} {preallocate : Int} {t : Tree}

theorem find32_stores {f : Table} (stores : Stores pool 32 t f) (key : BitVec 32) :
    radix32Find t key = some ((longest f (word32 key)).getD noValue) := by
  obtain ⟨whole, h, _, rfl, depth⟩ := stores
  exact find32_holds h depth key

theorem find128_stores {f : Table} (stores : Stores pool 128 t f) (key : Address) :
    (∀ v, radix128Find t key = some v → v = (longest f (word128 key)).getD noValue) ∧
      (f (word128 key) ≠ none → radix128Find t key = none) := by
  obtain ⟨whole, h, _, rfl, _⟩ := stores
  rw [find128_holds h key]
  constructor
  · intro v found
    split_ifs at found
    exact (Option.some.inj found).symm
  · intro valued
    refine if_neg fun wrong => valued ?_
    rw [values, table, itemAt, wrong]
    rfl

/-- Whatever the pool answers and whatever is inserted and deleted, the answers are those of a table
    of prefixes, every node of the pages is in one place, and a lookup finds the longest prefix; but
    a deletion of everything at a root that is alone reads through NULL. -/
theorem radix32_run (null : mem 0 = none) (created : create pool fuel mem preallocate = some (.ok t))
    (calls : List (Call (BitVec 32))) :
    (∃ t' replies f, radix32.run pool t calls = some (t', replies) ∧
      radix32.Conforms pool t noTable calls replies f ∧ Stores pool 32 t' f ∧
      ∀ key, radix32Find t' key = some ((longest f (word32 key)).getD noValue)) ∨
    ∃ done key mask later t' replies, calls = done ++ .delete key mask :: later ∧
      radix32.run pool t done = some (t', replies) ∧ masked32 key mask = [] ∧ RootOnly t' ∧
      radix32.run pool t calls = none := by
  rcases run_stores (F := radix32) (create_stores null created) calls with
    ⟨t', replies, f, run, conforms, stores⟩ | fault
  · exact .inl ⟨t', replies, f, run, conforms, stores, find32_stores stores⟩
  · exact .inr fault

theorem radix32_run_sample : ∃ t, create samplePool 1 (fun _ => none) 0 = some (.ok t) ∧
    ∃ t' replies f, radix32.run samplePool t sampleCalls = some (t', replies) ∧
      radix32.Conforms samplePool t noTable sampleCalls replies f ∧ Stores samplePool 32 t' f ∧
      ∀ key, radix32Find t' key = some ((longest f (word32 key)).getD noValue) := by
  obtain ⟨t, created⟩ := sample_created
  refine ⟨t, created, (radix32_run rfl created sampleCalls).resolve_right ?_⟩
  -- no mask of the deletions is empty
  rintro ⟨done, key, mask, later, _, _, here, _, empty, _⟩
  have inside : Call.delete key mask ∈ sampleCalls := here ▸ by simp
  simp only [sampleCalls, List.mem_cons, reduceCtorEq, Call.delete.injEq, List.not_mem_nil,
    false_or, or_false] at inside
  rcases inside with ⟨rfl, rfl⟩ | ⟨rfl, rfl⟩
  · exact absurd empty (by decide)
  · exact absurd empty (by decide)

/-- The same for addresses, but a lookup may read behind the address, and it does so when the table
    has the address itself. -/
theorem radix128_run (null : mem 0 = none) (created : create pool fuel mem preallocate = some (.ok t))
    (calls : List (Call Address)) :
    (∃ t' replies f, radix128.run pool t calls = some (t', replies) ∧
      radix128.Conforms pool t noTable calls replies f ∧ Stores pool 128 t' f ∧
      ∀ key, (∀ v, radix128Find t' key = some v → v = (longest f (word128 key)).getD noValue) ∧
        (f (word128 key) ≠ none → radix128Find t' key = none)) ∨
    ∃ done key mask later t' replies, calls = done ++ .delete key mask :: later ∧
      radix128.run pool t done = some (t', replies) ∧ masked128 key mask = [] ∧ RootOnly t' ∧
      radix128.run pool t calls = none := by
  have stores := (create_stores null created).mono (by decide : 32 ≤ 128)
  rcases run_stores (F := radix128) stores calls with
    ⟨t', replies, f, run, conforms, stores'⟩ | fault
  · exact .inl ⟨t', replies, f, run, conforms, stores', find128_stores stores'⟩
  · exact .inr fault

def sampleAddress : Address := .replicate 16 0x20

def sampleMask : Address := .replicate 16 0xFF

theorem radix128_run_sample : ∃ t, create samplePool 1 (fun _ => none) 0 = some (.ok t) ∧
    ∃ t' replies f, radix128.run samplePool t [.insert sampleAddress sampleMask 5] =
        some (t', replies) ∧
      radix128.Conforms samplePool t noTable [.insert sampleAddress sampleMask 5] replies f ∧
      Stores samplePool 128 t' f ∧
      ∀ key, (∀ v, radix128Find t' key = some v → v = (longest f (word128 key)).getD noValue) ∧
        (f (word128 key) ≠ none → radix128Find t' key = none) := by
  obtain ⟨t, created⟩ := sample_created
  have run := radix128_run rfl created [.insert sampleAddress sampleMask 5]
  refine ⟨t, created, run.resolve_right ?_⟩
  rintro ⟨done, key, mask, later, _, _, here, _⟩
  have inside : Call.delete key mask ∈ [Call.insert sampleAddress sampleMask 5] := here ▸ by simp
  exact absurd inside (by simp)

end Any

/-! ### A pool that does not fail -/

section Exact
variable {κ : Type} {F : Family κ} {pool : Pool} {t t' : Tree} {f : Table} {whole whole' : Shape}

def Family.answer (F : Family κ) (f : Table) : Call κ → Reply × Table
  | .insert key mask value =>
    if (f (F.masked key mask)).isNone then
      (.ok, Function.update f (F.masked key mask) (some value))
    else (.busy, f)
  | .delete key mask =>
    if (f (F.masked key mask)).isNone then (.error, f)
    else (.ok, Function.update f (F.masked key mask) none)

def Family.answers (F : Family κ) : Table → List (Call κ) → List Reply × Table
  | f, [] => ([], f)
  | f, call :: calls =>
    let (reply, g) := F.answer f call
    let (replies, g) := Family.answers F g calls
    (reply :: replies, g)

/-- The call does not delete everything while no longer prefix has a value. -/
def Family.SafeCall (F : Family κ) (f : Table) : Call κ → Prop
  | .insert _ _ _ => True
  | .delete key mask => F.masked key mask = [] → ∃ w, w ≠ [] ∧ f w ≠ none

def Family.Safe (F : Family κ) : Table → List (Call κ) → Prop
  | _, [] => True
  | f, call :: calls => F.SafeCall f call ∧ Family.Safe F (F.answer f call).2 calls

def Call.Valued : Call κ → Prop
  | .insert _ _ value => value ≠ noValue
  | .delete _ _ => True

/-- The tree holds the table, and has a node only where there is a value at it or below it. -/
def StoresTidy (pool : Pool) (width : Nat) (t : Tree) (f : Table) : Prop :=
  ∃ whole, Holds pool t [] [] whole ∧ whole ≠ .nil ∧ Tidy whole ∧ values whole = f ∧
    ∀ w, Present whole w → w.length ≤ width

theorem Inserted.tidy {bits : List Side} {value : BitVec 64} {reply : Reply}
    (inserted : Inserted pool t t' whole bits value reply whole') (valued : value ≠ noValue)
    (gives : ∀ k, pool.page k ≠ none) (tidy : Tidy whole) :
    Tidy whole' ∧ (reply = .ok ∧ values whole bits = none ∧
        values whole' = Function.update (values whole) bits (some value) ∨
      reply = .busy ∧ values whole bits ≠ none ∧ values whole' = values whole) := by
  cases reply with
  | ok =>
    obtain ⟨nothing, table, present⟩ := inserted
    rw [content, if_neg valued] at table
    refine ⟨fun w notRoot there => ?_, .inl ⟨rfl, nothing, table⟩⟩
    rcases (present w).mp there with old | inside
    · obtain ⟨more, some_⟩ := tidy w notRoot old
      refine ⟨more, ?_⟩
      rw [table]
      by_cases here : w ++ more = bits
      · rw [here, Function.update_self]
        exact Option.some_ne_none _
      · rwa [Function.update_of_ne here]
    · obtain ⟨more, rfl⟩ := inside
      refine ⟨more, ?_⟩
      rw [table, Function.update_self]
      exact Option.some_ne_none _
  | error =>
    obtain ⟨_, ⟨k, _, _, failed⟩, _⟩ := inserted
    exact absurd failed (gives k)
  | busy =>
    obtain ⟨some_, rfl⟩ := inserted
    exact ⟨tidy, .inr ⟨rfl, some_, rfl⟩⟩

/-- In a tidy tree the root is alone just when no longer prefix has a value. -/
theorem tidy_alone (there : whole ≠ .nil) (tidy : Tidy whole) :
    (∃ x, whole = .node x .nil .nil) ↔ ∀ w, w ≠ [] → values whole w = none := by
  obtain ⟨x, l, r, rfl⟩ := exists_node there
  have child : ∀ s t, follow (.node x l r) [s] = t → (∀ w, w ≠ [] → values (.node x l r) w = none) →
      t = .nil := by
    intro s t same empty
    by_contra node
    obtain ⟨more, some_⟩ := tidy [s] (by simp) (by rw [Present, same]; exact node)
    exact some_ (empty _ (by simp))
  constructor
  · rintro ⟨y, same⟩ w notRoot
    cases same
    cases w with
    | nil => exact absurd rfl notRoot
    | cons s w => cases s <;> simp [values, table, itemAt, follow, rootItem]
  · intro empty
    obtain rfl := child .left l (by simp [follow]) empty
    obtain rfl := child .right r (by simp [follow]) empty
    exact ⟨x, rfl⟩

theorem step_tidy (gives : ∀ k, pool.page k ≠ none) (stores : StoresTidy pool F.width t f) (call : Call κ)
    (valued : call.Valued) :
    (F.SafeCall f call → ∃ t', F.step pool t call = some (t', (F.answer f call).1) ∧
      StoresTidy pool F.width t' (F.answer f call).2) ∧
    (¬ F.SafeCall f call → F.step pool t call = none) := by
  obtain ⟨whole, h, there, tidy, rfl, depth⟩ := stores
  cases call with
  | insert key mask value =>
    obtain ⟨t', reply, whole', run, h', inserted⟩ := F.insert_holds key mask value h there
    have there' := inserted.there there
    have depth' := inserted.depth (F.short key mask) depth
    obtain ⟨tidy', either⟩ := inserted.tidy valued gives tidy
    refine ⟨fun _ => ⟨t', ?_⟩, fun unsafe_ => absurd trivial unsafe_⟩
    rcases either with ⟨rfl, nothing, table⟩ | ⟨rfl, some_, table⟩
    · have answer : F.answer (values whole) (.insert key mask value) =
          (.ok, Function.update (values whole) (F.masked key mask) (some value)) := by
        simp [Family.answer, nothing]
      rw [answer]
      exact ⟨run, whole', h', there', tidy', table, depth'⟩
    · have answer : F.answer (values whole) (.insert key mask value) = (.busy, values whole) := by
        simp [Family.answer, some_]
      rw [answer]
      exact ⟨run, whole', h', there', tidy', table, depth'⟩
  | delete key mask =>
    have alone : Alone whole (F.masked key mask) ↔ ¬ F.SafeCall (values whole) (.delete key mask) := by
      rw [Alone, tidy_alone there tidy, Family.SafeCall]
      simp only [Classical.not_imp, not_exists, not_and, not_not]
    refine ⟨fun safe => ?_, fun unsafe_ => F.delete_alone key mask h (alone.mpr unsafe_)⟩
    obtain ⟨t', reply, whole', run, h', deleted⟩ :=
      F.delete_holds key mask h there fun wrong => alone.mp wrong safe
    obtain ⟨tidy', used⟩ := deleted.tidy tidy
    have depth' := fun w there => depth w (deleted.present w there)
    refine ⟨t', ?_⟩
    rcases deleted.known with rfl | ⟨rfl, nothing⟩
    · have answer : F.answer (values whole) (.delete key mask) =
          (.ok, Function.update (values whole) (F.masked key mask) none) := by
        simp [Family.answer, used rfl]
      rw [answer]
      exact ⟨run, whole', h', deleted.there, tidy', deleted.table, depth'⟩
    · have answer : F.answer (values whole) (.delete key mask) = (.error, values whole) := by
        simp [Family.answer, nothing]
      rw [answer]
      exact ⟨run, whole', h', deleted.there, tidy',
        deleted.table.trans (Function.update_eq_self_iff.mpr nothing.symm), depth'⟩

theorem create_tidy {fuel : Nat} {mem : Mem} (null : mem 0 = none)
    (created : create pool fuel mem 0 = some (.ok t)) (width : Nat) :
    StoresTidy pool width t noTable := by
  rcases create_eq null fuel 0 with ⟨_, failed, _⟩ | ⟨t1, q, h, same⟩
  · rw [failed] at created
    cases created
  · rw [same] at created
    obtain rfl : t1 = t := by simpa [levels] using created
    obtain ⟨whole, h', there, table, depth⟩ := leaf_stores h 0
    refine ⟨whole, h', there, fun w notRoot present => ?_, table,
      fun w present => (depth w present).trans (Nat.zero_le width)⟩
    exact absurd (List.length_eq_zero_iff.mp (Nat.le_zero.mp (depth w present))) notRoot

theorem run_tidy (gives : ∀ k, pool.page k ≠ none) (stores : StoresTidy pool F.width t f)
    (calls : List (Call κ)) (valued : ∀ call ∈ calls, call.Valued) :
    (F.Safe f calls → ∃ t', F.run pool t calls = some (t', (F.answers f calls).1) ∧
      StoresTidy pool F.width t' (F.answers f calls).2) ∧
    (¬ F.Safe f calls → F.run pool t calls = none) := by
  induction calls generalizing t f with
  | nil => exact ⟨fun _ => ⟨t, rfl, stores⟩, fun wrong => absurd trivial wrong⟩
  | cons call calls ih =>
    obtain ⟨goes, fault⟩ := step_tidy gives stores call (valued call List.mem_cons_self)
    have valued' : ∀ call ∈ calls, call.Valued :=
      fun call member => valued call (List.mem_cons_of_mem _ member)
    constructor
    · rintro ⟨now, later⟩
      obtain ⟨t1, step, stores1⟩ := goes now
      obtain ⟨t2, run, stores2⟩ := (ih stores1 valued').1 later
      exact ⟨t2, by simp [Family.run, step, run, Family.answers], stores2⟩
    · intro wrong
      by_cases now : F.SafeCall f call
      · obtain ⟨t1, step, stores1⟩ := goes now
        have rest := (ih stores1 valued').2 fun later => wrong ⟨now, later⟩
        simp [Family.run, step, rest]
      · simp [Family.run, fault now]

/-- Where the pool has memory for every node and nothing is preallocated, the tree answers every call
    as the table does, and faults just when everything is deleted with no longer prefix left. -/
theorem run_exact {fuel : Nat} {mem : Mem} (F : Family κ) (null : mem 0 = none)
    (gives : ∀ k, pool.page k ≠ none) (created : create pool fuel mem 0 = some (.ok t))
    (calls : List (Call κ)) (valued : ∀ call ∈ calls, call.Valued) :
    (F.Safe noTable calls → ∃ t', F.run pool t calls = some (t', (F.answers noTable calls).1) ∧
      StoresTidy pool F.width t' (F.answers noTable calls).2) ∧
    (¬ F.Safe noTable calls → F.run pool t calls = none) :=
  run_tidy gives (create_tidy null created F.width) calls valued

theorem run_exact_sample : ∃ t t', create samplePool 1 (fun _ => none) 0 = some (.ok t) ∧
    radix32.run samplePool t sampleCalls = some (t', [.ok, .ok, .busy, .ok, .error]) ∧
    StoresTidy samplePool 32 t' (radix32.answers noTable sampleCalls).2 := by
  obtain ⟨t, created⟩ := sample_created
  have gives : ∀ k, samplePool.page k ≠ none := fun k => Option.some_ne_none _
  have valued : ∀ call ∈ sampleCalls, call.Valued := by simp [sampleCalls, Call.Valued, noValue]
  have safe : radix32.Safe noTable sampleCalls := by
    have first : masked32 0x0A000000 0xFF000000 ≠ [] := by decide
    have second : masked32 0x0B000000 0xFF000000 ≠ [] := by decide
    exact ⟨trivial, trivial, trivial, fun wrong => absurd wrong first,
      fun wrong => absurd wrong second, trivial⟩
  have replies : (radix32.answers noTable sampleCalls).1 = [.ok, .ok, .busy, .ok, .error] := by decide
  obtain ⟨t', run, stores⟩ := (run_exact radix32 rfl gives created sampleCalls valued).1 safe
  rw [replies] at run
  exact ⟨t, t', created, run, stores⟩

theorem find128_exact (stores : StoresTidy pool 128 t f) (key : Address) :
    radix128Find t key = if f (word128 key) = none then
      some ((longest f (word128 key)).getD noValue) else none := by
  obtain ⟨whole, h, _, tidy, rfl, depth⟩ := stores
  have long : (word128 key).length = 128 := by simp [word128, word]
  have node : follow whole (word128 key) = .nil ↔ values whole (word128 key) = none := by
    constructor
    · intro ends
      rw [values, table, itemAt, ends]
      rfl
    · intro nothing
      by_contra there
      obtain ⟨more, some_⟩ := tidy (word128 key) (by rw [← List.length_pos_iff]; omega) there
      have below : Present whole (word128 key ++ more) := by
        intro ends
        refine some_ ?_
        rw [values, table, itemAt, ends]
        rfl
      have short := depth _ below
      rw [List.length_append] at short
      obtain rfl : more = [] := List.length_eq_zero_iff.mp (by omega)
      exact some_ (by rwa [List.append_nil])
  rw [find128_holds h key]
  simp only [node]

/-- Then the lookup of an address reads behind it just when the table has the address itself. -/
theorem lookup128_exact {fuel : Nat} {mem : Mem} (null : mem 0 = none)
    (gives : ∀ k, pool.page k ≠ none) (created : create pool fuel mem 0 = some (.ok t))
    (calls : List (Call Address)) (valued : ∀ call ∈ calls, call.Valued)
    (safe : radix128.Safe noTable calls) :
    ∃ t' f, radix128.run pool t calls = some (t', (radix128.answers noTable calls).1) ∧
      f = (radix128.answers noTable calls).2 ∧
      ∀ key, radix128Find t' key = if f (word128 key) = none then
        some ((longest f (word128 key)).getD noValue) else none := by
  obtain ⟨t', run, stores⟩ := (run_exact radix128 null gives created calls valued).1 safe
  exact ⟨t', _, run, rfl, find128_exact stores⟩

theorem lookup128_exact_sample : ∃ t t' f,
    create samplePool 1 (fun _ => none) 0 = some (.ok t) ∧
    radix128.run samplePool t [.insert sampleAddress sampleMask 5] = some (t', [.ok]) ∧
    f = (radix128.answers noTable [.insert sampleAddress sampleMask 5]).2 ∧
    ∀ key, radix128Find t' key = if f (word128 key) = none then
      some ((longest f (word128 key)).getD noValue) else none := by
  obtain ⟨t, created⟩ := sample_created
  have gives : ∀ k, samplePool.page k ≠ none := fun k => Option.some_ne_none _
  have valued : ∀ call ∈ [Call.insert sampleAddress sampleMask 5], call.Valued := by
    simp [Call.Valued, noValue]
  obtain ⟨t', f, run, same, find⟩ := lookup128_exact rfl gives created _ valued ⟨trivial, trivial⟩
  exact ⟨t, t', f, created, run, same, find⟩

end Exact

end RadixTree
