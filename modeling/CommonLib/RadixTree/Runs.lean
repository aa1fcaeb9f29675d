import CommonLib.RadixTree.Lookup

/- Runs of insertions and deletions, and the table that they leave. -/
namespace RadixTree
open SearchTree

/-- The functions for one kind of keys, and the prefix that a key and a mask stand for. -/
structure Family (κ : Type) where
  insert : Pool → Tree → κ → κ → BitVec 64 → Option (Tree × Reply)
  delete : Tree → κ → κ → Option (Tree × Reply)
  masked : κ → κ → List Side
  width : Nat
  short : ∀ key mask, (masked key mask).length ≤ width
  insert_holds : ∀ {pool t whole} key mask value, Holds pool t [] [] whole → whole ≠ .nil →
    ∃ t' reply whole', insert pool t key mask value = some (t', reply) ∧
      Holds pool t' [] [] whole' ∧ Inserted pool t t' whole (masked key mask) value reply whole'
  delete_alone : ∀ {pool t whole} key mask, Holds pool t [] [] whole →
    Alone whole (masked key mask) → delete t key mask = none
  delete_holds : ∀ {pool t whole} key mask, Holds pool t [] [] whole → whole ≠ .nil →
    ¬ Alone whole (masked key mask) →
    ∃ t' reply whole', delete t key mask = some (t', reply) ∧ Holds pool t' [] [] whole' ∧
      Deleted whole (masked key mask) reply whole'

def radix32 : Family (BitVec 32) where
  insert := radix32Insert
  delete := radix32Delete
  masked := masked32
  width := 32
  short _ _ := length_masked_le _ _ 32
  insert_holds key mask value h there :=
    insertFrom_holds h there (spells32 key mask) (Nat.lt_succ_of_le (length_masked_le _ _ 32)) value
  delete_alone key mask h alone := deleteFrom_alone h (spells32 key mask) alone _
  delete_holds key mask h there company :=
    deleteFrom_holds h there (spells32 key mask) (Nat.lt_succ_of_le (length_masked_le _ _ 32))
      company

def radix128 : Family Address where
  insert := radix128Insert
  delete := radix128Delete
  masked := masked128
  width := 128
  short _ _ := length_masked_le _ _ 128
  insert_holds key mask value h there :=
    insertFrom_holds h there (spells128 key mask) (Nat.lt_succ_of_le (length_masked_le _ _ 128)) value
  delete_alone key mask h alone := deleteFrom_alone h (spells128 key mask) alone _
  delete_holds key mask h there company :=
    deleteFrom_holds h there (spells128 key mask) (Nat.lt_succ_of_le (length_masked_le _ _ 128))
      company

inductive Call (κ : Type) where
  | insert (key mask : κ) (value : BitVec 64)
  | delete (key mask : κ)

section Runs
variable {κ : Type} (F : Family κ) (pool : Pool)

def Family.step (t : Tree) : Call κ → Option (Tree × Reply)
  | .insert key mask value => F.insert pool t key mask value
  | .delete key mask => F.delete t key mask

def Family.run (t : Tree) : List (Call κ) → Option (Tree × List Reply)
  | [] => some (t, [])
  | call :: calls => do
    let (t, reply) ← F.step pool t call
    let (t, replies) ← Family.run t calls
    some (t, reply :: replies)

/-- What a call that leads from `t` to `t'` has to say of a table and to do to it. -/
def Family.Meets (t t' : Tree) (f : Table) : Call κ → Reply → Table → Prop
  | .insert key mask value, .ok, g =>
    f (F.masked key mask) = none ∧ g = Function.update f (F.masked key mask) (content value)
  | .insert key mask _, .busy, g => f (F.masked key mask) ≠ none ∧ g = f
  | .insert key mask _, .error, g => f (F.masked key mask) = none ∧ g = f ∧ Refused pool t t'
  | .delete key mask, .ok, g => g = Function.update f (F.masked key mask) none
  | .delete key mask, .error, g => f (F.masked key mask) = none ∧ g = f
  | .delete _ _, .busy, _ => False

def Family.Conforms : Tree → Table → List (Call κ) → List Reply → Table → Prop
  | _, f, [], [], g => g = f
  | t, f, call :: calls, reply :: replies, g =>
    ∃ t' f', F.step pool t call = some (t', reply) ∧ F.Meets pool t t' f call reply f' ∧
      Family.Conforms t' f' calls replies g
  | _, _, _, _, _ => False

def Stores (width : Nat) (t : Tree) (f : Table) : Prop :=
  ∃ whole, Holds pool t [] [] whole ∧ whole ≠ .nil ∧ values whole = f ∧
    ∀ w, Present whole w → w.length ≤ width

def RootOnly (t : Tree) : Prop := t.child t.root .left = some 0 ∧ t.child t.root .right = some 0

end Runs

section Steps
variable {κ : Type} {F : Family κ} {pool : Pool} {t t' : Tree} {f : Table} {whole whole' : Shape}
  {bits : List Side} {value : BitVec 64} {reply : Reply}

theorem Inserted.depth {width : Nat} (inserted : Inserted pool t t' whole bits value reply whole')
    (short : bits.length ≤ width) (depth : ∀ w, Present whole w → w.length ≤ width) :
    ∀ w, Present whole' w → w.length ≤ width := by
  intro w there
  have below : ∀ upto, upto <+: bits → (Present whole w ∨ w <+: upto) → w.length ≤ width := by
    intro upto inside either
    rcases either with old | new
    · exact depth w old
    · exact (new.trans inside).length_le.trans short
  cases reply with
  | ok => exact below bits List.prefix_rfl ((inserted.2.2 w).mp there)
  | error =>
    obtain ⟨_, _, upto, inside, grown⟩ := inserted
    exact below upto inside ((grown.present w).mp there)
  | busy =>
    obtain ⟨_, rfl⟩ := inserted
    exact depth w there

theorem Inserted.there (inserted : Inserted pool t t' whole bits value reply whole')
    (some_ : whole ≠ .nil) : whole' ≠ .nil := by
  have root : Present whole [] := by simpa [Present] using some_
  have back : Present whole' [] → whole' ≠ .nil := fun there => by simpa [Present] using there
  cases reply with
  | ok => exact back ((inserted.2.2 []).mpr (.inl root))
  | error =>
    obtain ⟨_, _, upto, _, grown⟩ := inserted
    exact back ((grown.present []).mpr (.inl root))
  | busy =>
    obtain ⟨_, rfl⟩ := inserted
    exact some_

theorem Inserted.meets {key mask : κ}
    (inserted : Inserted pool t t' whole (F.masked key mask) value reply whole') :
    F.Meets pool t t' (values whole) (.insert key mask value) reply (values whole') := by
  cases reply with
  | ok => exact ⟨inserted.1, inserted.2.1⟩
  | error =>
    obtain ⟨nothing, failed, upto, _, grown⟩ := inserted
    exact ⟨nothing, grown.table, failed⟩
  | busy =>
    obtain ⟨some_, rfl⟩ := inserted
    exact ⟨some_, rfl⟩

theorem Deleted.meets {key mask : κ} (deleted : Deleted whole (F.masked key mask) reply whole') :
    F.Meets pool t t' (values whole) (.delete key mask) reply (values whole') := by
  rcases deleted.known with rfl | ⟨rfl, nothing⟩
  · exact deleted.table
  · exact ⟨nothing, deleted.table.trans (Function.update_eq_self_iff.mpr nothing.symm)⟩

theorem rootOnly (h : Holds pool t [] [] whole) (alone : Alone whole bits) : RootOnly t := by
  obtain ⟨_, x, rfl⟩ := alone
  have root : t.root = addr x := h.root
  rw [RootOnly, root]
  exact child_eq (h.toStands.cell (s := .left))

theorem step_stores (stores : Stores pool F.width t f) (call : Call κ) :
    (∃ key mask, call = .delete key mask ∧ F.masked key mask = [] ∧ RootOnly t ∧
      F.step pool t call = none) ∨
    ∃ t' reply g, F.step pool t call = some (t', reply) ∧ F.Meets pool t t' f call reply g ∧
      Stores pool F.width t' g := by
  obtain ⟨whole, h, there, rfl, depth⟩ := stores
  cases call with
  | insert key mask value =>
    obtain ⟨t', reply, whole', run, h', inserted⟩ := F.insert_holds key mask value h there
    exact .inr ⟨t', reply, _, run, inserted.meets, whole', h', inserted.there there, rfl,
      inserted.depth (F.short key mask) depth⟩
  | delete key mask =>
    by_cases alone : Alone whole (F.masked key mask)
    · exact .inl ⟨key, mask, rfl, alone.1, rootOnly h alone, F.delete_alone key mask h alone⟩
    · obtain ⟨t', reply, whole', run, h', deleted⟩ := F.delete_holds key mask h there alone
      exact .inr ⟨t', reply, _, run, deleted.meets, whole', h', deleted.there, rfl,
        fun w there => depth w (deleted.present w there)⟩

/-- A run does what the table asks for, up to the first deletion of everything at a root that is
    alone. -/
theorem run_stores (stores : Stores pool F.width t f) (calls : List (Call κ)) :
    (∃ t' replies g, F.run pool t calls = some (t', replies) ∧ F.Conforms pool t f calls replies g ∧
      Stores pool F.width t' g) ∨
    ∃ done key mask later t' replies, calls = done ++ .delete key mask :: later ∧
      F.run pool t done = some (t', replies) ∧ F.masked key mask = [] ∧ RootOnly t' ∧
      F.run pool t calls = none := by
  induction calls generalizing t f with
  | nil => exact .inl ⟨t, [], f, rfl, rfl, stores⟩
  | cons call calls ih =>
    rcases step_stores stores call with
      ⟨key, mask, rfl, empty, alone, fault⟩ | ⟨t1, reply, g, step, meets, stores1⟩
    · exact .inr ⟨[], key, mask, calls, t, [], rfl, rfl, empty, alone, by simp [Family.run, fault]⟩
    · rcases ih stores1 with
        ⟨t2, replies, g2, run, conforms, stores2⟩ |
        ⟨done, key, mask, later, t2, replies, rfl, run, empty, alone, fault⟩
      · exact .inl ⟨t2, reply :: replies, g2, by simp [Family.run, step, run],
          ⟨t1, g, step, meets, conforms⟩, stores2⟩
      · exact .inr ⟨call :: done, key, mask, later, t2, reply :: replies, rfl,
          by simp [Family.run, step, run], empty, alone, by simp [Family.run, step, fault]⟩

end Steps

/-! ### The tree from the start -/

section Create
variable {pool : Pool} {t t' : Tree} {mem : Mem} {q fuel n : Nat} {mask inc key : BitVec 32}

def noTable : Table := fun _ => none

theorem init_holds (null : mem 0 = none) : Holds pool ⟨mem, 0, 0, 0, 0, 0⟩ [] [] .nil := by
  refine Holds.of [] trivial trivial rfl null rfl ?_ ?_
  · simp [Tree.rest, slots]
  · simp [Tree.rest, slots, Pool.nodes, addrsAround, around]

theorem clear_holds (h : Holds pool t [q] [] .nil) :
    ∃ t', ({ t with root := q } : Tree).clear q 0 = some t' ∧
      Holds pool t' [] [] (leaf q noValue) := by
  obtain ⟨spare, chain, mapped, all⟩ := h.stock
  obtain ⟨apart, pos⟩ := apart_of_perm pool all
  obtain ⟨node, here⟩ := Option.isSome_iff_exists.mp (mapped q (by simp))
  simp only [addrs_nil, List.nil_append, addrsAround, around, List.map_nil, List.nodup_append,
    List.mem_append, List.mem_cons] at apart pos mapped
  have step := modify_eq (t := { t with root := q }) here fun _ => ⟨0, 0, 0, noValue⟩
  refine ⟨_, step, Holds.of spare ⟨put_self, trivial, trivial⟩ trivial rfl ?_ ?_ ?_ all⟩
  · exact (put_other (by grind)).trans h.null
  · exact chain.congr fun p member => put_other (by grind)
  · intro p member
    have slot : p ∈ t.rest := member
    have same := put_other (t := { t with root := q }) (n := ⟨0, 0, 0, noValue⟩)
      (show p ≠ q by grind)
    exact (congrArg Option.isSome same).trans (mapped p (.inr slot))

theorem values_leaf (q : Nat) : values (leaf q noValue) = noTable := by
  funext w
  cases w with
  | nil => rfl
  | cons s w => cases s <;> simp [values, table, itemAt, leaf, follow, rootItem, noTable]

theorem present_leaf {value : BitVec 64} {w : List Side} : Present (leaf q value) w ↔ w = [] := by
  cases w with
  | nil => simp [Present, leaf]
  | cons s w => cases s <;> simp [Present, leaf, follow]

theorem leaf_stores (h : Holds pool t [] [] (leaf q noValue)) (width : Nat) :
    Stores pool width t noTable := by
  refine ⟨_, h, by simp [leaf], values_leaf q, fun w there => ?_⟩
  rw [present_leaf.mp there]
  exact Nat.zero_le width

theorem create_eq (null : mem 0 = none) (fuel : Nat) (preallocate : Int) :
    (∃ asked, create pool fuel mem preallocate = some (.error asked) ∧
      (pool.header = false ∨ ∃ k < asked, pool.page k = none)) ∨
    ∃ t q, Holds pool t [] [] (leaf q noValue) ∧ create pool fuel mem preallocate =
      if preallocate = -1 then levels pool fuel (defaultLevels pool) t 0 0x80000000
      else if preallocate < 0 then none
      else levels pool fuel preallocate.toNat t 0 0x80000000 := by
  by_cases header : pool.header = false
  · exact .inl ⟨0, by simp [create, header], .inl header⟩
  · have h0 : Holds pool ⟨mem, 0, 0, 0, 0, 0⟩ [] [] .nil := init_holds null
    obtain ⟨t1, q, step, _, either⟩ := alloc_holds h0
    rcases either with ⟨rfl, ⟨k, _, below, failed⟩, _⟩ | ⟨used, h1⟩
    · exact .inl ⟨t1.asked, by simp [create, header, step], .inr ⟨k, below, failed⟩⟩
    · obtain ⟨t2, clear, h2⟩ := clear_holds h1
      refine .inr ⟨t2, q, h2, ?_⟩
      rw [create, if_neg header]
      simp only [step, used, clear, Option.bind_eq_bind, Option.bind_some, if_false]

theorem level_stores (stores : Stores pool 32 t noTable)
    (run : level pool mask inc fuel t key = some (.ok t')) : Stores pool 32 t' noTable := by
  induction fuel generalizing t key with
  | zero => cases run
  | succ fuel ih =>
    rcases step_stores (F := radix32) stores (.insert key mask noValue) with
      ⟨_, _, wrong, _⟩ | ⟨t1, reply, g, step, meets, stores1⟩
    · cases wrong
    · have step' : radix32Insert pool t key mask noValue = some (t1, reply) := step
      rw [level, step'] at run
      cases reply with
      | ok =>
        have same : g = noTable := by
          rw [meets.2]
          exact Function.update_eq_self_iff.mpr rfl
        subst same
        simp only [Option.bind_eq_bind, Option.bind_some, ne_eq, not_true_eq_false, if_false] at run
        split_ifs at run with last
        · obtain rfl : t1 = t' := by simpa using run
          exact stores1
        · exact ih stores1 run
      | error => simp at run
      | busy => simp at run

theorem levels_stores (stores : Stores pool 32 t noTable)
    (run : levels pool fuel n t mask inc = some (.ok t')) : Stores pool 32 t' noTable := by
  induction n generalizing t mask inc with
  | zero =>
    obtain rfl : t = t' := by simpa [levels] using run
    exact stores
  | succ n ih =>
    rw [levels] at run
    cases step : level pool (nextMask mask) inc fuel t 0 with
    | none =>
      rw [step] at run
      cases run
    | some result =>
      rw [step] at run
      cases result with
      | error asked => cases run
      | ok t1 => exact ih (level_stores stores step) run

theorem create_stores {preallocate : Int} (null : mem 0 = none)
    (run : create pool fuel mem preallocate = some (.ok t)) : Stores pool 32 t noTable := by
  rcases create_eq null fuel preallocate with ⟨_, failed, _⟩ | ⟨t1, q, h, same⟩
  · rw [failed] at run
    cases run
  · rw [same] at run
    have stores := leaf_stores h 32
    split_ifs at run
    · exact levels_stores stores run
    · exact levels_stores stores run

theorem Stores.mono {width : Nat} {f : Table} (stores : Stores pool 32 t f) (wide : 32 ≤ width) :
    Stores pool width t f := by
  obtain ⟨whole, h, there, same, depth⟩ := stores
  exact ⟨whole, h, there, same, fun w present => (depth w present).trans wide⟩

end Create

/-- Pages of two nodes, one behind the other. -/
def samplePool : Pool where
  pagesize := 64
  page k := some (64 * (k + 1))
  junk _ := ⟨7, 7, 7, 7⟩
  header := true
  room := by decide
  positive page := by
    cases page
    omega
  apart other first second := by
    cases first
    cases second
    omega

def sampleCalls : List (Call (BitVec 32)) :=
  [.insert 0x0A000000 0xFF000000 1, .insert 0x0A010000 0xFFFF0000 2,
    .insert 0x0A000000 0xFF000000 3, .delete 0x0A000000 0xFF000000, .delete 0x0B000000 0xFF000000]

theorem sample_created : ∃ t, create samplePool 1 (fun _ => none) 0 = some (.ok t) := ⟨_, rfl⟩

end RadixTree
