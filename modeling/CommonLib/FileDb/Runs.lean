import CommonLib.FileDb.Checker

/- Sequences of calls on a database that `db_create` has made, beside the finite map
   they are meant to be. -/
namespace FileDb
open OrderedTree

inductive Call where
  | insert (grow : Nat → Bool) (key value : Bytes)
  | delete (key : Bytes)
  | search (key : Bytes) (valueSize : Nat)

inductive Reply where
  | status (r : Except Errno Int)
  | value (r : Except Errno Bytes)
  deriving DecidableEq

def step (s : Db) : Call → Result (Db × Reply)
  | .insert grow key value => do
    let (s, r) ← dbInsert grow s key value
    return (s, .status r)
  | .delete key => do
    let (s, r) ← dbDelete s key
    return (s, .status r)
  | .search key valueSize => do
    let r ← dbSearch s key valueSize
    return (s, .value r)

def run : List Call → Db → Result (Db × List Reply)
  | [], s => .ok (s, [])
  | c :: cs, s => do
    let (s, r) ← step s c
    let (s, rs) ← run cs s
    return (s, r :: rs)

/-! ### The finite map -/

abbrev Store (κ : Type) := κ → Option Bytes

section Store
variable {κ : Type} [DecidableEq κ]

def Store.empty : Store κ := fun _ => none

/-- `name` is the key that the bytes passed in stand for. -/
def Store.step (name : Bytes → κ) (m : Store κ) : Call → Store κ × Reply
  | .insert _ key value =>
    match m (name key) with
    | none => (Function.update m (name key) (some value), .status (.ok 1))
    | some _ => (m, .status (.ok 0))
  | .delete key =>
    match m (name key) with
    | none => (m, .status (.ok 0))
    | some _ => (Function.update m (name key) none, .status (.ok 1))
  | .search key valueSize =>
    match m (name key) with
    | none => (m, .value (.error .ENOMSG))
    | some v =>
      (m, .value (if valueSize < v.length then .error .E2BIG else .ok v))

def Store.run (name : Bytes → κ) : List Call → Store κ → Store κ × List Reply
  | [], m => (m, [])
  | c :: cs, m =>
    let (m, r) := m.step name c
    let (m, rs) := Store.run name cs m
    (m, r :: rs)

end Store

/-! ### One call -/

section Step
variable {κ : Type} [LinearOrder κ] {p : Shape} {O : KeyOrder κ p.keyType p.keySize} {s : Db}
  {h : Nat} {R V F : List Nat}

def contents (O : KeyOrder κ p.keyType p.keySize) (disk : Nat → BtreeNode)
    (es : List Entry) : Store κ :=
  fun k => (lookup O.entryRank es k).map fun e => valueAt disk e.2

theorem contents_congr {disk disk' : Nat → BtreeNode} {es : List Entry}
    (same : ∀ e ∈ es, valueAt disk' e.2 = valueAt disk e.2) :
    contents O disk' es = contents O disk es := by
  funext k
  rw [contents, contents]
  cases found : lookup O.entryRank es k with
  | none => rw [Option.map_none, Option.map_none]
  | some e =>
    have mem := (lookup_some found).1
    rw [Option.map_some, Option.map_some, same e mem]

theorem contents_insert {disk : Nat → BtreeNode} {P Q : List Entry} {e : Entry}
    (sorted : Sorted O (P ++ e :: Q)) :
    contents O disk (P ++ e :: Q) =
      Function.update (contents O disk (P ++ Q)) (O.entryRank e) (some (valueAt disk e.2)) := by
  funext k
  simp only [contents, lookup_insert sorted.ordered]
  by_cases here : O.entryRank e = k
  · subst here
    simp
  · rw [if_neg here, Function.update_of_ne (Ne.symm here), contents]

theorem contents_remove {disk : Nat → BtreeNode} {P Q : List Entry} {e : Entry}
    (sorted : Sorted O (P ++ e :: Q)) :
    contents O disk (P ++ Q) =
      Function.update (contents O disk (P ++ e :: Q)) (O.entryRank e) none := by
  funext k
  by_cases here : O.entryRank e = k
  · subst here
    simp [contents, lookup_removed sorted.ordered]
  · rw [Function.update_of_ne (Ne.symm here)]
    rw [contents, contents, lookup_insert sorted.ordered, if_neg here]

/-- The keys and values that the caller is allowed to pass. -/
def Call.Ok (O : KeyOrder κ p.keyType p.keySize) : Call → Prop
  | .insert _ key value => O.arg key ∧ Accepted value
  | .delete key => O.arg key
  | .search key _ => O.arg key

def Call.Leaks (s : Db) : Call → Prop
  | .insert grow _ _ => FileDb.Leaks grow s
  | _ => False

/-- How a call ends: as the map says, or with an insertion that no block could be had for. -/
inductive Ended (O : KeyOrder κ p.keyType p.keySize) (m m' : Store κ) : Call → Reply → Prop where
  | done (c : Call) (r : Reply) (eq : m.step O.rank c = (m', r)) : Ended O m m' c r
  | refused (grow : Nat → Bool) (key value : Bytes) (n : Nat) (stuck : grow n = false)
      (same : m' = m) : Ended O m m' (.insert grow key value) (.status (.error .ENOMEM))

theorem Inserted.ended {grow : Nat → Bool} {key value : Bytes} {s' : Db} {es es' : List Entry}
    {r : Except Errno Int} (ins : Inserted O grow key value s s' es es' r) (sorted : Sorted O es)
    (same : ∀ e ∈ es, valueAt s'.file.disk e.2 = valueAt s.file.disk e.2) :
    Ended O (contents O s.file.disk es) (contents O s'.file.disk es') (.insert grow key value)
      (.status r) := by
  cases ins with
  | present e mem rank eq total =>
    refine .done _ _ ?_
    have here : contents O s.file.disk es (O.rank key) = some (valueAt s.file.disk e.2) := by
      rw [contents, ← rank]
      exact congrArg _ (lookup_mem sorted.ordered mem)
    rw [eq, contents_congr same]
    simp [Store.step, here]
  | added P Q e old new below above image rank stored total =>
    refine .done _ _ ?_
    subst old
    have sorted' : Sorted O (P ++ e :: Q) := by
      have ins : Inserted O grow key value s s' (P ++ Q) es' (.ok 1) :=
        .added P Q e rfl new below above image rank stored total
      exact new ▸ ins.sorted sorted
    have absent : contents O s.file.disk (P ++ Q) (O.rank key) = none := by
      have none : lookup O.entryRank (P ++ Q) (O.rank key) = none := lookup_between below above
      rw [contents, none]
      rfl
    rw [new, contents_insert sorted', contents_congr same, stored,
      show O.entryRank e = O.rank key from rank]
    simp [Store.step, absent]
  | full eq n stuck total =>
    refine .refused grow key value n stuck ?_
    rw [eq, contents_congr same]

theorem Deleted.ended {key : Bytes} {s' : Db} {es es' : List Entry} {r : Except Errno Int}
    (del : Deleted O key s s' es es' r) (sorted : Sorted O es)
    (same : ∀ e ∈ es', valueAt s'.file.disk e.2 = valueAt s.file.disk e.2) :
    Ended O (contents O s.file.disk es) (contents O s'.file.disk es') (.delete key)
        (.status r) := by
  refine .done _ _ ?_
  rw [contents_congr same]
  cases del with
  | absent none eq total =>
    have absent : contents O s.file.disk es (O.rank key) = Option.none := by
      have gone : lookup O.entryRank es (O.rank key) = Option.none := lookup_none_iff.mpr none
      rw [contents, gone]
      rfl
    rw [eq]
    simp [Store.step, absent]
  | removed P Q e old new rank total =>
    subst old
    have here : contents O s.file.disk (P ++ e :: Q) (O.rank key) =
        some (valueAt s.file.disk e.2) := by
      rw [contents, ← rank]
      exact congrArg _ (lookup_at sorted.ordered)
    rw [new, contents_remove sorted, show O.entryRank e = O.rank key from rank]
    simp [Store.step, here]

theorem found_ended (O : KeyOrder κ p.keyType p.keySize) (disk : Nat → BtreeNode) (key : Bytes)
    (valueSize : Nat) (es : List Entry) :
    Ended O (contents O disk es) (contents O disk es) (.search key valueSize)
      (.value (found O disk key valueSize es)) := by
  refine .done _ _ ?_
  cases at_ : lookup O.entryRank es (O.rank key) with
  | none => simp [Store.step, contents, found, at_]
  | some e => simp [Store.step, contents, found, at_]

/-- A call on a database that stands, whatever the file can hold. -/
theorem step_spec (st : Stands O s h R V F) (c : Call) (ok : c.Ok O) :
    ∃ s' r h' R' V' F', step s c = .ok (s', r) ∧ Stands O s' h' R' V' F' ∧
      (¬ c.Leaks s → R' = R) ∧
      Ended O (contents O s.file.disk (flat s.file.disk h headSize))
        (contents O s'.file.disk (flat s'.file.disk h' headSize)) c r := by
  cases c with
  | insert grow key value =>
    rcases dbInsert_spec st ok.1 ok.2 with ⟨_, s', r, h', R', V', F', run, st', lost, same, done⟩ |
      ⟨leak, s', x, F', run, st', sameFlat, sameV, n, stuck⟩
    · refine ⟨s', .status r, h', R', V', F', ?_, st', fun _ => lost, done.ended st.sorted same⟩
      simp only [step, run, bind, Except.bind]
      rfl
    · refine ⟨s', .status (.error .ENOMEM), h, x :: R, V, F', ?_, st', fun keep => absurd leak keep,
        .refused grow key value n stuck ?_⟩
      · simp only [step, run, bind, Except.bind]
        rfl
      · rw [sameFlat]
        refine contents_congr fun e he => valueAt_congr (sameV _ ?_)
        exact st.tree.values.block e (List.mem_append_left _ he)
  | delete key =>
    obtain ⟨s', r, h', V', F', run, st', same, done⟩ := dbDelete_spec st ok
    refine ⟨s', .status r, h', R, V', F', ?_, st', fun _ => rfl, done.ended st.sorted same⟩
    simp only [step, run, bind, Except.bind]
    rfl
  | search key valueSize =>
    refine ⟨s, _, h, R, V, F, ?_, st, fun _ => rfl, found_ended O s.file.disk key valueSize _⟩
    simp only [step, dbSearch_spec st ok valueSize, bind, Except.bind]
    rfl

end Step

end FileDb
