import CommonLib.Rbtree.Insertion
import CommonLib.Rbtree.Deletion
import CommonLib.OrderedTree.Circle

/- Whole runs of insertions and removals, from `ngx_rbtree_init` on. -/
namespace Rbtree
open SearchTree

inductive Call where
  | insert (node : Nat) (key : BitVec 64)
  | delete (node : Nat)
  deriving DecidableEq, Repr

def Call.node : Call → Nat
  | .insert node _ => node
  | .delete node => node

def Call.key : Call → Option (BitVec 64)
  | .insert _ key => some key
  | .delete _ => none

def keys (calls : List Call) : List (BitVec 64) := calls.filterMap Call.key

def call (insertAt : Nat → Tree → Nat → Nat → Option Tree) (fuel : Nat) (t : Tree) :
    Call → Option Tree
  | .insert node key => do insert insertAt fuel (← t.setKey node key) node
  | .delete node => delete fuel t node

def run (insertAt : Nat → Tree → Nat → Nat → Option Tree) (fuel : Nat) (mem : Mem) (s : Nat)
    (calls : List Call) : Option Tree := do
  calls.foldlM (call insertAt fuel) (← init mem s)

/-- What the calls are for: a list, where a new entry comes behind those with the same key. -/
def apply (less : BitVec 64 → BitVec 64 → Bool) (es : List Entry) : Call → List Entry
  | .insert node key => es.orderedInsert (fun a b => less a.key b.key = true) ⟨node, key⟩
  | .delete node => es.filter (·.addr ≠ node)

/-- A node that is put in is there and not in the tree; one that is taken out is in it. -/
def Call.Proper (mem : Mem) (s : Nat) (es : List Entry) : Call → Prop
  | .insert node _ => (mem node).isSome ∧ node ≠ s ∧ ∀ e ∈ es, e.addr ≠ node
  | .delete node => ∃ e ∈ es, e.addr = node

def Proper (less : BitVec 64 → BitVec 64 → Bool) (mem : Mem) (s : Nat) :
    List Entry → List Call → Prop
  | _, [] => True
  | es, c :: calls => c.Proper mem s es ∧ Proper less mem s (apply less es c) calls

def Ranked (less : BitVec 64 → BitVec 64 → Bool) (rank : BitVec 64 → Int) (keys : List (BitVec 64)) :
    Prop :=
  ∀ a ∈ keys, ∀ b ∈ keys, less a b = true ↔ rank a < rank b

theorem Ranked.mono {less : BitVec 64 → BitVec 64 → Bool} {rank : BitVec 64 → Int}
    {keys more : List (BitVec 64)} (ranked : Ranked less rank more) (sub : keys ⊆ more) :
    Ranked less rank keys :=
  fun a ha b hb => ranked a (sub ha) b (sub hb)

def Stores (t : Tree) (s : Nat) (es : List Entry) : Prop :=
  ∃ top whole, Holds t s top [] whole ∧ RedBlack whole ∧ entries whole = es

def Ascending (rank : BitVec 64 → Int) (es : List Entry) : Prop :=
  es.Pairwise fun a b => rank a.key ≤ rank b.key

section Order
variable {less : BitVec 64 → BitVec 64 → Bool} {rank : BitVec 64 → Int} {es : List Entry}

theorem ascending_insert {e : Entry} (ascending : Ascending rank es)
    (ranked : Ranked less rank (e.key :: es.map (·.key))) :
    Ascending rank (es.orderedInsert (fun a b => less a.key b.key = true) e) := by
  induction es with
  | nil => exact List.pairwise_singleton _ _
  | cons x es ih =>
    obtain ⟨first, rest⟩ := List.pairwise_cons.mp ascending
    have here := ranked e.key (by simp) x.key (by simp)
    have ranked' : Ranked less rank (e.key :: es.map (·.key)) := fun a ha b hb =>
      ranked a (by simp at ha ⊢; tauto) b (by simp at hb ⊢; tauto)
    rw [List.orderedInsert]
    split
    · rename_i smaller
      have lt := here.mp smaller
      refine List.pairwise_cons.mpr ⟨fun b member => ?_, ascending⟩
      rcases List.mem_cons.mp member with rfl | member
      · exact Int.le_of_lt lt
      · exact (Int.le_of_lt lt).trans (first b member)
    · rename_i larger
      refine List.pairwise_cons.mpr ⟨fun b member => ?_, ih rest ranked'⟩
      rcases List.mem_cons.mp ((List.perm_orderedInsert _ e es).mem_iff.mp member) with rfl | member
      · exact Int.not_lt.mp fun lt => larger (here.mpr lt)
      · exact first b member

theorem ascending_apply (c : Call) (ascending : Ascending rank es)
    (ranked : ∀ node key, c = .insert node key → Ranked less rank (key :: es.map (·.key))) :
    Ascending rank (apply less es c) := by
  cases c with
  | insert node key => exact ascending_insert ascending (ranked node key rfl)
  | delete node => exact ascending.filter _

theorem entries_insert_perm (less : BitVec 64 → BitVec 64 → Bool) (whole : Shape) (q : Nat) (key : BitVec 64) :
    (entries (plug (SearchTree.descend (fun c => less key c.item.key) whole [])
      (leaf q key))).Perm (⟨q, key⟩ :: entries whole) := by
  have bare := inorder_plug (SearchTree.descend (fun c => less key c.item.key) whole []) .nil
  rw [plug_descend, plug] at bare
  rw [entries, entries, inorder_plug, bare, ← List.map_cons (f := fun c : Cell => c.item)
    (a := ⟨true, ⟨q, key⟩⟩)]
  refine List.Perm.map _ ?_
  simp [leaf, inorder, List.perm_middle]

theorem entries_insert_eq {whole : Shape} (ascending : Ascending rank (entries whole))
    {key : BitVec 64} (ranked : Ranked less rank (key :: (entries whole).map (·.key))) (q : Nat) :
    entries (plug (SearchTree.descend (fun c => less key c.item.key) whole []) (leaf q key)) =
      apply less (entries whole) (.insert q key) := by
  have rising : (inorder whole).Pairwise fun c d : Cell =>
      less key c.item.key = true → less key d.item.key = true := by
    have cells := List.pairwise_map.mp ascending
    refine List.Pairwise.imp_of_mem (fun {c d} hc hd le smaller => ?_) cells
    have inC : c.item.key ∈ key :: (entries whole).map (·.key) := by
      simp only [entries, List.map_map, List.mem_cons, List.mem_map, Function.comp_def]
      exact .inr ⟨c, hc, rfl⟩
    have inD : d.item.key ∈ key :: (entries whole).map (·.key) := by
      simp only [entries, List.map_map, List.mem_cons, List.mem_map, Function.comp_def]
      exact .inr ⟨d, hd, rfl⟩
    have lt := (ranked key (by simp) _ inC).mp smaller
    exact (ranked key (by simp) _ inD).mpr (lt.trans_le le)
  have insert := inorder_insert (r := fun c d : Cell => less c.item.key d.item.key = true)
    (x := ⟨true, ⟨q, key⟩⟩) (t := whole) rising
  simp only [Bool.decide_eq_true] at insert
  rw [entries, leaf, insert, apply, entries]
  exact List.map_orderedInsert _ _ _ _ _ (fun _ _ => Iff.rfl) fun _ _ => Iff.rfl

end Order

section Steps
variable {less : BitVec 64 → BitVec 64 → Bool} {rank : BitVec 64 → Int} {es es' : List Entry}
  {t : Tree} {s fuel : Nat}

theorem Holds.there {nil top : Nat} {whole : Shape} {p : Nat} (h : Holds t nil top [] whole)
    (member : p ∈ addrs whole) : (t.mem p).isSome := by
  obtain ⟨x, inside, rfl⟩ := List.mem_map.mp member
  obtain ⟨front, back, split⟩ := List.append_of_mem inside
  obtain ⟨path, l, r, rfl, _⟩ := exists_place split
  have here : Holds t nil top path (.node x l r) := holds_plug.mpr h
  rw [here.inner.1]
  rfl

structure Within (t t' : Tree) (s : Nat) (places : List Nat) : Prop where
  kept : ∀ p, p ≠ s → p ∉ places → t'.mem p = t.mem p
  there : ∀ p, (t.mem p).isSome → (t'.mem p).isSome

theorem Within.trans {t' t'' : Tree} {places : List Nat} (first : Within t t' s places)
    (second : Within t' t'' s places) : Within t t'' s places :=
  ⟨fun p out outside => (second.kept p out outside).trans (first.kept p out outside),
    fun p there => second.there p (first.there p there)⟩

theorem Within.mono {t' : Tree} {places more : List Nat} (within : Within t t' s places)
    (sub : places ⊆ more) : Within t t' s more :=
  ⟨fun p out outside => within.kept p out fun member => outside (sub member), within.there⟩

theorem call_insert (less : BitVec 64 → BitVec 64 → Bool) {q : Nat} {key : BitVec 64} (stores : Stores t s es)
    (here : (t.mem q).isSome) (out : q ≠ s) (fresh : ∀ e ∈ es, e.addr ≠ q)
    (enough : 2 * Nat.log 2 (es.length + 1) < fuel) :
    ∃ t' es', call (insertBy less) fuel t (.insert q key) = some t' ∧ Stores t' s es' ∧
      es'.Perm (⟨q, key⟩ :: es) ∧
      (∀ rank, Ascending rank es → Ranked less rank (key :: es.map (·.key)) →
        es' = apply less es (.insert q key)) ∧
      Within t t' s (q :: es.map (·.addr)) := by
  obtain ⟨top, whole, holds, redBlack, rfl⟩ := stores
  obtain ⟨node, here⟩ := Option.isSome_iff_exists.mp here
  obtain ⟨t1, step1, wrote⟩ : ∃ t1, t.setKey q key = some t1 ∧
      Wrote t q { node with key := key } t1 := modify_wrote here
  have freshQ : q ∉ addrs whole := by
    rw [addrs_entries]
    intro member
    obtain ⟨e, inside, same⟩ := List.mem_map.mp member
    exact fresh e inside same
  have holds1 : Holds t1 s top [] whole := by
    refine holds.frame wrote.root wrote.sentinel ?_ fun p member => wrote.other p ?_
    · rw [Tree.isRed, Tree.isRed, Tree.get, Tree.get, wrote.other s out.symm]
    · rintro rfl
      exact freshQ (by simpa [addrsAround, around] using member)
  have size : whole.numNodes = (entries whole).length := by
    rw [entries, List.length_map, length_inorder]
  obtain ⟨t2, top', whole', step2, holds2, redBlack2, order, kept⟩ :=
    insert_holds less holds1 redBlack wrote.here freshQ out
      (show 2 * Nat.log 2 (whole.numNodes + 1) < fuel by rw [size]; exact enough)
  have placed := entries_insert_perm less whole q key
  rw [← order] at placed
  refine ⟨t2, _, by simp [call, step1, step2], ⟨top', whole', holds2, redBlack2, rfl⟩, placed,
    fun rank ascending ranked => order.trans (entries_insert_eq ascending ranked q), ?_, ?_⟩
  · intro p _ outside
    rw [← addrs_entries] at outside
    rw [kept p outside, wrote.other p fun same => outside (by rw [same]; exact List.mem_cons_self)]
  · intro p before
    by_cases outside : p ∈ q :: addrs whole
    · refine holds2.there ?_
      rw [addrs_entries, (placed.map _).mem_iff, List.map_cons, ← addrs_entries]
      exact outside
    · rwa [kept p outside, wrote.other p fun same => outside (by rw [same]; exact List.mem_cons_self)]

theorem call_delete (less : BitVec 64 → BitVec 64 → Bool) {q : Nat} (stores : Stores t s es) (inside : ∃ e ∈ es, e.addr = q)
    (enough : 2 * Nat.log 2 (es.length + 1) < fuel) :
    ∃ t', call (insertBy less) fuel t (.delete q) = some t' ∧
      Stores t' s (apply less es (.delete q)) ∧ Wiped t' q ∧ Within t t' s (es.map (·.addr)) := by
  obtain ⟨top, whole, holds, redBlack, rfl⟩ := stores
  have member : q ∈ addrs whole := by
    rw [addrs_entries]
    exact List.mem_map.mpr inside
  obtain ⟨x, cell, rfl⟩ := List.mem_map.mp member
  have size : whole.numNodes = (entries whole).length := by
    rw [entries, List.length_map, length_inorder]
  rw [← size] at enough
  obtain ⟨front, back, split⟩ := List.append_of_mem cell
  obtain ⟨path, l, r, rfl, _⟩ := exists_place split
  have here : Holds t s top path (.node x l r) := holds_plug.mpr holds
  obtain ⟨t', top', whole', step, holds', redBlack', wiped, order, kept⟩ :=
    delete_holds here redBlack enough
  have rest : apply less (entries (plug path (.node x l r))) (.delete (addr x)) =
      entries whole' := by
    have places := places_plug.nodup_iff.mp here.apart
    rw [addrs, inorder_plug, inorder] at places
    have others : ∀ c ∈ before path ++ (inorder l ++ inorder r) ++ after path,
        (addr c) ≠ addr x := by
      intro c inside same
      simp only [List.map_append, List.map_cons, List.nodup_append, List.nodup_cons, List.mem_append,
        List.mem_map, List.mem_cons] at places inside
      grind
    have kept : ((before path ++ (inorder l ++ inorder r) ++ after path).map (·.item)).filter
        (·.addr ≠ addr x) =
          (before path ++ (inorder l ++ inorder r) ++ after path).map (·.item) := by
      refine List.filter_eq_self.mpr fun e member => ?_
      obtain ⟨c, inside, rfl⟩ := List.mem_map.mp member
      simpa [addr_eq] using others c inside
    rw [order, apply, entries, inorder_plug, inorder, ← kept]
    simp [addr_eq]
  refine ⟨t', step, ⟨top', whole', holds', redBlack', rest.symm⟩, wiped, ?_, ?_⟩
  · intro p out outside
    rw [← addrs_entries] at outside
    exact kept p (by simp [out, outside])
  · intro p before
    by_cases same : p = addr x
    · obtain ⟨red, cleared⟩ := wiped
      rw [same, cleared]
      rfl
    · by_cases sentinel : p = s
      · obtain ⟨node, there, _⟩ := Option.map_eq_some_iff.mp holds'.black
        rw [sentinel]
        exact Option.isSome_of_eq_some there
      · by_cases outside : p ∈ addrs (plug path (.node x l r))
        · refine holds'.there ?_
          rw [addrs_entries, ← rest, apply]
          rw [addrs_entries] at outside
          obtain ⟨e, inside, rfl⟩ := List.mem_map.mp outside
          exact List.mem_map.mpr ⟨e, List.mem_filter.mpr ⟨inside, by simpa using same⟩, rfl⟩
        · rwa [kept p (by simp [sentinel, outside])]

theorem call_stores (less : BitVec 64 → BitVec 64 → Bool) {c : Call} (stores : Stores t s es') (same : es'.Perm es)
    (proper : c.Proper t.mem s es) (enough : 2 * Nat.log 2 (es.length + 1) < fuel) :
    ∃ t' es'', call (insertBy less) fuel t c = some t' ∧ Stores t' s es'' ∧
      es''.Perm (apply less es c) ∧
      (∀ rank, Ascending rank es → Ranked less rank (c.key.toList ++ es.map (·.key)) → es' = es →
        es'' = apply less es c) ∧
      Within t t' s (c.node :: es.map (·.addr)) := by
  rw [← same.length_eq] at enough
  cases c with
  | insert q key =>
    obtain ⟨here, out, fresh⟩ := proper
    obtain ⟨t', es'', step, stores', placed, inOrder, within⟩ := call_insert less stores here
      out (fun e member => fresh e (same.mem_iff.mp member)) enough
    refine ⟨t', es'', step, stores', ?_, ?_, within.mono ?_⟩
    · exact placed.trans ((same.cons _).trans (List.perm_orderedInsert _ _ es).symm)
    · rintro rank ascending ranked rfl
      exact inOrder rank ascending ranked
    · intro p member
      exact (((same.map (·.addr)).cons q).mem_iff).mp member
  | delete q =>
    obtain ⟨e, member, here⟩ := proper
    obtain ⟨t', step, stores', _, within⟩ := call_delete less stores
      ⟨e, same.mem_iff.mpr member, here⟩ enough
    refine ⟨t', _, step, stores', same.filter _, ?_, within.mono ?_⟩
    · rintro rank _ _ rfl
      rfl
    · intro p inside
      exact List.mem_cons_of_mem _ ((same.map (·.addr)).mem_iff.mp inside)

theorem length_apply (less : BitVec 64 → BitVec 64 → Bool) (es : List Entry) (c : Call) : (apply less es c).length ≤ es.length + 1 := by
  cases c with
  | insert q key => rw [apply, List.orderedInsert_length]
  | delete q => exact (List.length_filter_le _ _).trans (Nat.le_succ _)

theorem addr_apply {es : List Entry} {c : Call} {e : Entry} (member : e ∈ apply less es c) :
    e.addr = c.node ∨ e ∈ es := by
  cases c with
  | insert q key =>
    rcases List.mem_cons.mp ((List.perm_orderedInsert _ _ es).mem_iff.mp member) with rfl | old
    · exact .inl rfl
    · exact .inr old
  | delete q => exact .inr (List.mem_filter.mp member).1

theorem key_apply {es : List Entry} {c : Call} {e : Entry} (member : e ∈ apply less es c) :
    e.key ∈ c.key.toList ++ es.map (·.key) := by
  cases c with
  | insert q key =>
    rcases List.mem_cons.mp ((List.perm_orderedInsert _ _ es).mem_iff.mp member) with rfl | old
    · simp [Call.key]
    · exact List.mem_append_right _ (List.mem_map_of_mem old)
  | delete q => exact List.mem_append_right _ (List.mem_map_of_mem (List.mem_filter.mp member).1)

/-- What one call does, every run of calls does. -/
theorem calls_store (less : BitVec 64 → BitVec 64 → Bool) {mem : Mem} {calls : List Call} (stores : Stores t s es') (same : es'.Perm es)
    (there : ∀ p, (mem p).isSome → (t.mem p).isSome) (proper : Proper less mem s es calls)
    (enough : 2 * Nat.log 2 (es.length + calls.length + 1) < fuel) :
    ∃ t' es'', calls.foldlM (call (insertBy less) fuel) t = some t' ∧ Stores t' s es'' ∧
      es''.Perm (calls.foldl (apply less) es) ∧
      (∀ rank, Ascending rank es → Ranked less rank (keys calls ++ es.map (·.key)) → es' = es →
        es'' = calls.foldl (apply less) es ∧ Ascending rank es'') ∧
      Within t t' s (calls.map Call.node ++ es.map (·.addr)) := by
  induction calls generalizing t es es' with
  | nil =>
    refine ⟨t, es', rfl, stores, same, ?_, fun _ _ _ => rfl, fun _ => id⟩
    rintro rank ascending _ rfl
    exact ⟨rfl, ascending⟩
  | cons c calls ih =>
    obtain ⟨now, later⟩ := proper
    have proper' : c.Proper t.mem s es := by
      cases c with
      | insert q key => exact ⟨there q now.1, now.2⟩
      | delete q => exact now
    have small : 2 * Nat.log 2 (es.length + 1) < fuel := by
      refine lt_of_le_of_lt (Nat.mul_le_mul_left 2 (Nat.log_mono_right ?_)) enough
      omega
    obtain ⟨t1, es1, step, stores1, same1, exact1, within1⟩ :=
      call_stores less stores same proper' small
    have enough1 : 2 * Nat.log 2 ((apply less es c).length + calls.length + 1) < fuel := by
      refine lt_of_le_of_lt (Nat.mul_le_mul_left 2 (Nat.log_mono_right ?_)) enough
      have grows := length_apply less es c
      rw [List.length_cons]
      omega
    obtain ⟨t2, es2, run, stores2, same2, exact2, within2⟩ :=
      ih stores1 same1 (fun p here => within1.there p (there p here)) later enough1
    refine ⟨t2, es2, ?_, stores2, same2, ?_, (within1.mono ?_).trans (within2.mono ?_)⟩
    · rw [List.foldlM_cons, step]
      exact run
    · intro rank ascending ranked equal
      have split : keys (c :: calls) = c.key.toList ++ keys calls := by
        cases c <;> rfl
      rw [split] at ranked
      have equal1 := exact1 rank ascending (ranked.mono (by simp)) equal
      refine exact2 rank (ascending_apply c ascending ?_) (ranked.mono ?_) equal1
      · rintro q key rfl
        exact ranked.mono (by simp [Call.key])
      · intro k member
        rcases List.mem_append.mp member with later | old
        · simp [later]
        · obtain ⟨e, inside, rfl⟩ := List.mem_map.mp old
          have source := key_apply inside
          simp only [List.mem_append] at source ⊢
          tauto
    · simp
    · intro p member
      rcases List.mem_append.mp member with later | old
      · simp [later]
      · obtain ⟨e, inside, rfl⟩ := List.mem_map.mp old
        rcases addr_apply inside with now | old
        · simp [now]
        · exact List.mem_append_right _ (List.mem_map_of_mem old)

end Steps

section Runs
variable {mem : Mem} {s fuel : Nat} {calls : List Call}

theorem init_stores (sentinel : (mem s).isSome) :
    ∃ t, init mem s = some t ∧ Stores t s [] ∧ Within ⟨mem, s, s⟩ t s [] := by
  obtain ⟨node, here⟩ := Option.isSome_iff_exists.mp sentinel
  obtain ⟨t, step, wrote⟩ := setRed_wrote (t := ⟨mem, s, s⟩) here false
  have empty : Holds t s 0 [] .nil := by
    refine ⟨⟨trivial, trivial, List.nodup_nil, by simp [addrs, inorder, addrsAround, around]⟩,
      wrote.sentinel, wrote.root, ?_⟩
    simp [Tree.isRed, Tree.get, wrote.here]
  refine ⟨t, step, ⟨0, .nil, empty, ⟨rfl, 0, .nil⟩, rfl⟩, fun p other _ => wrote.other p other,
    fun p there => ?_⟩
  by_cases same : p = s
  · rw [same, wrote.here]
    rfl
  · rwa [wrote.other p same]

/-- Every run from an empty tree returns, within the fuel that the height of a red-black tree
    asks for. -/
theorem run_stores {less : BitVec 64 → BitVec 64 → Bool} (sentinel : (mem s).isSome)
    (proper : Proper less mem s [] calls) (enough : 2 * Nat.log 2 (calls.length + 1) < fuel) :
    ∃ t es, run (insertBy less) fuel mem s calls = some t ∧ Stores t s es ∧
      es.Perm (calls.foldl (apply less) []) ∧
      (∀ rank, Ranked less rank (keys calls) →
        es = calls.foldl (apply less) [] ∧ Ascending rank es) ∧
      ∀ p, p ≠ s → (∀ c ∈ calls, c.node ≠ p) → t.mem p = mem p := by
  obtain ⟨t, start, stores, within⟩ := init_stores sentinel
  obtain ⟨t', es, run', stores', same, inOrder, within'⟩ := calls_store less stores
    (List.Perm.refl []) within.there proper (show 2 * Nat.log 2 ([].length + calls.length + 1) < fuel
      by simpa using enough)
  refine ⟨t', es, by simp [run, start, run'], stores', same, fun rank ranked => ?_,
    fun p other outside => ?_⟩
  · exact inOrder rank List.Pairwise.nil (by simpa using ranked) rfl
  · have untouched : p ∉ calls.map Call.node ++ [].map Entry.addr := by
      intro member
      obtain ⟨c, inside, same⟩ := List.mem_map.mp (by simpa using member)
      exact outside c inside same
    rw [within'.kept p other untouched, within.kept p other (by simp)]

/-- Whatever the comparison is, the tree stays a red-black tree of the nodes put in and not taken
    out, and nothing but the sentinel and these nodes is written. -/
theorem run_redBlack {less : BitVec 64 → BitVec 64 → Bool} (sentinel : (mem s).isSome)
    (proper : Proper less mem s [] calls) (enough : 2 * Nat.log 2 (calls.length + 1) < fuel) :
    ∃ t top whole, run (insertBy less) fuel mem s calls = some t ∧ Holds t s top [] whole ∧
      RedBlack whole ∧ (entries whole).Perm (calls.foldl (apply less) []) ∧
      ∀ p, p ≠ s → (∀ c ∈ calls, c.node ≠ p) → t.mem p = mem p := by
  obtain ⟨t, _, step, ⟨top, whole, holds, redBlack, rfl⟩, same, _, kept⟩ :=
    run_stores sentinel proper enough
  exact ⟨t, top, whole, step, holds, redBlack, same, kept⟩

def sampleMem : Mem := fun p => if p = 1 ∨ p = 2 ∨ p = 3 ∨ p = 9 then some ⟨5, 6, 7, 8, true⟩ else none

def sampleCalls : List Call := [.insert 1 50, .insert 2 70, .insert 3 60, .delete 3, .insert 3 50]

theorem sample_proper : Proper keyLess sampleMem 9 [] sampleCalls :=
  ⟨⟨rfl, by decide, by decide⟩, ⟨rfl, by decide, by decide⟩, ⟨rfl, by decide, by decide⟩,
    ⟨⟨3, 60⟩, by decide, rfl⟩, ⟨rfl, by decide, by decide⟩, trivial⟩

theorem sample_fuel : 2 * Nat.log 2 (sampleCalls.length + 1) < 9 := by
  have low : Nat.log 2 6 < 3 := Nat.log_lt_of_lt_pow (by decide) (by decide)
  exact (Nat.mul_lt_mul_of_pos_left low (by decide)).trans (by decide)

theorem run_redBlack_sample : ∃ t top whole,
    run (insertBy keyLess) 9 sampleMem 9 sampleCalls = some t ∧ Holds t 9 top [] whole ∧
      RedBlack whole ∧ (entries whole).Perm [⟨1, 50⟩, ⟨3, 50⟩, ⟨2, 70⟩] ∧
      ∀ p, p ≠ 9 → (∀ c ∈ sampleCalls, c.node ≠ p) → t.mem p = sampleMem p :=
  run_redBlack (by decide) sample_proper sample_fuel

theorem keyLess_ranked (ks : List (BitVec 64)) : Ranked keyLess (fun k => (k.toNat : Int)) ks := by
  intro a _ b _
  simp [keyLess, BitVec.ult]

/-- With `ngx_rbtree_insert_value` the nodes stand in the order of their keys, and those with the
    same key in the order they came in. -/
theorem run_insertValue (sentinel : (mem s).isSome) (proper : Proper keyLess mem s [] calls)
    (enough : 2 * Nat.log 2 (calls.length + 1) < fuel) :
    ∃ t top whole, run insertValue fuel mem s calls = some t ∧ Holds t s top [] whole ∧
      RedBlack whole ∧ entries whole = calls.foldl (apply keyLess) [] ∧
      (entries whole).Pairwise fun a b => a.key.toNat ≤ b.key.toNat := by
  obtain ⟨t, _, step, ⟨top, whole, holds, redBlack, rfl⟩, _, inOrder, _⟩ :=
    run_stores sentinel proper enough
  obtain ⟨same, ascending⟩ := inOrder _ (keyLess_ranked _)
  exact ⟨t, top, whole, step, holds, redBlack, same, ascending.imp Int.ofNat_le.mp⟩

theorem run_insertValue_sample : ∃ t top whole,
    run insertValue 9 sampleMem 9 sampleCalls = some t ∧ Holds t 9 top [] whole ∧
      RedBlack whole ∧ entries whole = [⟨1, 50⟩, ⟨3, 50⟩, ⟨2, 70⟩] ∧
      (entries whole).Pairwise fun a b => a.key.toNat ≤ b.key.toNat :=
  run_insertValue (by decide) sample_proper sample_fuel

/-- How far a timer value is behind `base`, on a circle of 64 bits. -/
def since (base : Int) (k : BitVec 64) : Int := ((k.toNat : Int) - base) % (2 * 2 ^ 63 : Nat)

theorem timerLess_ranked {base : Int} {ks : List (BitVec 64)}
    (near : ∀ k ∈ ks, since base k < (2 ^ 63 : Nat)) : Ranked timerLess (since base) ks := by
  intro a ha b hb
  have compare : OrderedTree.circleCmp (2 ^ 63) (fun k : BitVec 64 => (k.toNat : Int)) a b =
      since base a - since base b :=
    OrderedTree.circleCmp_eq (near a ha) (near b hb) (by decide)
  have signed : timerLess a b = true ↔
      OrderedTree.circleCmp (2 ^ 63) (fun k : BitVec 64 => (k.toNat : Int)) a b < 0 := by
    rw [timerLess, BitVec.slt, decide_eq_true_iff, BitVec.toInt_sub, BitVec.toInt_eq_toNat_bmod,
      BitVec.toInt_eq_toNat_bmod, Int.bmod_sub_bmod, Int.sub_bmod_bmod]
    rfl
  rw [signed, compare]
  omega

/-- With `ngx_rbtree_insert_timer_value` the nodes stand in the order of their times, also where
    these overflow, as long as all of them are within half of the circle. -/
theorem run_insertTimerValue {base : Int}
    (near : ∀ k ∈ keys calls, since base k < (2 ^ 63 : Nat)) (sentinel : (mem s).isSome)
    (proper : Proper timerLess mem s [] calls) (enough : 2 * Nat.log 2 (calls.length + 1) < fuel) :
    ∃ t top whole, run insertTimerValue fuel mem s calls = some t ∧ Holds t s top [] whole ∧
      RedBlack whole ∧ entries whole = calls.foldl (apply timerLess) [] ∧
      (entries whole).Pairwise fun a b => since base a.key ≤ since base b.key := by
  obtain ⟨t, _, step, ⟨top, whole, holds, redBlack, rfl⟩, _, inOrder, _⟩ :=
    run_stores sentinel proper enough
  obtain ⟨same, ascending⟩ := inOrder _ (timerLess_ranked near)
  exact ⟨t, top, whole, step, holds, redBlack, same, ascending⟩

def sampleTimers : List Call := [.insert 1 1, .insert 2 0xffffffffffffffff, .insert 3 0]

theorem run_insertTimerValue_sample :
    sampleTimers.foldl (apply timerLess) [] = [⟨2, 0xffffffffffffffff⟩, ⟨3, 0⟩, ⟨1, 1⟩] ∧
      ∃ t top whole, run insertTimerValue 9 sampleMem 9 sampleTimers = some t ∧
        Holds t 9 top [] whole ∧ RedBlack whole ∧
        entries whole = sampleTimers.foldl (apply timerLess) [] ∧
        (entries whole).Pairwise fun a b =>
          since 0xffffffffffffffff a.key ≤ since 0xffffffffffffffff b.key := by
  have low : Nat.log 2 4 < 3 := Nat.log_lt_of_lt_pow (by decide) (by decide)
  have enough : 2 * Nat.log 2 (sampleTimers.length + 1) < 9 :=
    (Nat.mul_lt_mul_of_pos_left low (by decide)).trans (by decide)
  have near : ∀ k ∈ keys sampleTimers, since 0xffffffffffffffff k < (2 ^ 63 : Nat) := by
    simp [keys, sampleTimers, Call.key, since]
  have second : ∀ e ∈ apply timerLess [] (.insert 1 1), e.addr ≠ 2 := by decide
  have third : ∀ e ∈ apply timerLess (apply timerLess [] (.insert 1 1)) (.insert 2 0xffffffffffffffff),
      e.addr ≠ 3 := by decide +kernel
  exact ⟨by decide +kernel, run_insertTimerValue near (by decide)
    ⟨⟨rfl, by decide, by decide⟩, ⟨rfl, by decide, second⟩, ⟨rfl, by decide, third⟩, trivial⟩ enough⟩

end Runs

end Rbtree
