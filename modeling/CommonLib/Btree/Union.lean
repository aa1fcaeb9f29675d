import CommonLib.Btree.Account

/- `btree_merge`: the largest key of the victim, read through a pointer into one of its
   leaves, is inserted into the target and removed from the victim until none is left. -/
namespace Btree
open OrderedTree
variable {geo : Geo} {t : Tree} {es fs : List Entry} {X Y : List Nat}

/-! ### The largest key -/

theorem lastLoop_succ (h : Heap) (n a : Nat) :
    lastLoop geo h (n + 1) a = lastLoop geo h n a >>= fun b => lastLoop geo h 1 b := by
  induction n generalizing a with
  | zero => rfl
  | succ n ih =>
    rw [lastLoop]
    conv_rhs => rw [lastLoop]
    cases h.get a with
    | error fault => rfl
    | ok node => exact ih (bval geo node 0)

theorem lastLoop_spec {h : Heap} {root : Nat} (us : List Level) (p : Page Key Nat) (r : Level)
    (tower : Tower geo h root ((p :: r) :: us)) : lastLoop geo h us.length root = .ok p.1.node := by
  induction us generalizing p r with
  | nil =>
    have first := (List.cons.inj tower.1).1
    rw [first]
    rfl
  | cons u us ih =>
    obtain ⟨spans_, _, filled, rest⟩ := tower
    cases u with
    | nil => exact nomatch spans_
    | cons q u =>
      obtain ⟨node, here, view⟩ := (rest.2.1 q List.mem_cons_self).node
      have two := filled _ List.mem_cons_self q List.mem_cons_self
      obtain ⟨e, es, eq⟩ := List.exists_cons_of_ne_nil
        (List.ne_nil_of_length_pos (by omega : 0 < q.2.length))
      rw [eq] at view
      have child : bval geo node 0 = e.2 := View.val_at (A := []) view
      have first : p.1 = ⟨e.1, e.2, q.1.high⟩ := by
        have below_ : floor geo root ((q :: u) :: us) =
            ⟨e.1, e.2, q.1.high⟩ :: (spans e.1 es ++ below u) := by
          rw [floor, below_cons, eq]
          rfl
        exact (List.cons.inj (spans_.trans below_)).1
      rw [List.length_cons, lastLoop_succ, ih q u rest]
      change lastLoop geo h 1 q.1.node = _
      rw [lastLoop, get_ok here, first, ← child]
      rfl

theorem Owns.last {f : Entry} (owns : Owns geo t (f :: fs) X) :
    f.1.length = geo.keylen ∧ f.2 ≠ 0 ∧ ∃ a ∈ X, btreeLast geo t = .ok (some (.pair a 0)) ∧
      ∀ h : Heap, h.node a = t.heap.node a → deref geo h (.pair a 0) = .ok f.1 := by
  rcases owns with ⟨_, _, none_, _⟩ | ⟨r, us, st, wide, row, _, rfl⟩
  · exact nomatch none_
  · have height := st.height
    rw [List.length_cons] at height
    cases r with
    | nil => exact nomatch row
    | cons p r =>
      have page := st.tower.2.1 p List.mem_cons_self
      obtain ⟨node, here, view⟩ := page.node
      -- the first page is not empty, be it the root or another
      have first : ∃ es, p.2 = f :: es := by
        rw [rowEntries_cons] at row
        cases entries : p.2 with
        | cons e es =>
          rw [entries] at row
          exact ⟨es, by rw [(List.cons.inj row).1]⟩
        | nil =>
          by_cases root : us = []
          · subst root
            obtain ⟨q, rows, _⟩ := List.map_eq_singleton_iff.mp st.tower.1
            obtain ⟨_, rfl⟩ := List.cons.inj rows
            rw [entries] at row
            exact nomatch row
          · have two := wide root p List.mem_cons_self
            rw [entries] at two
            exact absurd two (by simp)
      obtain ⟨es, entries⟩ := first
      rw [entries] at view
      refine ⟨view.key_length List.mem_cons_self,
        page.live f (by simp [entries]), p.1.node, by simp, ?_, ?_⟩
      · have steps : t.height - 1 = us.length := by omega
        rw [btreeLast, if_neg (by omega), steps, lastLoop_spec us p r st.tower]
        rfl
      · intro h same
        exact deref_pair (E := []) (same.trans here) view

/-! ### Two trees in one memory -/

def Store.union (a b : Store) : Store := fun k => (a k).or (b k)

theorem union_move {a b : Store} {k : Key} {val : Nat} (absent : a k = none) :
    Store.union (Function.update a k (some val)) b =
        Store.union a (Function.update b k (some val)) := by
  funext x
  unfold Store.union
  by_cases here : x = k
  · rw [here, Function.update_self, Function.update_self, absent]
    rfl
  · rw [Function.update_of_ne here, Function.update_of_ne here]

theorem Owns.tree_congr {d : Head} {h h' : Heap} (owns : Owns geo (d.tree h) es X)
    (same : ∀ a ∈ X, h'.node a = h.node a) : Owns geo (d.tree h') es X := Owns.congr owns same

theorem Moves.apart {h h' : Heap} {X' : List Nat} (moves : Moves h h' X X')
    (live : ∀ a ∈ Y, h.node a ≠ none)
    (apart : ∀ a ∈ Y, a ∉ X) : (∀ a ∈ Y, a ∉ X') ∧ ∀ a ∈ Y, h'.node a = h.node a :=
  ⟨fun a mem => (moves.beside (live a mem) (apart a mem)).1, fun a mem =>
    (moves.beside (live a mem) (apart a mem)).2⟩

theorem Decreasing.first {f : Entry} {P Q : List Entry} (sorted : Decreasing (f :: fs))
    (split : f :: fs = P ++ f :: Q) : P ++ Q = fs := by
  cases P with
  | nil => exact (List.cons.inj split).2.symm
  | cons e P =>
    obtain ⟨_, rest⟩ := List.cons.inj split
    have less := (List.pairwise_cons.mp sorted).1 f (by simp [rest])
    exact absurd less (lt_irrefl _)

structure Merging.Ready (geo : Geo) (m : Merging) (es fs : List Entry) : Prop where
  trees : ∃ X Y, Owns geo (m.target.tree m.heap) es X ∧ Owns geo (m.victim.tree m.heap) fs Y ∧
    ∀ a ∈ Y, a ∉ X
  keys : ∀ k, contents es k = none ∨ contents fs k = none

theorem contents_cons {f : Entry} (sorted : Decreasing (f :: fs)) :
    contents (f :: fs) = Function.update (contents fs) f.1 (some f.2) :=
      contents_insert (P := []) sorted

theorem contents_cons_gone {f : Entry} (sorted : Decreasing (f :: fs)) :
    contents fs f.1 = none := by
  have removed : contents fs = _ := contents_remove (P := []) (e := f) sorted
  rw [removed, Function.update_self]

/-- A turn of the loop moves the victim's first entry. -/
theorem Merging.Ready.turn {m : Merging} {f : Entry} (mem : Calloc) (can : ∀ h, (mem.addr h).isSome)
    (ready : m.Ready geo es (f :: fs)) :
    ∃ m' es', (∀ fuel, mergeLoop geo mem (fuel + 1) m = mergeLoop geo mem fuel m') ∧
      m'.Ready geo es' fs ∧ contents es' = Function.update (contents es) f.1 (some f.2) := by
  obtain ⟨X, Y, target, victim, apart⟩ := ready.trees
  obtain ⟨len, live, a, mine, last, reads⟩ := victim.last
  have sorted := victim.holds.decreasing
  have value : contents (f :: fs) f.1 = some f.2 := contents_at (E := []) sorted
  have absent : contents es f.1 = none := (ready.keys f.1).resolve_right (by simp [value])
  have found := victim.holds.lookup len
  rw [value] at found
  obtain ⟨t1, X1, moves1, ⟨P, Q, inserted, old, target1⟩ | ⟨_, ⟨h, none_⟩, _⟩⟩ :=
    target.insert mem len live absent
  · -- the victim is beside the nodes of the target
    obtain ⟨apart1, same1⟩ := moves1.apart (fun b hb => victim.live hb) apart
    have victim1 : Owns geo (m.victim.tree t1.heap) (f :: fs) Y := victim.tree_congr same1
    obtain ⟨v', Y1, P', Q', removed, split, victim2, moves2⟩ := victim1.remove List.mem_cons_self
    rw [sorted.first split] at victim2
    have apart' : ∀ b ∈ X1, b ∉ Y := fun b hb hy => apart1 b hy hb
    obtain ⟨apart2, same2⟩ := moves2.apart (fun b hb => target1.live hb) apart'
    have target2 : Owns geo (t1.head.tree v'.heap) (P ++ (f.1, f.2) :: Q) X1 := target1.congr same2
    have map := contents_insert (e := (f.1, f.2)) target1.holds.decreasing
    rw [← old] at map
    refine ⟨⟨t1.head, v'.head, v'.heap, f.1⟩, _, ?_,
      ⟨⟨X1, Y1, target2, victim2, fun b hb hx => apart2 b hx hb⟩, ?_⟩,
      map⟩
    · intro fuel
      have look : btreeLookup geo (m.victim.tree m.heap) f.1 = .ok f.2 := found
      rw [mergeLoop]
      simp only [last, reads m.heap rfl, look, inserted, reads t1.heap (same1 a mine), removed,
        bind, Except.bind]
    · intro k
      by_cases here : k = f.1
      · exact .inr (here ▸ contents_cons_gone sorted)
      · rw [map, Function.update_of_ne here]
        refine (ready.keys k).imp_right fun out => ?_
        rwa [contents_cons sorted, Function.update_of_ne here] at out
  · have given := can h
    rw [none_] at given
    exact nomatch given

theorem Merging.Ready.finish {m : Merging} (mem : Calloc) (ready : m.Ready geo es []) :
    (∀ fuel, mergeLoop geo mem (fuel + 1) m = .ok (m, .ok ())) ∧ m.victim = ⟨0, 0⟩ := by
  obtain ⟨X, Y, _, ⟨node, height, _, _⟩ | ⟨_, _, _, _, _, some, _⟩, _⟩ := ready.trees
  · constructor
    · intro fuel
      rw [mergeLoop, btreeLast, if_pos height]
      rfl
    · change m.victim.node = 0 at node
      change m.victim.height = 0 at height
      cases hm : m.victim with
      | mk n k =>
        rw [hm] at node height
        rw [show n = 0 from node, show k = 0 from height]
  · exact absurd rfl some

theorem Merging.Ready.run {m : Merging} (mem : Calloc) (can : ∀ h, (mem.addr h).isSome)
    (ready : m.Ready geo es fs) :
    ∃ m' es', (∀ fuel, fs.length < fuel → mergeLoop geo mem fuel m = .ok (m', .ok ())) ∧
      m'.victim = ⟨0, 0⟩ ∧
      m'.Ready geo es' [] ∧ contents es' = Store.union (contents es) (contents fs) := by
  induction fs generalizing m es with
  | nil =>
    obtain ⟨ends, empty⟩ := ready.finish mem
    refine ⟨m, es, ?_, empty, ready, ?_⟩
    · intro fuel enough
      obtain ⟨fuel, rfl⟩ := Nat.exists_eq_succ_of_ne_zero (Nat.ne_of_gt enough)
      exact ends fuel
    · funext k
      exact (Option.or_none ..).symm
  | cons f fs ih =>
    obtain ⟨_, _, _, victim, _⟩ := ready.trees
    have sorted := victim.holds.decreasing
    have absent : contents es f.1 = none :=
      (ready.keys f.1).resolve_right (by simp [contents_cons sorted])
    obtain ⟨m1, es1, turn, ready1, map1⟩ := ready.turn mem can
    obtain ⟨m', es', run, empty, done, map⟩ := ih ready1
    refine ⟨m', es', ?_, empty, done, ?_⟩
    · intro fuel enough
      obtain ⟨fuel, rfl⟩ := Nat.exists_eq_succ_of_ne_zero (Nat.ne_of_gt (Nat.zero_lt_of_lt enough))
      rw [turn]
      exact run fuel (Nat.lt_of_succ_lt_succ enough)
    · rw [map, map1, union_move absent, contents_cons sorted]

/-- The heads that calls lead to when two trees lie in one memory. -/
inductive ReachedBoth (geo : Geo) : Head → Head → Heap → Prop where
  | init (h : Heap) : ReachedBoth geo ⟨0, 0⟩ ⟨0, 0⟩ h
  | target {d v : Head} {h : Heap} {t' : Tree} {c : Call} {r : Reply}
    (before : ReachedBoth geo d v h)
    (allowed : c.Ok geo (contents (stored geo (d.tree h))))
    (done : step geo (d.tree h) c = .ok (t', r)) :
    ReachedBoth geo t'.head v t'.heap
  | victim {d v : Head} {h : Heap} {t' : Tree} {c : Call} {r : Reply}
    (before : ReachedBoth geo d v h)
    (allowed : c.Ok geo (contents (stored geo (v.tree h))))
    (done : step geo (v.tree h) c = .ok (t', r)) :
    ReachedBoth geo d t'.head t'.heap

theorem ReachedBoth.owns {d v : Head} {h : Heap} (reached : ReachedBoth geo d v h) :
    ∃ X Y, Owns geo (d.tree h) (stored geo (d.tree h)) X ∧
      Owns geo (v.tree h) (stored geo (v.tree h)) Y ∧
      ∀ a ∈ Y, a ∉ X := by
  induction reached with
  | init h => exact ⟨[], [], .inl ⟨rfl, rfl, rfl, rfl⟩, .inl ⟨rfl, rfl, rfl, rfl⟩, by simp⟩
  | target before allowed done ih =>
    obtain ⟨X, Y, owns, other, apart⟩ := ih
    obtain ⟨es', X', owns', moves⟩ := owns.step allowed done
    obtain ⟨apart', same⟩ := moves.apart (fun a ha => other.live ha) apart
    have other' := other.tree_congr same
    exact ⟨X', Y, owns'.holds.stored.symm ▸ owns', other'.holds.stored.symm ▸ other', apart'⟩
  | victim before allowed done ih =>
    obtain ⟨X, Y, other, owns, apart⟩ := ih
    obtain ⟨es', Y', owns', moves⟩ := owns.step allowed done
    obtain ⟨apart', same⟩ := moves.apart (fun a ha => other.live ha) fun a hx hy => apart a hy hx
    have other' := other.tree_congr same
    exact ⟨X, Y', other'.holds.stored.symm ▸ other', owns'.holds.stored.symm ▸ owns',
      fun a hy hx => apart' a hx hy⟩

/-- With memory for every node `btree_merge` returns 0; the target then answers for both
    maps, and the victim is empty. -/
theorem merge_unites (geo : Geo) {d v : Head} {h : Heap} (reached : ReachedBoth geo d v h)
    (mem : Calloc)
    (can : ∀ h, (mem.addr h).isSome)
    (keys : ∀ k, contents (stored geo (d.tree h)) k = none ∨
    contents (stored geo (v.tree h)) k = none)
    (duplicate : Key) :
    ∃ m', (∀ fuel, (stored geo (v.tree h)).length < fuel →
        btreeMerge geo mem fuel ⟨d, v, h, duplicate⟩ = .ok (m', .ok ())) ∧
      contents (stored geo (m'.target.tree m'.heap)) =
        Store.union (contents (stored geo (d.tree h))) (contents (stored geo (v.tree h))) ∧
      (∀ key, key.length = geo.keylen → btreeLookup geo (m'.target.tree m'.heap) key = .ok
        ((Store.union (contents (stored geo (d.tree h)))
        (contents (stored geo (v.tree h))) key).getD 0)) ∧
      Sound geo (m'.target.tree m'.heap) ∧ m'.victim = ⟨0, 0⟩ := by
  obtain ⟨X, Y, target, victim, apart⟩ := reached.owns
  by_cases empty : d.node = 0
  · -- the fields are copied
    have none_ : stored geo (d.tree h) = [] := by
      rcases target with ⟨_, _, none_, _⟩ | ⟨r, us, st, _⟩
      · exact none_
      · exact absurd empty st.tower.root_live
    rw [none_]
    exact ⟨⟨v, ⟨0, 0⟩, h, duplicate⟩, fun fuel _ => if_pos empty, rfl,
      fun key len => victim.holds.lookup len,
      victim.holds.sound, rfl⟩
  · have ready : Merging.Ready geo ⟨d, v, h, duplicate⟩ _ _ := ⟨⟨X, Y, target, victim, apart⟩, keys⟩
    obtain ⟨m', es', run, gone, ⟨⟨_, _, owns, _⟩, _⟩, map⟩ := ready.run mem can
    rw [← map]
    refine ⟨m', fun fuel enough => (if_neg empty).trans (run fuel enough), ?_,
      fun key len => owns.holds.lookup len, owns.holds.sound, gone⟩
    rw [owns.holds.stored]

theorem merge_unites_sample : ∃ d v h m', ReachedBoth btreeGeo32 d v h ∧
    btreeMerge btreeGeo32 bump 2 ⟨d, v, h, []⟩ = .ok (m', .ok ()) ∧ m'.victim = ⟨0, 0⟩ ∧
    contents (stored btreeGeo32 (m'.target.tree m'.heap)) [1] = some 7 ∧
    contents (stored btreeGeo32 (m'.target.tree m'.heap)) [2] = some 8 := by
  -- one insertion into each
  obtain ⟨t1, t2, step1, step2, stored1, stored2⟩ : ∃ t1 t2,
      step btreeGeo32 (btreeInit emptyHeap) (.insert bump [1] 7) = .ok (t1, .status (.ok ())) ∧
      step btreeGeo32 (btreeInit t1.heap) (.insert bump [2] 8) = .ok (t2, .status (.ok ())) ∧
      stored btreeGeo32 (t1.head.tree t2.heap) = [([1], 7)] ∧ stored btreeGeo32 t2 = [([2], 8)] :=
    ⟨_, _, rfl, rfl, by decide +kernel, by decide +kernel⟩
  have allowed1 : (Call.insert bump [1] 7).Ok btreeGeo32
      (contents (stored btreeGeo32 (btreeInit emptyHeap))) := ⟨rfl, rfl, by decide⟩
  have allowed2 : (Call.insert bump [2] 8).Ok btreeGeo32
      (contents (stored btreeGeo32 (btreeInit t1.heap))) := ⟨rfl, rfl, by decide⟩
  have reached : ReachedBoth btreeGeo32 t1.head t2.head t2.heap :=
    .victim (.target (.init emptyHeap) allowed1 step1) allowed2 step2
  have target : contents (stored btreeGeo32 (t1.head.tree t2.heap)) =
      Function.update Store.empty [1] (some 7) := by
    rw [stored1]
    exact contents_insert (P := []) (Q := []) (List.pairwise_singleton _ _)
  have victim : contents (stored btreeGeo32 (t2.head.tree t2.heap)) =
      Function.update Store.empty [2] (some 8) := by
    change contents (stored btreeGeo32 t2) = _
    rw [stored2]
    exact contents_insert (P := []) (Q := []) (List.pairwise_singleton _ _)
  obtain ⟨m', run, map, _, _, empty⟩ := merge_unites btreeGeo32 reached bump (fun h => rfl) (by
    intro k
    rw [target, victim]
    by_cases one : k = [1]
    · right
      rw [one]
      decide
    · left
      rw [Function.update_of_ne one]
      rfl) []
  rw [target, victim] at map
  have size : (stored btreeGeo32 (t2.head.tree t2.heap)).length < 2 := by
    change (stored btreeGeo32 t2).length < 2
    rw [stored2]
    decide
  refine ⟨_, _, _, m', reached, run 2 size, empty, ?_, ?_⟩
  · rw [map]
    decide
  · rw [map]
    decide

end Btree
