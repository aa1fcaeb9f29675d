import CommonLib.Btree.Contract

/- The nodes that a call takes and frees, and what an insertion leaves behind when a node
   it needs cannot be had. -/
namespace Btree
open OrderedTree
variable {geo : Geo} {t t' : Tree} {es : List Entry} {X : List Nat}

/-! ### The nodes of a tree -/

theorem Owns.nodes (owns : Owns geo t es X) : (nodes geo t).Perm X := by
  rcases owns with ⟨_, flat, _, rfl⟩ | ⟨r, us, st, _, _, _, rfl⟩
  · simp [Btree.nodes, flat]
  · have height := st.height
    have tower : Tower geo t.heap t.node ([] ++ r :: us) := st.tower
    have all := tower.all
    rwa [show (r :: us).length = t.height by omega] at all

theorem Owns.nodup (owns : Owns geo t es X) : X.Nodup := by
  rcases owns with ⟨_, _, _, rfl⟩ | ⟨r, us, st, _, _, _, rfl⟩
  · exact List.nodup_nil
  · exact st.nodup

theorem Owns.live (owns : Owns geo t es X) {a : Nat} (mem : a ∈ X) : t.heap.node a ≠ none := by
  rcases owns with ⟨_, _, _, rfl⟩ | ⟨r, us, st, _, _, _, rfl⟩
  · exact absurd mem List.not_mem_nil
  · exact st.tower.live mem

theorem Owns.congr {h' : Heap} (owns : Owns geo t es X)
    (same : ∀ a ∈ X, h'.node a = t.heap.node a) :
    Owns geo { t with heap := h' } es X := by
  rcases owns with ⟨node, flat, none_, empty⟩ | ⟨r, us, st, wide, row, more, rfl⟩
  · exact .inl ⟨node, flat, none_, empty⟩
  · exact .inr ⟨r, us, ⟨st.tower.congr same, st.nodup, st.height⟩, wide, row, more, rfl⟩

/-- Every node that was in the tree or has been taken since is in the tree or has been given
    back, and no other node has changed. -/
def NoneLost (geo : Geo) (t t' : Tree) : Prop :=
  ∀ a, a ∉ nodes geo t' → t'.heap.node a = if a ∈ nodes geo t then none else t.heap.node a

theorem Moves.noneLost {es' : List Entry} {X' : List Nat} (moves : Moves t.heap t'.heap X X')
    (owns : Owns geo t es X) (owns' : Owns geo t' es' X') : NoneLost geo t t' := by
  intro a out
  rw [owns'.nodes.mem_iff] at out
  by_cases mem : a ∈ nodes geo t
  · rw [if_pos mem]
    exact moves.gone a (owns.nodes.mem_iff.mp mem) out
  · rw [if_neg mem]
    exact moves.same a (mt owns.nodes.mem_iff.mpr mem) out

theorem Owns.step {c : Call} {r : Reply} (owns : Owns geo t es X) (ok : c.Ok geo (contents es))
    (done : step geo t c = .ok (t', r)) :
        ∃ es' X', Owns geo t' es' X' ∧ Moves t.heap t'.heap X X' := by
  cases c with
  | insert mem key val =>
    obtain ⟨len, absent, live⟩ := ok
    obtain ⟨t1, X', moves, ⟨P, Q, run, _, owns'⟩ | ⟨run, _, owns'⟩⟩ :=
      owns.insert mem len live absent
    · simp only [Btree.step, run, bind, Except.bind] at done
      obtain ⟨rfl, _⟩ := Prod.mk.inj (Except.ok.inj done)
      exact ⟨_, X', owns', moves⟩
    · simp only [Btree.step, run, bind, Except.bind] at done
      obtain ⟨rfl, _⟩ := Prod.mk.inj (Except.ok.inj done)
      exact ⟨_, X', owns', moves⟩
  | remove key =>
    obtain ⟨_, present⟩ := ok
    obtain ⟨e, he, rfl⟩ : ∃ e ∈ es, e.1 = key := by
      by_contra none_
      exact present (contents_none_iff.mpr fun e he same => none_ ⟨e, he, same⟩)
    obtain ⟨t1, X', P, Q, run, _, owns', moves⟩ := owns.remove he
    simp only [Btree.step, run, bind, Except.bind] at done
    obtain ⟨rfl, _⟩ := Prod.mk.inj (Except.ok.inj done)
    exact ⟨_, X', owns', moves⟩
  | lookup key =>
    simp only [Btree.step, owns.holds.lookup ok, bind, Except.bind] at done
    obtain ⟨rfl, _⟩ := Prod.mk.inj (Except.ok.inj done)
    exact ⟨es, X, owns, .refl _ _⟩

/-! ### Short of memory -/

theorem Holds.owns (holds : Holds geo t es) : ∃ X, Owns geo t es X := holds_iff.mp holds

/-- An insertion that ends with `-ENOMEM` leaves the stored pairs alone, a sound tree that
    later calls work on, and no node that is neither in the tree nor given back. -/
theorem refused_insert_keeps (geo : Geo) (t : Tree)
    (reached : Reached geo (fun m c => c.Ok geo m) t)
    (mem : Calloc) (key : Key) (val : Nat)
    (ok : (Call.insert mem key val).Ok geo (contents (stored geo t)))
    (t' : Tree) (refused : btreeInsert geo mem t key val = .ok (t', .error .ENOMEM)) :
    stored geo t' = stored geo t ∧ Sound geo t' ∧ NoneLost geo t t' ∧
      ∀ c : Call, c.Ok geo (contents (stored geo t')) → ∃ t'' r, step geo t' c = .ok (t'', r) ∧
        Ended (contents (stored geo t')) (contents (stored geo t'')) c r := by
  obtain ⟨len, absent, live⟩ := ok
  obtain ⟨X, owns⟩ := reached.holds.owns
  obtain ⟨t1, X', moves, ⟨P, Q, run, _⟩ | ⟨run, _, owns'⟩⟩ := owns.insert mem len live absent
  · rw [run] at refused
    obtain ⟨_, wrong⟩ := Prod.mk.inj (Except.ok.inj refused)
    exact nomatch wrong
  · rw [run] at refused
    obtain ⟨rfl, _⟩ := Prod.mk.inj (Except.ok.inj refused)
    have holds := owns'.holds
    refine ⟨holds.stored, holds.sound, moves.noneLost owns owns', fun c allowed => ?_⟩
    rw [holds.stored] at allowed ⊢
    obtain ⟨t'', r, es', stepped, held, ended⟩ := step_spec holds c allowed
    exact ⟨t'', r, stepped, held.stored.symm ▸ ended⟩

def exhausted : Calloc := ⟨fun _ => none, fun _ _ given => nomatch given⟩

def eightInserts : List Call := (List.range 8).map fun i => .insert bump [i + 1] (i + 1)

theorem eightInserts_run : ∃ t rs, run btreeGeo32 eightInserts (btreeInit emptyHeap) = .ok (t, rs) ∧
    Reached btreeGeo32 (fun m c => c.Ok btreeGeo32 m) t ∧
    contents (stored btreeGeo32 t) = (Store.run eightInserts Store.empty).1 := by
  have allowed : Allowed btreeGeo32 eightInserts Store.empty := by
    simp [eightInserts, List.range, List.range.loop, Allowed, Call.Ok, Store.step, Store.empty,
      btreeGeo32,
      Function.update]
  have can : ∀ c ∈ eightInserts, c.Allocates := by simp [eightInserts, Call.Allocates, bump]
  have init : Holds btreeGeo32 (btreeInit emptyHeap) [] := init_holds emptyHeap
  obtain ⟨t, es, ran, held, map⟩ := run_spec eightInserts can init allowed
  have start : Reached btreeGeo32 (fun m c => c.Ok btreeGeo32 m) (btreeInit emptyHeap) :=
    .init emptyHeap
  obtain ⟨t', rs, ran', reached⟩ := start.run eightInserts can allowed
  obtain ⟨rfl, rfl⟩ := Prod.mk.inj (Except.ok.inj (ran.symm.trans ran'))
  exact ⟨t, _, ran, reached, held.stored.symm ▸ map⟩

theorem refused_insert_keeps_sample : ∃ t rs t', run btreeGeo32 eightInserts
    (btreeInit emptyHeap) = .ok (t, rs) ∧
    btreeInsert btreeGeo32 exhausted t [9] 9 = .ok (t', .error .ENOMEM) ∧
    stored btreeGeo32 t' = stored btreeGeo32 t ∧ NoneLost btreeGeo32 t t' := by
  have refused : (run btreeGeo32 eightInserts (btreeInit emptyHeap) >>= fun p =>
      btreeInsert btreeGeo32 exhausted p.1 [9] 9).map Prod.snd =
        .ok (.error .ENOMEM) := by decide +kernel
  obtain ⟨t, rs, ran, reached, map⟩ := eightInserts_run
  simp only [ran, bind, Except.bind] at refused
  cases inserted : btreeInsert btreeGeo32 exhausted t [9] 9 with
  | error fault => simp [inserted, Except.map] at refused
  | ok p =>
    obtain ⟨t', r⟩ := p
    obtain rfl : r = .error .ENOMEM := by simpa [inserted, Except.map] using refused
    have ok : (Call.insert exhausted [9] 9).Ok btreeGeo32 (contents (stored btreeGeo32 t)) := by
      refine ⟨rfl, ?_, by decide⟩
      rw [map]
      simp [eightInserts, List.range, List.range.loop, Store.run, Store.step, Store.empty]
    obtain ⟨same, _, kept, _⟩ := refused_insert_keeps btreeGeo32 t reached exhausted
      [9] 9 ok t' inserted
    exact ⟨t, _, t', ran, inserted, same, kept⟩

end Btree
