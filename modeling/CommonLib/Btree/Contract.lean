import CommonLib.Btree.Invariants

/- What a caller may rely on who inserts absent keys and removes stored ones. -/
namespace Btree
open OrderedTree
variable {geo : Geo} {t : Tree} {es : List Entry}

theorem Holds.sound (holds : Holds geo t es) : Sound geo t := by
  rcases holds with ⟨none_, flat, _⟩ | ⟨r, us, st, wide, _, _⟩
  · refine ⟨by simp [none_, flat], ?_, ?_, ?_, ?_, ?_, ?_, ?_, ?_⟩
    · exact fun d deep => by omega
    · exact fun d deep => by omega
    · exact fun d deep => by omega
    · have nothing : stored geo t = [] := if_pos flat
      rw [nothing]
      exact .nil
    · exact fun d d' deep => by omega
    · exact fun d d' deep => by omega
    · exact fun d deep => by omega
    · exact fun tall => by omega
  · exact st.sound wide

theorem Holds.stored (holds : Holds geo t es) : stored geo t = es := by
  rcases holds with ⟨_, flat, rfl⟩ | ⟨r, us, st, _, rfl, _⟩
  · exact if_pos flat
  · exact st.stored

/-! ### The map -/

/-- Every call returns what the finite map does. -/
theorem btree_follows_map (geo : Geo) (h : Heap) (cs : List Call) (can : ∀ c ∈ cs, c.Allocates)
    (allowed : Allowed geo cs Store.empty) :
    ∃ t, run geo cs (btreeInit h) = .ok (t, (Store.run cs Store.empty).2) := by
  obtain ⟨t, _, ran, _⟩ := run_spec cs can (init_holds h) allowed
  exact ⟨t, ran⟩

def bump : Calloc where
  addr h := some (h.top + 1)
  fresh h a := by
    rintro ⟨⟩
    exact ⟨Nat.succ_ne_zero _, h.above _ (Nat.le_succ _)⟩

def emptyHeap : Heap := ⟨fun _ => none, 0, fun _ _ => rfl⟩

theorem bump_allocates (key : Key) (val : Nat) : (Call.insert bump key val).Allocates := fun _ => rfl

def sixKeys : List Call := (List.range 6).map fun i => .insert bump [i, 0] (i + 1)

/-- The sixth key splits the root; without two of them its halves are merged again. -/
def fewCalls : List Call :=
  sixKeys ++ [.lookup [4, 0], .remove [0, 0], .remove [1, 0], .lookup [0, 0], .lookup [5, 0]]

theorem fewCalls_allocate : ∀ c ∈ fewCalls, c.Allocates := by
  intro c hc
  rcases List.mem_append.mp hc with inserted | hc
  · obtain ⟨i, _, rfl⟩ := List.mem_map.mp inserted
    exact bump_allocates _ _
  · simp only [List.mem_cons, List.not_mem_nil, or_false] at hc
    rcases hc with rfl | rfl | rfl | rfl | rfl <;> trivial

instance (geo : Geo) (m : Store) : (c : Call) → Decidable (c.Ok geo m)
  | .insert _ _ _ => inferInstanceAs (Decidable (_ ∧ _ ∧ _))
  | .remove _ => inferInstanceAs (Decidable (_ ∧ _))
  | .lookup _ => inferInstanceAs (Decidable (_ = _))

instance decidableAllowed (geo : Geo) : (cs : List Call) → (m : Store) → Decidable (Allowed geo cs m)
  | [], _ => isTrue trivial
  | c :: cs, m =>
    have := decidableAllowed geo cs (m.step c).1
    inferInstanceAs (Decidable (_ ∧ _))

theorem fewCalls_allowed : Allowed btreeGeo128 fewCalls Store.empty := by decide +kernel

def heightAfter (geo : Geo) (cs : List Call) : Option Nat :=
  match run geo cs (btreeInit emptyHeap) with
  | .ok (t, _) => some t.height
  | .error _ => none

theorem heightAfter_eq {cs : List Call} {rs : List Reply} {n : Nat}
    (height : heightAfter geo cs = some n) (ran : run geo cs (btreeInit emptyHeap) = .ok (t, rs)) :
    t.height = n := by
  rw [heightAfter, ran] at height
  exact Option.some.inj height

theorem fewCalls_follow_map : heightAfter btreeGeo128 sixKeys = some 2 ∧
    ∃ t, run btreeGeo128 fewCalls (btreeInit emptyHeap) =
        .ok (t, List.replicate 6 (.status (.ok ())) ++
          [.pointer 5, .pointer 1, .pointer 2, .pointer 0, .pointer 6]) ∧
      t.height = 1 := by
  obtain ⟨t, ran⟩ :=
    btree_follows_map btreeGeo128 emptyHeap fewCalls fewCalls_allocate fewCalls_allowed
  exact ⟨by decide +kernel, t, ran, heightAfter_eq (by decide +kernel) ran⟩

/-! ### The nodes -/

inductive Reached (geo : Geo) (ok : Store → Call → Prop) : Tree → Prop where
  | init (h : Heap) : Reached geo ok (btreeInit h)
  | call {t t' : Tree} {c : Call} {r : Reply} (before : Reached geo ok t)
    (allowed : ok (contents (stored geo t)) c) (done : step geo t c = .ok (t', r)) :
    Reached geo ok t'

theorem Reached.holds (reached : Reached geo (fun m c => c.Ok geo m) t) :
    Holds geo t (Btree.stored geo t) := by
  induction reached with
  | init h => exact init_holds h
  | call before allowed done ih =>
    obtain ⟨t', r, es, stepped, held, _⟩ := step_spec ih _ allowed
    obtain ⟨rfl, _⟩ := Prod.mk.inj (Except.ok.inj (stepped.symm.trans done))
    rw [held.stored]
    exact held

/-- The tree stays sound, and no call on it fails, whichever allocations succeed. -/
theorem btree_stays_sound (geo : Geo) (t : Tree) (reached : Reached geo (fun m c => c.Ok geo m) t) :
    Sound geo t ∧ ∀ c : Call, c.Ok geo (contents (stored geo t)) → ∃ t' r,
        step geo t c = .ok (t', r) := by
  have holds := reached.holds
  refine ⟨holds.sound, fun c ok => ?_⟩
  obtain ⟨t', r, _, stepped, _⟩ := step_spec holds c ok
  exact ⟨t', r, stepped⟩

/-- Calls that the map allows, one after the other, lead to a tree that is reached. -/
theorem Reached.run (reached : Reached geo (fun m c => c.Ok geo m) t) (cs : List Call)
    (can : ∀ c ∈ cs, c.Allocates) (allowed : Allowed geo cs (contents (Btree.stored geo t))) :
    ∃ t' rs, Btree.run geo cs t = .ok (t', rs) ∧ Reached geo (fun m c => c.Ok geo m) t' := by
  induction cs generalizing t with
  | nil => exact ⟨t, [], rfl, reached⟩
  | cons c cs ih =>
    obtain ⟨now, later⟩ := allowed
    obtain ⟨t1, r, es, stepped, held, ended⟩ := step_spec reached.holds c now
    have map := ended.allocated (can c List.mem_cons_self)
    rw [map, ← held.stored] at later
    obtain ⟨t', rs, ran, reached'⟩ :=
      ih (.call reached now stepped) (fun d hd => can d (List.mem_cons_of_mem _ hd)) later
    refine ⟨t', r :: rs, ?_, reached'⟩
    simp only [Btree.run, stepped, ran, bind, Except.bind]
    rfl

theorem sixKeys_sound : ∃ t t' rs rs', run btreeGeo128 sixKeys (btreeInit emptyHeap) = .ok (t, rs) ∧
    t.height = 2 ∧ Sound btreeGeo128 t ∧
    run btreeGeo128 fewCalls (btreeInit emptyHeap) = .ok (t', rs') ∧ t'.height = 1 ∧
    Sound btreeGeo128 t' := by
  have start : Reached btreeGeo128 (fun m c => c.Ok btreeGeo128 m) (btreeInit emptyHeap) :=
    .init emptyHeap
  have empty : contents (stored btreeGeo128 (btreeInit emptyHeap)) = Store.empty := rfl
  obtain ⟨t, rs, ran, reached⟩ := start.run sixKeys
    (fun c hc => fewCalls_allocate c (List.mem_append_left _ hc)) (empty ▸ by decide +kernel)
  obtain ⟨t', rs', ran', reached'⟩ := start.run fewCalls fewCalls_allocate (empty ▸ fewCalls_allowed)
  exact ⟨t, t', rs, rs', ran, heightAfter_eq (by decide +kernel) ran,
    (btree_stays_sound btreeGeo128 t reached).1, ran', heightAfter_eq (by decide +kernel) ran',
    (btree_stays_sound btreeGeo128 t' reached').1⟩

end Btree
