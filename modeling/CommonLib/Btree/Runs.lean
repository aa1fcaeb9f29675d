import CommonLib.Btree.Lookup
import CommonLib.Btree.Insert
import CommonLib.Btree.Remove
import Mathlib.Logic.Function.Basic

/- Sequences of calls on a tree that `btree_init` has made, beside the finite map they are
   meant to be. -/
namespace Btree
open OrderedTree

inductive Call where
  | insert (mem : Calloc) (key : Key) (val : Nat)
  | remove (key : Key)
  | lookup (key : Key)

inductive Reply where
  | status (r : Except Errno Unit)
  | pointer (val : Nat)

def step (geo : Geo) (t : Tree) : Call → Result (Tree × Reply)
  | .insert mem key val => do
    let (t, r) ← btreeInsert geo mem t key val
    return (t, .status r)
  | .remove key => do
    let (t, val) ← btreeRemove geo t key
    return (t, .pointer val)
  | .lookup key => do
    let val ← btreeLookup geo t key
    return (t, .pointer val)

def run (geo : Geo) : List Call → Tree → Result (Tree × List Reply)
  | [], t => .ok (t, [])
  | c :: cs, t => do
    let (t, r) ← step geo t c
    let (t, rs) ← run geo cs t
    return (t, r :: rs)

/-! ### The finite map -/

abbrev Store := Key → Option Nat

def Store.empty : Store := fun _ => none

def Store.step (m : Store) : Call → Store × Reply
  | .insert _ key val => (Function.update m key (some val), .status (.ok ()))
  | .remove key => (Function.update m key none, .pointer ((m key).getD 0))
  | .lookup key => (m, .pointer ((m key).getD 0))

def Store.run : List Call → Store → Store × List Reply
  | [], m => (m, [])
  | c :: cs, m =>
    let (m, r) := m.step c
    let (m, rs) := Store.run cs m
    (m, r :: rs)

/-- The calls that are made: no key is inserted twice, and only stored ones are removed. -/
def Call.Ok (geo : Geo) (m : Store) : Call → Prop
  | .insert _ key val => key.length = geo.keylen ∧ m key = none ∧ val ≠ 0
  | .remove key => key.length = geo.keylen ∧ m key ≠ none
  | .lookup key => key.length = geo.keylen

def Allowed (geo : Geo) : List Call → Store → Prop
  | [], _ => True
  | c :: cs, m => c.Ok geo m ∧ Allowed geo cs (m.step c).1

def Call.Allocates : Call → Prop
  | .insert mem _ _ => ∀ h, (mem.addr h).isSome
  | _ => True

/-- How a call ends: as the map says, or with an insertion that no node could be had for. -/
inductive Ended (m m' : Store) : Call → Reply → Prop where
  | done (c : Call) (r : Reply) (eq : m.step c = (m', r)) : Ended m m' c r
  | refused (mem : Calloc) (key : Key) (val : Nat) (short : mem.Refuses) (same : m' = m) :
    Ended m m' (.insert mem key val) (.status (.error .ENOMEM))

theorem Ended.allocated {m m' : Store} {c : Call} {r : Reply} (ended : Ended m m' c r)
    (can : c.Allocates) :
    m.step c = (m', r) := by
  cases ended with
  | done c r eq => exact eq
  | refused mem key val short same =>
    obtain ⟨h, none_⟩ := short
    have given := can h
    rw [none_] at given
    exact nomatch given

/-! ### One call -/

theorem contents_insert {P Q : List Entry} {e : Entry} (sorted : Decreasing (P ++ e :: Q)) :
    contents (P ++ e :: Q) = Function.update (contents (P ++ Q)) e.1 (some e.2) := by
  funext k
  rw [contents, lookup_insert sorted.ordered]
  by_cases here : k = e.1
  · have same : rank e = OrderDual.toDual k := here ▸ rfl
    rw [if_pos same, here, Function.update_self]
    rfl
  · rw [Function.update_of_ne here, if_neg fun same => here same.symm]
    rfl

theorem contents_remove {P Q : List Entry} {e : Entry} (sorted : Decreasing (P ++ e :: Q)) :
    contents (P ++ Q) = Function.update (contents (P ++ e :: Q)) e.1 none := by
  rw [contents_insert sorted, Function.update_idem]
  have gone : contents (P ++ Q) e.1 = none := by
    have absent : lookup rank (P ++ Q) (OrderDual.toDual e.1) = none :=
      lookup_removed sorted.ordered
    rw [contents, absent]
    rfl
  rw [← gone, Function.update_eq_self]

variable {geo : Geo} {t : Tree} {es : List Entry} {key : Key}

/-- The tree in memory, with the entries `es` in its leaves. -/
def Holds (geo : Geo) (t : Tree) (es : List Entry) : Prop :=
  t.node = 0 ∧ t.height = 0 ∧ es = [] ∨
    ∃ r us, Standing geo t 1 (r :: us) ∧ Wide r us ∧ rowEntries r = es ∧ es ≠ []

theorem Holds.decreasing (holds : Holds geo t es) : Decreasing es := by
  rcases holds with ⟨_, _, rfl⟩ | ⟨r, us, st, _, rfl, _⟩
  · exact .nil
  · exact st.decreasing

theorem Holds.lookup (holds : Holds geo t es) (len : key.length = geo.keylen) :
    btreeLookup geo t key = .ok ((contents es key).getD 0) := by
  rcases holds with ⟨_, flat, rfl⟩ | ⟨r, us, st, _, rfl, _⟩
  · unfold btreeLookup
    rw [if_pos flat]
    rfl
  · exact btreeLookup_spec st len

def Owns (geo : Geo) (t : Tree) (es : List Entry) (X : List Nat) : Prop :=
  t.node = 0 ∧ t.height = 0 ∧ es = [] ∧ X = [] ∨
    ∃ r us, Standing geo t 1 (r :: us) ∧ Wide r us ∧ rowEntries r = es ∧ es ≠ [] ∧
      addrs (r :: us) = X

theorem holds_iff : Holds geo t es ↔ ∃ X, Owns geo t es X := by
  constructor
  · rintro (⟨node, height, none_⟩ | ⟨r, us, st, wide, row, more⟩)
    · exact ⟨[], .inl ⟨node, height, none_, rfl⟩⟩
    · exact ⟨_, .inr ⟨r, us, st, wide, row, more, rfl⟩⟩
  · rintro ⟨X, ⟨node, height, none_, _⟩ | ⟨r, us, st, wide, row, more, _⟩⟩
    · exact .inl ⟨node, height, none_⟩
    · exact .inr ⟨r, us, st, wide, row, more⟩

theorem Owns.holds {X : List Nat} (owns : Owns geo t es X) : Holds geo t es :=
  holds_iff.mpr ⟨X, owns⟩

theorem Owns.insert {X : List Nat} (owns : Owns geo t es X) (mem : Calloc) {val : Nat}
    (len : key.length = geo.keylen) (live : val ≠ 0) (absent : contents es key = none) :
    ∃ t' X', Moves t.heap t'.heap X X' ∧
      ((∃ P Q, btreeInsert geo mem t key val = .ok (t', .ok ()) ∧ es = P ++ Q ∧
          Owns geo t' (P ++ (key, val) :: Q) X') ∨
        btreeInsert geo mem t key val = .ok (t', .error .ENOMEM) ∧ mem.Refuses ∧
            Owns geo t' es X') := by
  have four := geo.four
  have other := contents_none_iff.mp absent
  unfold btreeInsert
  rcases owns with ⟨empty, flat, rfl, rfl⟩ | ⟨r, us, st, wide, rfl, more, rfl⟩
  · cases given : mem.addr t.heap with
    | none =>
      exact ⟨t, [], .refl _ _, .inr ⟨btreeInsertLevel_refused live (by omega) given, ⟨_, given⟩,
        .inl ⟨empty, flat, rfl, rfl⟩⟩⟩
    | some a =>
      obtain ⟨t1, grown, st1, moves⟩ := @btreeGrow_first geo mem t a given empty
      rw [btreeInsertLevel_grow live (by omega) grown]
      rw [flat] at st1
      obtain ⟨t', r', us', run, made⟩ :=
        insert_room mem (btreeInsertLevel geo mem (t.height + 1)) 1 st1
        (fun more => absurd rfl more) len live (by simp [rowEntries])
        ⟨[], _, _, [], rfl, .inr rfl, WithTop.coe_lt_top _, by simp; omega⟩
      obtain ⟨P, Q, old, new⟩ := made.entries
      refine ⟨t', _, moves.trans made.moves, .inl ⟨P, Q, run, by simpa [rowEntries] using old,
        .inr ⟨r', us', made.standing, made.wide, new, ?_, rfl⟩⟩⟩
      simp
  · have height := st.height
    rw [List.length_cons] at height
    rw [btreeInsertLevel_stay live (by omega)]
    obtain ⟨t', r', us', ⟨run, made⟩ | ⟨run, short, settled⟩⟩ :=
      insertRetry_spec mem us.length (t.height + 1)
      (by omega) 1 t r us key val rfl st wide len live other
    · obtain ⟨P, Q, old, new⟩ := made.entries
      refine ⟨t', _, made.moves, .inl ⟨P, Q, run, old,
        .inr ⟨r', us', made.standing, made.wide, new, ?_, rfl⟩⟩⟩
      simp
    · exact ⟨t', _, settled.moves, .inr ⟨run, short,
        .inr ⟨r', us', settled.standing, settled.wide, settled.entries, more, rfl⟩⟩⟩

theorem Holds.insert (holds : Holds geo t es) (mem : Calloc) {val : Nat}
    (len : key.length = geo.keylen)
    (live : val ≠ 0) (absent : contents es key = none) :
    ∃ t', (∃ P Q, btreeInsert geo mem t key val = .ok (t', .ok ()) ∧ es = P ++ Q ∧
        Holds geo t' (P ++ (key, val) :: Q)) ∨
      btreeInsert geo mem t key val = .ok (t', .error .ENOMEM) ∧ mem.Refuses ∧ Holds geo t' es := by
  obtain ⟨X, owns⟩ := holds_iff.mp holds
  obtain ⟨t', X', _, ⟨P, Q, run, old, owns'⟩ | ⟨run, short, owns'⟩⟩ :=
    owns.insert mem len live absent
  · exact ⟨t', .inl ⟨P, Q, run, old, owns'.holds⟩⟩
  · exact ⟨t', .inr ⟨run, short, owns'.holds⟩⟩

theorem Removed.owns {h : Heap} {r : Level} {us : List Level} {t' : Tree}
    (height : t.height + 1 = 1 + (us.length + 1))
    (removed : Removed geo h 1 t r us t') :
    ∃ X', Owns geo t' (rowEntries r) X' ∧ Moves h t'.heap (addrs (r :: us)) X' := by
  rcases removed with ⟨r', us', made, more, _⟩ | ⟨rfl, es, rfl, low, left, moves⟩
  · exact ⟨_, .inr ⟨r', us', made.standing, made.wide, made.entries, more, rfl⟩, made.moves⟩
  · rw [List.length_nil] at height
    rcases left with ⟨rfl, node⟩ | ⟨_, _, _, tall⟩
    · exact ⟨[], .inl ⟨node, by omega, by simp [rowEntries], rfl⟩, by simpa [top] using moves⟩
    · omega

theorem Removed.holds {h : Heap} {r : Level} {us : List Level} {t' : Tree}
    (height : t.height + 1 = 1 + (us.length + 1))
    (removed : Removed geo h 1 t r us t') : Holds geo t' (rowEntries r) := by
  obtain ⟨X', owns, _⟩ := removed.owns height
  exact owns.holds

theorem Owns.remove {X : List Nat} (owns : Owns geo t es X) {e : Entry} (mem : e ∈ es) :
    ∃ t' X' P Q, btreeRemove geo t e.1 = .ok (t', e.2) ∧ es = P ++ e :: Q ∧
      Owns geo t' (P ++ Q) X' ∧
      Moves t.heap t'.heap X X' := by
  rcases owns with ⟨_, _, rfl, _⟩ | ⟨r, us, st, wide, rfl, _, rfl⟩
  · exact absurd mem List.not_mem_nil
  · obtain ⟨p, hp, he⟩ := List.mem_flatMap.mp mem
    obtain ⟨A, B, rfl⟩ := List.append_of_mem hp
    obtain ⟨s, es⟩ := p
    obtain ⟨E, F, rfl⟩ := List.append_of_mem he
    have height := st.height
    rw [List.length_cons] at height
    have page := st.tower.2.1 (s, E ++ e :: F) (by simp)
    have len : e.1.length = geo.keylen := by
      obtain ⟨node, _, view⟩ := page.node
      exact view.key_length (by simp)
    have lowers : 0 < us.length → Lowers geo (1 + 1) (us.length - 1) (btreeRemoveLevel geo t.height) :=
      fun more => removeLevel_spec (us.length - 1) t.height (by omega) 2 (by omega)
    obtain ⟨t', run, removed⟩ := remove_level (.buffer e.1) rfl lowers st wide (fun _ _ => rfl) len
      (page.ok.low e (by simp)) (page.ok.high e (by simp)) fun _ _ _ _ => rfl
    obtain ⟨X', owns', moves⟩ := removed.owns height
    refine ⟨t', X', rowEntries A ++ E, F ++ rowEntries B, ?_, by simp, ?_, ?_⟩
    · unfold btreeRemove
      rw [if_neg (by omega)]
      exact run
    · simpa using owns'
    · simpa using moves

theorem Holds.remove (holds : Holds geo t es) {e : Entry} (mem : e ∈ es) :
    ∃ t' P Q, btreeRemove geo t e.1 = .ok (t', e.2) ∧ es = P ++ e :: Q ∧ Holds geo t' (P ++ Q) := by
  obtain ⟨X, owns⟩ := holds_iff.mp holds
  obtain ⟨t', X', P, Q, run, old, owns', _⟩ := owns.remove mem
  exact ⟨t', P, Q, run, old, owns'.holds⟩

theorem step_spec (holds : Holds geo t es) (c : Call) (ok : c.Ok geo (contents es)) :
    ∃ t' r es', step geo t c = .ok (t', r) ∧ Holds geo t' es' ∧
        Ended (contents es) (contents es') c r := by
  cases c with
  | insert mem key val =>
    obtain ⟨len, absent, live⟩ := ok
    obtain ⟨t', ⟨P, Q, run, rfl, held⟩ | ⟨run, short, held⟩⟩ := holds.insert mem len live absent
    · refine ⟨t', .status (.ok ()), P ++ (key, val) :: Q, ?_, held, .done _ _ ?_⟩
      · simp only [step, run, bind, Except.bind]
        rfl
      · rw [contents_insert held.decreasing]
        rfl
    · refine ⟨t', .status (.error .ENOMEM), es, ?_, held, .refused mem key val short rfl⟩
      simp only [step, run, bind, Except.bind]
      rfl
  | remove key =>
    obtain ⟨_, present⟩ := ok
    obtain ⟨e, he, rfl⟩ : ∃ e ∈ es, e.1 = key := by
      by_contra none_
      exact present (contents_none_iff.mpr fun e he same => none_ ⟨e, he, same⟩)
    have sorted := holds.decreasing
    obtain ⟨t', P, Q, run, rfl, held⟩ := holds.remove he
    refine ⟨t', .pointer e.2, P ++ Q, ?_, held, .done _ _ ?_⟩
    · simp only [step, run, bind, Except.bind]
      rfl
    · rw [contents_remove sorted, Store.step, contents_at sorted]
      rfl
  | lookup key =>
    refine ⟨t, .pointer ((contents es key).getD 0), es, ?_, holds, .done _ _ rfl⟩
    simp only [step, holds.lookup ok, bind, Except.bind]
    rfl

theorem run_spec (cs : List Call) (can : ∀ c ∈ cs, c.Allocates) (holds : Holds geo t es)
    (ok : Allowed geo cs (contents es)) :
    ∃ t' es', run geo cs t = .ok (t', (Store.run cs (contents es)).2) ∧ Holds geo t' es' ∧
      contents es' = (Store.run cs (contents es)).1 := by
  induction cs generalizing t es with
  | nil => exact ⟨t, es, rfl, holds, rfl⟩
  | cons c cs ih =>
    obtain ⟨t1, r, es1, stepped, held, ended⟩ := step_spec holds c ok.1
    have map := ended.allocated (can c List.mem_cons_self)
    have rest := ok.2
    rw [map] at rest
    obtain ⟨t', es', ran, held', map'⟩ :=
      ih (fun c hc => can c (List.mem_cons_of_mem _ hc)) held rest
    refine ⟨t', es', ?_, held', ?_⟩
    · simp only [run, stepped, ran, bind, Except.bind, Store.run, map]
      rfl
    · simp only [Store.run, map]
      exact map'

theorem init_holds (h : Heap) : Holds geo (btreeInit h) [] := .inl ⟨rfl, rfl, rfl⟩

end Btree
