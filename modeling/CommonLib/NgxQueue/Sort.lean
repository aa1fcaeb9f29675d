import CommonLib.NgxQueue.Contents
import Mathlib.Data.List.Sort

/- The insertion sort from the back, and the walks over a queue. -/
namespace NgxQueue
open Links

variable {m : Mem} {cmp : Nat → Nat → Int} {h q : Nat} {xs R S : List Nat} {fuel turns : Nat}

/-! ### The sort of a list -/

abbrev Behind (cmp : Nat → Nat → Int) (a b : Nat) : Prop := cmp b a ≤ 0

def put (cmp : Nat → Nat → Int) (xs : List Nat) (q : Nat) : List Nat :=
  (xs.reverse.orderedInsert (Behind cmp) q).reverse

def sorted (cmp : Nat → Nat → Int) (xs : List Nat) : List Nat :=
  (xs.reverse.insertionSort (Behind cmp)).reverse

theorem put_eq (cmp : Nat → Nat → Int) (xs : List Nat) (q : Nat) :
    put cmp xs q = (xs.reverse.dropWhile fun p => ¬ Behind cmp q p).reverse ++
      q :: (xs.reverse.takeWhile fun p => ¬ Behind cmp q p).reverse := by
  rw [put, List.orderedInsert_eq_take_drop, List.reverse_append, List.reverse_cons,
    List.append_assoc, List.singleton_append]

theorem foldl_put (cmp : Nat → Nat → Int) (xs : List Nat) :
    xs.foldl (put cmp) [] = sorted cmp xs := by
  induction xs using List.reverseRecOn with
  | nil => rfl
  | append_singleton xs x ih =>
    rw [List.foldl_append, ih, sorted, sorted, List.reverse_append]
    simp [put]

theorem sorted_perm (cmp : Nat → Nat → Int) (xs : List Nat) : (sorted cmp xs).Perm xs :=
  (List.reverse_perm _).trans ((List.perm_insertionSort _ _).trans (List.reverse_perm xs))

/-- A comparison that orders the nodes, ties allowed. -/
structure Compares (cmp : Nat → Nat → Int) : Prop where
  total : ∀ a b, cmp a b ≤ 0 ∨ cmp b a ≤ 0
  trans : ∀ a b c, cmp a b ≤ 0 → cmp b c ≤ 0 → cmp a c ≤ 0

theorem sorted_ordered (compares : Compares cmp) (xs : List Nat) :
    (sorted cmp xs).Pairwise fun a b => cmp a b ≤ 0 := by
  have total : Std.Total (Behind cmp) := ⟨fun a b => compares.total b a⟩
  have trans : IsTrans Nat (Behind cmp) := ⟨fun a b c ab bc => compares.trans c b a bc ab⟩
  exact List.pairwise_reverse.mpr (List.pairwise_insertionSort (Behind cmp) _)

theorem sorted_stable {part : List Nat} (ordered : part.Pairwise fun a b => cmp a b ≤ 0)
    (inside : part.Sublist xs) : part.Sublist (sorted cmp xs) := by
  have back := List.sublist_insertionSort (r := Behind cmp) (List.pairwise_reverse.mpr ordered)
    inside.reverse
  rw [← List.reverse_sublist, sorted, List.reverse_reverse]
  exact back

/-! ### The sort of a queue -/

theorem place_holds (cmp : Nat → Nat → Int) (thread : Threads (prev m) (S ++ [h])) (outside : h ∉ S)
    (some_ : S ≠ []) (enough : S.length ≤ fuel) : place cmp m h q fuel (S.headD h) =
      some ((S.dropWhile fun p => ¬ Behind cmp q p).headD h) := by
  induction S generalizing fuel with
  | nil => exact absurd rfl some_
  | cons p S ih =>
    cases fuel with
    | zero => exact absurd enough (by simp)
    | succ fuel =>
      rw [List.mem_cons, not_or] at outside
      have link : prev m p = some (S.headD h) := Threads.entry thread
      rw [List.headD_cons, place]
      by_cases stops : cmp p q ≤ 0
      · rw [if_pos stops, List.dropWhile_cons_of_neg (by simpa using stops), List.headD_cons]
      · rw [if_neg stops, List.dropWhile_cons_of_pos (by simpa using stops), link]
        cases S with
        | nil => simp
        | cons r S =>
          have other : r ≠ h := fun same => outside.2 (same ▸ List.mem_cons_self)
          have rest := ih (Threads.tail (A := [p]) thread) outside.2 (by simp) (by simpa using enough)
          simpa [other] using rest

theorem turn_became (cmp : Nat → Nat → Int) (holds : Holds m h (S ++ q :: R)) (some_ : S ≠ [])
    (enough : S.length ≤ fuel) :
    ∃ m1 before m', remove m q = some m1 ∧ prev m q = some (S.getLastD h) ∧
      place cmp m1 h q fuel (S.getLastD h) = some before ∧ insertAfter m1 before q = some m' ∧
      Became m m' h (put cmp S q ++ R) := by
  obtain ⟨m1, step1, became1⟩ := remove_became holds
  have apart : (h :: S ++ q :: R).Nodup := holds.apart
  have whole := became1.holds.back
  rw [List.reverse_append, List.append_assoc] at whole
  have thread : Threads (prev m1) (S.reverse ++ [h]) := Threads.tail (A := h :: R.reverse) whole
  have room : S.reverse.length ≤ fuel := by simpa using enough
  have found := place_holds cmp (q := q) thread (by grind) (by simpa using some_) room
  rw [headD_reverse] at found
  have parts := List.takeWhile_append_dropWhile (l := S.reverse)
    (p := fun p => ¬ Behind cmp q p)
  have cut : S = (S.reverse.dropWhile fun p => ¬ Behind cmp q p).reverse ++
      (S.reverse.takeWhile fun p => ¬ Behind cmp q p).reverse := by
    rw [← List.reverse_append, parts, List.reverse_reverse]
  have ring : Holds m1 h ((S.reverse.dropWhile fun p => ¬ Behind cmp q p).reverse ++
      ((S.reverse.takeWhile fun p => ¬ Behind cmp q p).reverse ++ R)) := by
    rw [← List.append_assoc, ← cut]
    exact became1.holds
  have there : (m1 q).isSome := (became1.mapped q).trans (mapped_of_next holds.after)
  have fresh : q ∉ h :: (S ++ R) := (List.nodup_cons.mp (List.nodup_middle.mp apart)).1
  rw [cut, List.append_assoc] at fresh
  obtain ⟨m', step2, became2⟩ := insertAfter_became ring there fresh
  rw [getLastD_reverse] at step2
  refine ⟨m1, _, m', step1, holds.before, found, step2, ?_⟩
  rw [put_eq, List.append_assoc]
  exact became1.trans became2

theorem sortLoop_became (cmp : Nat → Nat → Int) (holds : Holds m h (S ++ R)) (some_ : S ≠ [])
    (last : R.length < turns) (enough : (S ++ R).length ≤ fuel) :
    ∃ m', sortLoop cmp h fuel turns m (R.headD h) = some m' ∧
      Became m m' h (R.foldl (put cmp) S) := by
  induction R generalizing S m turns with
  | nil =>
    cases turns with
    | zero => exact absurd last (by simp)
    | succ turns =>
      refine ⟨m, by simp [sortLoop], ?_, fun p => rfl⟩
      rwa [List.append_nil] at holds
  | cons q R ih =>
    cases turns with
    | zero => exact absurd last (by simp)
    | succ turns =>
      have size : (put cmp S q).length = S.length + 1 := by
        rw [put, List.length_reverse, List.orderedInsert_length, List.length_reverse]
      rw [List.length_append, List.length_cons] at enough
      have room : S.length ≤ fuel := by omega
      obtain ⟨m1, before, m2, removed, back, found, inserted, became⟩ :=
        turn_became cmp holds some_ room
      have nonempty : put cmp S q ≠ [] := by
        intro none
        rw [none] at size
        simp at size
      have forth := holds.after
      have other : q ≠ h := by
        intro same
        exact (List.nodup_cons.mp holds.apart).1 (by simp [same])
      have fewer : R.length < turns := by simpa using last
      have same : (put cmp S q ++ R).length ≤ fuel := by
        rw [List.length_append, size]
        omega
      obtain ⟨m', loop, became'⟩ := ih became.holds nonempty fewer same
      refine ⟨m', ?_, became.trans became'⟩
      rw [List.headD_cons, sortLoop, if_neg other]
      simp only [back, forth, removed, found, inserted, loop, Option.bind_eq_bind,
        Option.bind_some]

theorem sort_became (cmp : Nat → Nat → Int) (holds : Holds m h xs) (enough : xs.length ≤ fuel) :
    ∃ m', sort cmp fuel m h = some m' ∧ Became m m' h (sorted cmp xs) := by
  have first : head m h = some (xs.headD h) := holds.head
  have final : last m h = some (xs.getLastD h) := holds.last
  cases xs with
  | nil =>
    refine ⟨m, ?_, holds, fun p => rfl⟩
    simp [sort, first, final]
  | cons x R =>
    cases R with
    | nil =>
      refine ⟨m, ?_, holds, fun p => rfl⟩
      simp [sort, first, final]
    | cons y R =>
      have other : x ≠ R.getLastD y := by
        intro same
        have inside : R.getLastD y ∈ y :: R := List.getLastD_mem_cons
        have apart := (List.nodup_cons.mp holds.apart).2
        exact (List.nodup_cons.mp apart).1 (same ▸ inside)
      have forth : next m x = some y := Circle.after (X := []) holds
      have fewer : (y :: R).length < fuel := enough
      obtain ⟨m', loop, became⟩ :=
        sortLoop_became cmp (S := [x]) (R := y :: R) holds (by simp) fewer enough
      refine ⟨m', ?_, ?_⟩
      · rw [List.headD_cons] at first loop
        rw [List.getLastD_cons, List.getLastD_cons] at final
        rw [sort]
        simp only [first, final, other, forth, loop, if_false, Option.bind_eq_bind,
          Option.bind_some]
      · rw [← foldl_put]
        exact became

end NgxQueue
