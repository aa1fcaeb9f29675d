import CommonLib.NgxQueue.Sort

/- The walks over a queue, and whole runs of its operations. -/
namespace NgxQueue
open Links

/-! ### Walks -/

section Walks
variable {m : Mem} {h i fuel : Nat} {xs R : List Nat}

theorem walk_holds (thread : Threads (next m) (R ++ [h])) (outside : h ∉ R)
    (enough : R.length < fuel) : walk m h fuel (R.headD h) = some R := by
  induction R generalizing fuel with
  | nil =>
    cases fuel with
    | zero => exact absurd enough (by simp)
    | succ fuel => simp [walk]
  | cons x R ih =>
    cases fuel with
    | zero => exact absurd enough (by simp)
    | succ fuel =>
      rw [List.mem_cons, not_or] at outside
      have link : next m x = some (R.headD h) := Threads.entry thread
      have rest := ih (Threads.tail (A := [x]) thread) outside.2 (by simpa using enough)
      rw [List.headD_cons, walk, if_neg (Ne.symm outside.1)]
      simp only [link, rest, Option.bind_eq_bind, Option.bind_some, Option.pure_def]

theorem queueEcho_holds (holds : Holds m h xs) (enough : xs.length < fuel) :
    queueEcho m fuel h = some xs := by
  have thread : Threads (next m) (xs ++ [h]) := Threads.tail (A := [h]) holds.forth
  have walked := walk_holds thread (List.nodup_cons.mp holds.apart).1 enough
  have first : head m h = some (xs.headD h) := holds.head
  rw [queueEcho, first]
  exact walked

theorem next_getD (holds : Holds m h xs) (inside : i < xs.length) :
    next m (xs.getD i h) = some (xs.getD (i + 1) h) := by
  have parts : xs.take i ++ xs[i] :: xs.drop (i + 1) = xs := by simp
  have ring := holds
  rw [← parts] at ring
  have link := ring.after
  have here : xs.getD i h = xs[i] := by simp [inside]
  rw [here, link, List.headD_eq_head?_getD, List.head?_drop, List.getD_eq_getElem?_getD]

theorem last_getD (holds : Holds m h xs) : last m h = some (xs.getD (xs.length - 1) h) := by
  have final : last m h = some (xs.getLastD h) := holds.last
  rw [final, List.getLastD_eq_getLast?, List.getLast?_eq_getElem?, List.getD_eq_getElem?_getD]

theorem getD_inj (holds : Holds m h xs) {j : Nat} (insideI : i < xs.length)
    (insideJ : j < xs.length) : xs.getD i h = xs.getD j h ↔ i = j := by
  rw [List.getD_eq_getElem?_getD, List.getD_eq_getElem?_getD, List.getElem?_eq_getElem insideI,
    List.getElem?_eq_getElem insideJ]
  exact (List.nodup_cons.mp holds.apart).2.getElem_inj_iff

theorem middleLoop_holds (holds : Holds m h xs) (before : 2 * i + 1 < xs.length)
    (enough : xs.length < 2 * i + fuel) : middleLoop m h fuel (xs.getD i h) (xs.getD (2 * i) h) =
      some (xs.getD (xs.length / 2) h) := by
  induction fuel generalizing i with
  | zero => omega
  | succ fuel ih =>
    have slow := next_getD holds (i := i) (by omega)
    have fast := next_getD holds (i := 2 * i) (by omega)
    have final := last_getD holds
    have atEnd := getD_inj holds (i := 2 * i + 1) (j := xs.length - 1) (by omega) (by omega)
    rw [middleLoop]
    simp only [slow, fast, final, Option.bind_eq_bind, Option.bind_some, atEnd]
    by_cases even : 2 * i + 1 = xs.length - 1
    · have half : xs.length / 2 = i + 1 := by omega
      rw [if_pos even, half]
      rfl
    · have further := next_getD holds (i := 2 * i + 1) (by omega)
      have atEnd' := getD_inj holds (i := 2 * i + 2) (j := xs.length - 1) (by omega) (by omega)
      rw [if_neg even]
      simp only [further, Option.bind_some, atEnd']
      by_cases odd : 2 * i + 2 = xs.length - 1
      · have half : xs.length / 2 = i + 1 := by omega
        rw [if_pos odd, half]
        rfl
      · rw [if_neg odd]
        exact ih (i := i + 1) (by omega) (by omega)

theorem middle_holds (holds : Holds m h xs) (enough : xs.length < fuel) :
    middle m fuel h = some (xs.getD (xs.length / 2) h) := by
  have first : head m h = some (xs.getD 0 h) := by
    rw [List.getD_eq_getElem?_getD, ← List.head?_eq_getElem?, ← List.headD_eq_head?_getD]
    exact holds.head
  have final := last_getD holds
  rw [middle]
  simp only [first, final, Option.bind_eq_bind, Option.bind_some]
  by_cases short : xs.length ≤ 1
  · have none : xs.length - 1 = 0 := by omega
    have half : xs.length / 2 = 0 := by omega
    rw [none, half, if_pos rfl]
    rfl
  · have other := getD_inj holds (i := 0) (j := xs.length - 1) (by omega) (by omega)
    rw [if_neg (by rw [other]; omega)]
    exact middleLoop_holds (i := 0) holds (by omega) (by omega)

end Walks

/-! ### Runs -/

inductive Call where
  | insertHead (x : Nat)
  | insertTail (x : Nat)
  | insertAfter (p x : Nat)
  | remove (x : Nat)
  | sort

section Calls
variable (cmp : Nat → Nat → Int)

def call (fuel h : Nat) (m : Mem) : Call → Option Mem
  | .insertHead x => insertHead m h x
  | .insertTail x => insertTail m h x
  | .insertAfter p x => insertAfter m p x
  | .remove x => remove m x
  | .sort => sort cmp fuel m h

def run (fuel h : Nat) : Mem → List Call → Option Mem := List.foldlM (call cmp fuel h)

def behind (p x : Nat) : List Nat → List Nat
  | [] => []
  | y :: ys => if y = p then y :: x :: ys else y :: behind p x ys

def apply (xs : List Nat) : Call → List Nat
  | .insertHead x => x :: xs
  | .insertTail x => xs ++ [x]
  | .insertAfter p x => behind p x xs
  | .remove x => xs.erase x
  | .sort => sorted cmp xs

/-- A node goes in where there is a node that is not in a queue, and out where it is in. -/
def Call.Proper (m : Mem) (h : Nat) (xs : List Nat) : Call → Prop
  | .insertHead x | .insertTail x => (m x).isSome ∧ x ∉ h :: xs
  | .insertAfter p x => p ∈ xs ∧ (m x).isSome ∧ x ∉ h :: xs
  | .remove x => x ∈ xs
  | .sort => True

def Proper (m : Mem) (h : Nat) : List Nat → List Call → Prop
  | _, [] => True
  | xs, c :: calls => c.Proper m h xs ∧ Proper m h (apply cmp xs c) calls

end Calls

section Runs
variable {cmp : Nat → Nat → Int} {m : Mem} {h p x fuel : Nat} {xs X Y : List Nat} {c : Call}
  {calls : List Call}

theorem behind_split (outside : p ∉ X) : behind p x (X ++ p :: Y) = X ++ p :: x :: Y := by
  induction X with
  | nil => simp [behind]
  | cons y X ih =>
    rw [List.mem_cons, not_or] at outside
    rw [List.cons_append, behind, if_neg (Ne.symm outside.1), ih outside.2, List.cons_append]

theorem call_became (cmp : Nat → Nat → Int) (holds : Holds m h xs) (proper : c.Proper m h xs)
    (enough : xs.length ≤ fuel) :
    ∃ m', call cmp fuel h m c = some m' ∧ Became m m' h (apply cmp xs c) := by
  cases c with
  | insertHead x => exact insertHead_became holds proper.1 proper.2
  | insertTail x => exact insertTail_became holds proper.1 proper.2
  | insertAfter p x =>
    obtain ⟨inside, there, fresh⟩ := proper
    obtain ⟨X, Y, rfl⟩ := List.append_of_mem inside
    have outside : p ∉ X := by
      have both := (List.nodup_cons.mp holds.apart).2
      exact fun member => (List.nodup_append.mp both).2.2 p member p List.mem_cons_self rfl
    have ring : Holds m h (X ++ [p] ++ Y) := by simpa using holds
    obtain ⟨m', step, became⟩ := insertAfter_became (x := x) ring there (by simpa using fresh)
    rw [List.getLastD_concat] at step
    refine ⟨m', step, ?_⟩
    rw [apply, behind_split outside]
    simpa using became
  | remove x =>
    obtain ⟨X, Y, rfl⟩ := List.append_of_mem (show x ∈ xs from proper)
    have both := (List.nodup_cons.mp holds.apart).2
    have outside : x ∉ X := fun member =>
      (List.nodup_append.mp both).2.2 x member x List.mem_cons_self rfl
    obtain ⟨m', step, became⟩ := remove_became holds
    refine ⟨m', step, ?_⟩
    rw [apply, List.erase_append_right _ outside, List.erase_cons_head]
    exact became
  | sort => exact sort_became cmp holds enough

theorem apply_length (cmp : Nat → Nat → Int) (xs : List Nat) (c : Call) :
    (apply cmp xs c).length ≤ xs.length + 1 := by
  cases c with
  | insertHead x => simp [apply]
  | insertTail x => simp [apply]
  | insertAfter p x =>
    rw [apply]
    induction xs with
    | nil => simp [behind]
    | cons y xs ih =>
      rw [behind]
      split
      · simp
      · simpa using ih
  | remove x => exact (List.length_erase_le).trans (Nat.le_succ _)
  | sort => exact (sorted_perm cmp xs).length_eq.le.trans (Nat.le_succ _)

theorem Proper.congr {m' : Mem} (same : ∀ p, (m' p).isSome = (m p).isSome)
    (proper : Proper cmp m h xs calls) : Proper cmp m' h xs calls := by
  induction calls generalizing xs with
  | nil => trivial
  | cons c calls ih =>
    refine ⟨?_, ih proper.2⟩
    have first := proper.1
    cases c with
    | insertHead x => exact ⟨(same x).trans first.1, first.2⟩
    | insertTail x => exact ⟨(same x).trans first.1, first.2⟩
    | insertAfter p x => exact ⟨first.1, (same x).trans first.2.1, first.2.2⟩
    | remove x => exact first
    | sort => trivial

theorem run_became (holds : Holds m h xs) (proper : Proper cmp m h xs calls)
    (enough : xs.length + calls.length ≤ fuel) :
    ∃ m', run cmp fuel h m calls = some m' ∧ Became m m' h (calls.foldl (apply cmp) xs) := by
  induction calls generalizing m xs with
  | nil => exact ⟨m, rfl, holds, fun p => rfl⟩
  | cons c calls ih =>
    rw [List.length_cons] at enough
    have room : xs.length ≤ fuel := by omega
    obtain ⟨m1, step, became⟩ := call_became cmp holds proper.1 room
    have more := apply_length cmp xs c
    obtain ⟨m', rest, became'⟩ := ih became.holds (proper.2.congr became.mapped) (by omega)
    refine ⟨m', ?_, became.trans became'⟩
    rw [run, List.foldlM_cons, step]
    exact rest

theorem foldl_apply_length (cmp : Nat → Nat → Int) (calls : List Call) (xs : List Nat) :
    (calls.foldl (apply cmp) xs).length ≤ xs.length + calls.length := by
  induction calls generalizing xs with
  | nil => exact le_rfl
  | cons c calls ih =>
    have more := apply_length cmp xs c
    have rest := ih (apply cmp xs c)
    rw [List.foldl_cons, List.length_cons]
    omega

/-- From `ngx_queue_init` on, the queue is the list that the calls make of the empty list: for
    the pointers in both directions, for a loop over it, for its middle and for the test whether
    it is empty. -/
theorem run_queue (there : (m h).isSome) (proper : Proper cmp m h [] calls)
    (enough : calls.length < fuel) :
    ∃ m0 m' xs, init m h = some m0 ∧ run cmp fuel h m0 calls = some m' ∧
      xs = calls.foldl (apply cmp) [] ∧ Holds m' h xs ∧ queueEcho m' fuel h = some xs ∧
      middle m' fuel h = some (xs.getD (xs.length / 2) h) ∧ (empty m' h = some true ↔ xs = []) := by
  obtain ⟨m0, start, became0⟩ := init_became there
  have room : ([] : List Nat).length + calls.length ≤ fuel := by simpa using enough.le
  obtain ⟨m', step, became⟩ := run_became became0.holds (proper.congr became0.mapped) room
  have short := foldl_apply_length cmp calls []
  rw [List.length_nil, Nat.zero_add] at short
  have inside := short.trans_lt enough
  exact ⟨m0, m', _, start, step, rfl, became.holds, queueEcho_holds became.holds inside,
    middle_holds became.holds inside, empty_iff became.holds⟩

def testnodeCmp (num : Nat → Int) (a b : Nat) : Int := if num a > num b then 1 else 0

def sampleMem : Mem := fun p => if p < 5 then some ⟨0, 0⟩ else none

def sampleNum (p : Nat) : Int := if p = 2 then 7 else 3

def sampleCalls : List Call :=
  [.insertTail 1, .insertTail 2, .insertHead 3, .remove 1, .insertAfter 2 4, .sort]

theorem run_queue_sample :
    ∃ m0 m' xs, init sampleMem 0 = some m0 ∧
      run (testnodeCmp sampleNum) 7 0 m0 sampleCalls = some m' ∧
      xs = sampleCalls.foldl (apply (testnodeCmp sampleNum)) [] ∧ Holds m' 0 xs ∧
      queueEcho m' 7 0 = some xs ∧ middle m' 7 0 = some (xs.getD (xs.length / 2) 0) ∧
      (empty m' 0 = some true ↔ xs = []) := by
  refine run_queue rfl ?_ (by decide)
  simp [Proper, Call.Proper, sampleCalls, apply, sampleMem]

/-- Sorting puts the same nodes in ascending order, and keeps every order there was: what is in
    order already stays as it is, nodes that compare as equal too. -/
theorem sort_stable (compares : Compares cmp) (holds : Holds m h xs) (enough : xs.length ≤ fuel) :
    ∃ m' ys, sort cmp fuel m h = some m' ∧ Holds m' h ys ∧ ys.Perm xs ∧
      ys.Pairwise (fun a b => cmp a b ≤ 0) ∧
      ∀ part : List Nat, part.Sublist xs → part.Pairwise (fun a b => cmp a b ≤ 0) →
        part.Sublist ys := by
  obtain ⟨m', step, became⟩ := sort_became cmp holds enough
  exact ⟨m', _, step, became.holds, sorted_perm cmp xs, sorted_ordered compares xs,
    fun part inside ordered => sorted_stable ordered inside⟩

theorem testnodeCmp_compares (num : Nat → Int) : Compares (testnodeCmp num) := by
  have above : ∀ a b, testnodeCmp num a b ≤ 0 ↔ num a ≤ num b := by
    intro a b
    rw [testnodeCmp]
    split <;> omega
  constructor
  · intro a b
    rw [above, above]
    exact le_total _ _
  · intro a b c
    rw [above, above, above]
    exact le_trans

def sampleRing : Mem := fun p =>
  if p = 1 then some ⟨9, 2⟩ else if p = 2 then some ⟨1, 3⟩ else if p = 3 then some ⟨2, 9⟩
  else if p = 9 then some ⟨3, 1⟩ else if p = 5 then some ⟨0, 0⟩ else none

theorem sampleRing_holds : Holds sampleRing 9 [1, 2, 3] := by
  have forth : Threads (next sampleRing) [9, 1, 2, 3, 9] := by
    simp [Threads, next, sampleRing]
  have back : Threads (prev sampleRing) [9, 3, 2, 1, 9] := by
    simp [Threads, prev, sampleRing]
  exact ⟨forth, back, by decide⟩

theorem sort_stable_sample :
    ∃ m' ys, sort (testnodeCmp sampleNum) 3 sampleRing 9 = some m' ∧ Holds m' 9 ys ∧
      ys.Perm [1, 2, 3] ∧ ys.Pairwise (fun a b => testnodeCmp sampleNum a b ≤ 0) ∧
      ∀ part : List Nat, part.Sublist [1, 2, 3] →
        part.Pairwise (fun a b => testnodeCmp sampleNum a b ≤ 0) → part.Sublist ys := by
  exact sort_stable (testnodeCmp_compares sampleNum) sampleRing_holds (by decide)

/-- A queue cut in front of any of its nodes is two queues, and adding the second to the first gives
    the queue there was. -/
theorem split_add {n q : Nat} (holds : Holds m h (X ++ q :: Y)) (there : (m n).isSome)
    (fresh : n ∉ h :: (X ++ q :: Y)) :
    ∃ m1 m2, split m h q n = some m1 ∧ Holds m1 h X ∧ Holds m1 n (q :: Y) ∧
      add m1 h n = some m2 ∧ Holds m2 h (X ++ q :: Y) := by
  obtain ⟨m1, cut, first, second⟩ := split_became holds there fresh
  have apart : (h :: X ++ n :: q :: Y).Nodup :=
    List.nodup_middle.mpr (List.nodup_cons.mpr ⟨fresh, holds.apart⟩)
  obtain ⟨m2, added, whole⟩ := add_became first.holds second.holds apart
  exact ⟨m1, m2, cut, first.holds, second.holds, added, whole.holds⟩

theorem split_add_sample :
    ∃ m1 m2, split sampleRing 9 2 5 = some m1 ∧ Holds m1 9 [1] ∧ Holds m1 5 [2, 3] ∧
      add m1 9 5 = some m2 ∧ Holds m2 9 [1, 2, 3] :=
  split_add (X := [1]) sampleRing_holds rfl (by decide)

end Runs
end NgxQueue
