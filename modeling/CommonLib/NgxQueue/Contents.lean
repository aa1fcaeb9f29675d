import CommonLib.NgxQueue.Operations

/- The list that a queue holds, and what each operation makes of it. -/
namespace NgxQueue
open Links

abbrev Holds (m : Mem) (h : Nat) (xs : List Nat) : Prop := Circle (next m) (prev m) h xs

section Writes
variable {m m' : Mem} {p q v : Nat}

structure Wrote (m m' : Mem) (forth back : Nat → Option Nat) : Prop where
  forth : next m' = forth
  back : prev m' = back
  mapped : ∀ p, (m' p).isSome = (m p).isSome

theorem mapped_of_next (there : next m p = some q) : (m p).isSome := by
  have read := congrArg Option.isSome there
  rwa [next, Option.isSome_map] at read

theorem mapped_of_prev (there : prev m p = some q) : (m p).isSome := by
  have read := congrArg Option.isSome there
  rwa [prev, Option.isSome_map] at read

theorem next_update (m : Mem) (q : Nat) (node : Node) :
    next (Function.update m q (some node)) = Function.update (next m) q (some node.next) := by
  funext p
  by_cases here : p = q
  · subst here
    simp [next]
  · simp [next, here]

theorem prev_update (m : Mem) (q : Nat) (node : Node) :
    prev (Function.update m q (some node)) = Function.update (prev m) q (some node.prev) := by
  funext p
  by_cases here : p = q
  · subst here
    simp [prev]
  · simp [prev, here]

theorem mapped_update (there : (m q).isSome) (node : Node) (p : Nat) :
    ((Function.update m q (some node)) p).isSome = (m p).isSome := by
  by_cases here : p = q
  · subst here
    simp [there]
  · simp [here]

theorem setNext_wrote (there : (m q).isSome) :
    ∃ m', setNext m q v = some m' ∧
      Wrote m m' (Function.update (next m) q (some v)) (prev m) := by
  obtain ⟨node, here⟩ := Option.isSome_iff_exists.mp there
  have back : prev m q = some node.prev := by rw [prev, here, Option.map_some]
  refine ⟨_, by rw [setNext, here, Option.map_some], next_update .., ?_, mapped_update there _⟩
  rw [prev_update]
  exact Function.update_eq_self_iff.mpr back.symm

theorem setPrev_wrote (there : (m q).isSome) :
    ∃ m', setPrev m q v = some m' ∧
      Wrote m m' (next m) (Function.update (prev m) q (some v)) := by
  obtain ⟨node, here⟩ := Option.isSome_iff_exists.mp there
  have forth : next m q = some node.next := by rw [next, here, Option.map_some]
  refine ⟨_, by rw [setPrev, here, Option.map_some], ?_, prev_update .., mapped_update there _⟩
  rw [next_update]
  exact Function.update_eq_self_iff.mpr forth.symm

theorem Wrote.next_self {f b : Nat → Option Nat}
    (wrote : Wrote m m' (Function.update f q (some v)) b) : next m' q = some v := by
  rw [wrote.forth]
  exact Function.update_self ..

theorem Wrote.prev_self {f b : Nat → Option Nat}
    (wrote : Wrote m m' f (Function.update b q (some v))) : prev m' q = some v := by
  rw [wrote.back]
  exact Function.update_self ..

end Writes

section Operations
variable {m : Mem} {h x : Nat} {xs X Y : List Nat}

structure Became (m m' : Mem) (h : Nat) (xs : List Nat) : Prop where
  holds : Holds m' h xs
  mapped : ∀ p, (m' p).isSome = (m p).isSome

theorem Became.trans {m1 m2 : Mem} (first : Became m m1 h xs) (second : Became m1 m2 h Y) :
    Became m m2 h Y :=
  ⟨second.holds, fun p => (second.mapped p).trans (first.mapped p)⟩

theorem init_became (there : (m h).isSome) : ∃ m', init m h = some m' ∧ Became m m' h [] := by
  obtain ⟨m1, step1, wrote1⟩ := setPrev_wrote (v := h) there
  obtain ⟨m2, step2, wrote2⟩ := setNext_wrote (m := m1) (v := h) ((wrote1.mapped h).trans there)
  refine ⟨m2, by simp [init, step1, step2], ⟨?_, ?_, List.nodup_singleton h⟩, fun p => ?_⟩
  · rw [wrote2.forth]
    exact threads_cons.mpr ⟨Function.update_self .., threads_one⟩
  · rw [wrote2.back, wrote1.back]
    exact threads_cons.mpr ⟨Function.update_self .., threads_one⟩
  · exact (wrote2.mapped p).trans (wrote1.mapped p)

theorem empty_iff (holds : Holds m h xs) : empty m h = some true ↔ xs = [] := by
  rw [empty, holds.last]
  simp only [Option.bind_eq_bind, Option.bind_some, Option.pure_def, Option.some.injEq, beq_iff_eq]
  constructor
  · intro same
    by_contra some_
    have inside : xs.getLastD h ∈ xs := by
      rw [List.getLastD_eq_getLast?, List.getLast?_eq_some_getLast some_]
      exact List.getLast_mem some_
    exact (List.nodup_cons.mp holds.apart).1 (same ▸ inside)
  · intro none
    rw [none, List.getLastD_nil]

theorem insertAfter_became (holds : Holds m h (X ++ Y)) (there : (m x).isSome)
    (fresh : x ∉ h :: (X ++ Y)) :
    ∃ m', insertAfter m (X.getLastD h) x = some m' ∧ Became m m' h (X ++ x :: Y) := by
  have forth := holds.link
  have back := holds.linkBack
  have other : x ≠ Y.headD h := by
    intro same
    have inside : Y.headD h ∈ h :: (X ++ Y) := by cases Y <;> simp
    exact fresh (same ▸ inside)
  obtain ⟨m1, step1, wrote1⟩ := setNext_wrote (v := Y.headD h) there
  obtain ⟨m2, step2, wrote2⟩ := setPrev_wrote (m := m1) (q := Y.headD h) (v := x)
    ((wrote1.mapped _).trans (mapped_of_prev back))
  obtain ⟨m3, step3, wrote3⟩ := setPrev_wrote (m := m2) (q := x) (v := X.getLastD h)
    (((wrote2.mapped _).trans (wrote1.mapped _)).trans there)
  have same3 : ∀ p, (m3 p).isSome = (m p).isSome := fun p =>
    ((wrote3.mapped p).trans (wrote2.mapped p)).trans (wrote1.mapped p)
  obtain ⟨m4, step4, wrote4⟩ := setNext_wrote (m := m3) (q := X.getLastD h) (v := x)
    ((same3 _).trans (mapped_of_next forth))
  have read : next m1 x = some (Y.headD h) := wrote1.next_self
  refine ⟨m4, ?_, ?_, fun p => (wrote4.mapped p).trans (same3 p)⟩
  · rw [insertAfter, insertHead]
    simp only [forth, step1, read, step2, step3, step4, Option.bind_eq_bind, Option.bind_some]
  · have circle := holds.insert fresh
    rw [Function.update_comm other] at circle
    rw [Holds, wrote4.forth, wrote3.forth, wrote2.forth, wrote1.forth, wrote4.back, wrote3.back,
      wrote2.back, wrote1.back]
    exact circle

theorem insertHead_became (holds : Holds m h xs) (there : (m x).isSome) (fresh : x ∉ h :: xs) :
    ∃ m', insertHead m h x = some m' ∧ Became m m' h (x :: xs) :=
  insertAfter_became (X := []) holds there fresh

theorem insertTail_became (holds : Holds m h xs) (there : (m x).isSome) (fresh : x ∉ h :: xs) :
    ∃ m', insertTail m h x = some m' ∧ Became m m' h (xs ++ [x]) := by
  have whole : Holds m h (xs ++ []) := by rwa [List.append_nil]
  have forth : next m (xs.getLastD h) = some h := whole.link
  have back := holds.last
  have other : xs.getLastD h ≠ x := by
    intro same
    have inside : xs.getLastD h ∈ h :: xs := List.getLastD_mem_cons
    exact fresh (same ▸ inside)
  obtain ⟨m1, step1, wrote1⟩ := setPrev_wrote (v := xs.getLastD h) there
  obtain ⟨m2, step2, wrote2⟩ := setNext_wrote (m := m1) (q := xs.getLastD h) (v := x)
    ((wrote1.mapped _).trans (mapped_of_next forth))
  obtain ⟨m3, step3, wrote3⟩ := setNext_wrote (m := m2) (q := x) (v := h)
    (((wrote2.mapped _).trans (wrote1.mapped _)).trans there)
  have same3 : ∀ p, (m3 p).isSome = (m p).isSome := fun p =>
    ((wrote3.mapped p).trans (wrote2.mapped p)).trans (wrote1.mapped p)
  obtain ⟨m4, step4, wrote4⟩ := setPrev_wrote (m := m3) (q := h) (v := x)
    ((same3 _).trans (mapped_of_prev back))
  have read : prev m1 x = some (xs.getLastD h) := wrote1.prev_self
  refine ⟨m4, ?_, ?_, fun p => (wrote4.mapped p).trans (same3 p)⟩
  · rw [insertTail]
    simp only [back, step1, read, step2, step3, step4, Option.bind_eq_bind, Option.bind_some]
  · have circle := whole.insert (by simpa using fresh)
    rw [Function.update_comm (Ne.symm other)] at circle
    rw [Holds, wrote4.forth, wrote3.forth, wrote2.forth, wrote1.forth, wrote4.back, wrote3.back,
      wrote2.back, wrote1.back]
    exact circle

theorem remove_became (holds : Holds m h (X ++ x :: Y)) :
    ∃ m', remove m x = some m' ∧ Became m m' h (X ++ Y) := by
  have forth := holds.after
  have back := holds.before
  have whole : Holds m h (X ++ [x] ++ Y) := by simpa using holds
  have beyond : prev m (Y.headD h) = some x := by
    have link := whole.linkBack
    rwa [List.getLastD_concat] at link
  have behind : next m (X.getLastD h) = some x := holds.link
  have apart := holds.apart
  have otherNext : x ≠ Y.headD h := by
    cases Y <;> grind
  obtain ⟨m1, step1, wrote1⟩ := setPrev_wrote (v := X.getLastD h) (mapped_of_prev beyond)
  obtain ⟨m2, step2, wrote2⟩ := setNext_wrote (m := m1) (q := X.getLastD h) (v := Y.headD h)
    ((wrote1.mapped _).trans (mapped_of_next behind))
  have readPrev : prev m1 x = some (X.getLastD h) := by
    rw [wrote1.back, Function.update_of_ne otherNext]
    exact back
  have readNext : next m1 x = some (Y.headD h) := by
    rw [wrote1.forth]
    exact forth
  refine ⟨m2, ?_, ?_, fun p => (wrote2.mapped p).trans (wrote1.mapped p)⟩
  · rw [remove]
    simp only [forth, back, step1, readPrev, readNext, step2, Option.bind_eq_bind,
      Option.bind_some]
  · rw [Holds, wrote2.forth, wrote1.forth, wrote2.back, wrote1.back]
    exact holds.remove

theorem split_became {n q : Nat} (holds : Holds m h (X ++ q :: Y)) (there : (m n).isSome)
    (fresh : n ∉ h :: (X ++ q :: Y)) :
    ∃ m', split m h q n = some m' ∧ Became m m' h X ∧ Became m m' n (q :: Y) := by
  have final : prev m h = some (Y.getLastD q) := by
    have last := holds.last
    rwa [List.getLastD_eq_getLast?, List.getLast?_append, List.getLast?_cons, Option.some_or,
      Option.getD_some, ← List.getLastD_eq_getLast?] at last
  have whole : Holds m h (X ++ q :: Y ++ []) := by rwa [List.append_nil]
  have around : next m (Y.getLastD q) = some h := by
    have link := whole.link
    have last := holds.last.symm.trans final
    rw [Option.some.inj last] at link
    exact link
  have behind : next m (X.getLastD h) = some q := holds.link
  have before : prev m q = some (X.getLastD h) := holds.before
  have otherQ : q ≠ n := by grind
  obtain ⟨m1, step1, wrote1⟩ := setPrev_wrote (v := Y.getLastD q) there
  obtain ⟨m2, step2, wrote2⟩ := setNext_wrote (m := m1) (q := Y.getLastD q) (v := n)
    ((wrote1.mapped _).trans (mapped_of_next around))
  obtain ⟨m3, step3, wrote3⟩ := setNext_wrote (m := m2) (q := n) (v := q)
    (((wrote2.mapped _).trans (wrote1.mapped _)).trans there)
  have same3 : ∀ p, (m3 p).isSome = (m p).isSome := fun p =>
    ((wrote3.mapped p).trans (wrote2.mapped p)).trans (wrote1.mapped p)
  obtain ⟨m4, step4, wrote4⟩ := setPrev_wrote (m := m3) (q := h) (v := X.getLastD h)
    ((same3 _).trans (mapped_of_prev final))
  obtain ⟨m5, step5, wrote5⟩ := setNext_wrote (m := m4) (q := X.getLastD h) (v := h)
    (((wrote4.mapped _).trans (same3 _)).trans (mapped_of_next behind))
  have same5 : ∀ p, (m5 p).isSome = (m p).isSome := fun p =>
    ((wrote5.mapped p).trans (wrote4.mapped p)).trans (same3 p)
  obtain ⟨m6, step6, wrote6⟩ := setPrev_wrote (m := m5) (q := q) (v := n)
    ((same5 _).trans (mapped_of_prev before))
  have read1 : prev m1 n = some (Y.getLastD q) := wrote1.prev_self
  have read3 : prev m3 q = some (X.getLastD h) := by
    rw [wrote3.back, wrote2.back, wrote1.back, Function.update_of_ne otherQ]
    exact before
  have read4 : prev m4 h = some (X.getLastD h) := wrote4.prev_self
  have run : split m h q n = some m6 := by
    rw [split]
    simp only [final, step1, read1, step2, step3, read3, step4, read4, step5, step6,
      Option.bind_eq_bind, Option.bind_some]
  have cut := holds.split fresh
  have forth : next m6 = Function.update (Function.update (Function.update (next m) (Y.getLastD q)
      (some n)) n (some q)) (X.getLastD h) (some h) := by
    rw [wrote6.forth, wrote5.forth, wrote4.forth, wrote3.forth, wrote2.forth, wrote1.forth]
  have back : prev m6 = Function.update (Function.update (Function.update (prev m) n
      (some (Y.getLastD q))) h (some (X.getLastD h))) q (some n) := by
    rw [wrote6.back, wrote5.back, wrote4.back, wrote3.back, wrote2.back, wrote1.back]
  rw [← forth, ← back] at cut
  have same : ∀ p, (m6 p).isSome = (m p).isSome := fun p => (wrote6.mapped p).trans (same5 p)
  exact ⟨m6, run, ⟨cut.1, same⟩, ⟨cut.2, same⟩⟩

theorem add_became {n : Nat} (holds : Holds m h X) (other : Holds m n Y)
    (apart : (h :: X ++ n :: Y).Nodup) :
    ∃ m', add m h n = some m' ∧ Became m m' h (X ++ Y) := by
  have final := holds.last
  have whole : Holds m h (X ++ []) := by rwa [List.append_nil]
  have around : next m (X.getLastD h) = some h := whole.link
  have lastX : X.getLastD h ∈ h :: X := List.getLastD_mem_cons
  have notLast : n ≠ X.getLastD h := by grind
  obtain ⟨m1, step1, wrote1⟩ := setNext_wrote (v := Y.headD n) (mapped_of_next around)
  have read1 : next m1 n = some (Y.headD n) := by
    rw [wrote1.forth, Function.update_of_ne notLast]
    exact other.head
  have read1' : prev m1 h = some (X.getLastD h) := by
    rw [wrote1.back]
    exact final
  have first : prev m (Y.headD n) = some n := Circle.linkBack (X := []) other
  obtain ⟨m2, step2, wrote2⟩ := setPrev_wrote (m := m1) (q := Y.headD n) (v := X.getLastD h)
    ((wrote1.mapped _).trans (mapped_of_prev first))
  have same2 : ∀ p, (m2 p).isSome = (m p).isSome := fun p =>
    (wrote2.mapped p).trans (wrote1.mapped p)
  cases Y with
  | nil =>
    -- `n` is empty: its own `prev` is what the second line has just set
    have read2 : prev m2 n = some (X.getLastD h) := wrote2.prev_self
    obtain ⟨m3, step3, wrote3⟩ := setPrev_wrote (m := m2) (q := h) (v := X.getLastD h)
      ((same2 _).trans (mapped_of_prev final))
    have read3 : prev m3 h = some (X.getLastD h) := wrote3.prev_self
    obtain ⟨m4, step4, wrote4⟩ := setNext_wrote (m := m3) (q := X.getLastD h) (v := h)
      (((wrote3.mapped _).trans (same2 _)).trans (mapped_of_next around))
    refine ⟨m4, ?_, ?_, fun p =>
      ((wrote4.mapped p).trans (wrote3.mapped p)).trans (same2 p)⟩
    · rw [add]
      simp only [final, other.head, step1, read1, read1', step2, read2, step3, read3, step4,
        Option.bind_eq_bind, Option.bind_some]
    · have forth : next m4 = next m := by
        rw [wrote4.forth, wrote3.forth, wrote2.forth, wrote1.forth, Function.update_idem]
        exact Function.update_eq_self_iff.mpr around.symm
      have back : prev m4 = Function.update (prev m) n (some (X.getLastD h)) := by
        rw [wrote4.back, wrote3.back, wrote2.back, wrote1.back, List.headD_nil]
        refine Function.update_eq_self_iff.mpr ?_
        rw [Function.update_of_ne (by grind)]
        exact final.symm
      have thread : Threads (prev m) ((h :: X.reverse) ++ [h]) := holds.back
      have outside : n ∉ h :: X.reverse := by grind
      rw [List.append_nil]
      refine ⟨?_, ?_, holds.apart⟩
      · rw [forth]
        exact holds.forth
      · rw [back]
        exact thread.update outside
  | cons y Y =>
    have lastY : Y.getLastD y ∈ y :: Y := List.getLastD_mem_cons
    have whole' : Holds m n (y :: Y ++ []) := by rwa [List.append_nil]
    have around' : next m (Y.getLastD y) = some n := by
      have link := whole'.link
      rwa [List.getLastD_cons] at link
    have final' : prev m n = some (Y.getLastD y) := by
      have last := other.last
      rwa [List.getLastD_cons] at last
    have read2 : prev m2 n = some (Y.getLastD y) := by
      rw [wrote2.back, wrote1.back, List.headD_cons, Function.update_of_ne (by grind)]
      exact final'
    obtain ⟨m3, step3, wrote3⟩ := setPrev_wrote (m := m2) (q := h) (v := Y.getLastD y)
      ((same2 _).trans (mapped_of_prev final))
    have read3 : prev m3 h = some (Y.getLastD y) := wrote3.prev_self
    obtain ⟨m4, step4, wrote4⟩ := setNext_wrote (m := m3) (q := Y.getLastD y) (v := h)
      (((wrote3.mapped _).trans (same2 _)).trans (mapped_of_next around'))
    refine ⟨m4, ?_, ?_, fun p =>
      ((wrote4.mapped p).trans (wrote3.mapped p)).trans (same2 p)⟩
    · rw [add]
      simp only [final, other.head, step1, read1, read1', step2, read2, step3, read3, step4,
        Option.bind_eq_bind, Option.bind_some]
    · have circle := holds.append other apart
      rw [Holds, wrote4.forth, wrote3.forth, wrote2.forth, wrote1.forth, wrote4.back, wrote3.back,
        wrote2.back, wrote1.back]
      exact circle

end Operations
end NgxQueue
