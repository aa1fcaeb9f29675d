import CommonLib.FileSearch.Dialog
import Mathlib.Logic.Function.Basic

/- The life cycle of the two mutexes, over every run of events. -/
namespace FileSearch

/-- One mutex call, where the flags say which locks are initialised. -/
def useLock (initialised : Lock → Bool) : MutexCall → Option (Lock → Bool)
  | .init lock => some (Function.update initialised lock true)
  | .lock lock => if initialised lock then some initialised else none
  | .unlock lock => if initialised lock then some initialised else none
  | .destroy lock => if initialised lock then some
    (Function.update initialised lock false) else none

def useLocks (initialised : Lock → Bool) (calls : List MutexCall) : Option (Lock → Bool) :=
  calls.foldlM useLock initialised

/-- No lock is taken, released or destroyed while it is not initialised. -/
def WellUsed (calls : List MutexCall) : Prop := (useLocks (fun _ => false) calls).isSome

/-- No file list is opened while the dialog is shown. -/
def NoReload : Bool → List Event → Prop
  | _, [] => True
  | _, .create :: events => NoReload true events
  | _, .quit :: events => NoReload false events
  | shown, .openFile _ _ :: events => shown = false ∧ NoReload shown events
  | shown, _ :: events => NoReload shown events

/-! ### The calls of a handler -/

def initCalls : List MutexCall := [.init .allList, .init .showList]

def destroyCalls : List MutexCall :=
  [.lock .allList, .unlock .allList, .destroy .allList, .lock .showList, .unlock .showList,
    .destroy .showList]

def getCalls : List MutexCall := [.lock .allList, .unlock .allList]

def pageCalls : List MutexCall := [.lock .showList, .unlock .showList]

def echoCalls : List MutexCall :=
  [.lock .allList, .lock .showList, .unlock .showList, .unlock .allList] ++ pageCalls ++ pageCalls

/-- What a handler may call; a directory that is refused and a page at the end call less. -/
def callsOf : Event → List (List MutexCall)
  | .create => [initCalls]
  | .quit => [destroyCalls]
  | .openFile _ _ => [destroyCalls ++ echoCalls, destroyCalls ++ getCalls ++ echoCalls]
  | .filter _ => [echoCalls]
  | .dateChange _ => [echoCalls]
  | _ => [[], pageCalls]

def shownAfter (shown : Bool) : Event → Bool
  | .create => true
  | .quit => false
  | _ => shown

section Handlers
variable {freed : List ElFile → FreedLink} {d d' : Dialog}

theorem destroyFileList_calls (run : d.destroyFileList freed = some d') :
    d'.calls = d.calls ++ destroyCalls ∧ d'.isOpen = d.isOpen := by
  simp only [Dialog.destroyFileList, Option.bind_eq_bind, Option.bind_eq_some_iff, Option.pure_def,
    Option.some.injEq] at run
  obtain ⟨allList, _, showList, _, rfl⟩ := run
  simp [Dialog.call, destroyCalls]

theorem echo_calls {duration : Option TimeDuration} (run : d.echo freed duration = some d') :
    d'.calls = d.calls ++ echoCalls ∧ d'.isOpen = d.isOpen := by
  simp only [Dialog.echo, Dialog.genEchoList, Option.bind_eq_bind, Option.bind_eq_some_iff,
    Option.pure_def, Option.some.injEq] at run
  obtain ⟨_, ⟨showList, _, rfl⟩, rfl⟩ := run
  simp [Dialog.call, Dialog.refreshPageStatus, Dialog.searchToPage, echoCalls, pageCalls]

theorem searchToPage_calls (d : Dialog) (iPage : Int) :
    (d.searchToPage iPage).calls = d.calls ++ pageCalls ∧
        (d.searchToPage iPage).isOpen = d.isOpen := by
  simp [Dialog.call, Dialog.searchToPage, pageCalls]

theorem getFileList_calls (d : Dialog) (dirname : List (BitVec 8)) (found : List ElFile) :
    ((d.getFileList dirname found).calls = d.calls ∨
      (d.getFileList dirname found).calls = d.calls ++ getCalls) ∧
    (d.getFileList dirname found).isOpen = d.isOpen := by
  unfold Dialog.getFileList
  split
  · exact ⟨Or.inl rfl, rfl⟩
  · split
    · exact ⟨Or.inl rfl, rfl⟩
    · exact ⟨Or.inr (by simp [Dialog.call, getCalls]), rfl⟩

theorem handle_calls {event : Event} (run : handle freed d event = some d') :
    (∃ calls ∈ callsOf event, d'.calls = d.calls ++ calls) ∧
      d'.isOpen = shownAfter d.isOpen event := by
  cases event with
  | create =>
    cases run
    exact ⟨⟨initCalls,
      by simp [callsOf], by simp [Dialog.create, Dialog.init, Dialog.call, initCalls]⟩, rfl⟩
  | quit =>
    simp only [handle, Dialog.quit, Option.bind_eq_bind, Option.bind_eq_some_iff, Option.pure_def,
      Option.some.injEq] at run
    obtain ⟨d₁, destroyed, rfl⟩ := run
    exact ⟨⟨destroyCalls, by simp [callsOf], (destroyFileList_calls destroyed).1⟩, rfl⟩
  | openFile fileName found =>
    simp only [handle, Dialog.openFile, Option.bind_eq_bind, Option.bind_eq_some_iff] at run
    obtain ⟨d₁, destroyed, echoed⟩ := run
    obtain ⟨first, shown₁⟩ := destroyFileList_calls destroyed
    obtain ⟨second, shown₂⟩ := getFileList_calls d₁ fileName found
    obtain ⟨third, shown₃⟩ := echo_calls echoed
    refine ⟨?_, by rw [shown₃, shown₂, shown₁]; rfl⟩
    rcases second with second | second
    · exact ⟨destroyCalls ++ echoCalls, by simp [callsOf], by simp [third, second, first]⟩
    · exact ⟨destroyCalls ++ getCalls ++ echoCalls,
        by simp [callsOf], by simp [third, second, first]⟩
  | filter id => exact ⟨⟨echoCalls, by simp [callsOf], (echo_calls run).1⟩, (echo_calls run).2⟩
  | dateChange durationTime =>
    exact ⟨⟨echoCalls, by simp [callsOf], (echo_calls run).1⟩, (echo_calls run).2⟩
  | firstPage =>
    cases run
    exact ⟨⟨pageCalls, by simp [callsOf], (searchToPage_calls _ _).1⟩, rfl⟩
  | prePage =>
    simp only [handle] at run
    split at run
    · cases run
      exact ⟨⟨pageCalls, by simp [callsOf], (searchToPage_calls _ _).1⟩, rfl⟩
    · cases run
      exact ⟨⟨[], by simp [callsOf], by simp⟩, rfl⟩
  | nextPage =>
    simp only [handle] at run
    split at run
    · cases run
      exact ⟨⟨pageCalls, by simp [callsOf], (searchToPage_calls _ _).1⟩, rfl⟩
    · cases run
      exact ⟨⟨[], by simp [callsOf], by simp⟩, rfl⟩
  | lastPage =>
    cases run
    exact ⟨⟨pageCalls, by simp [callsOf], (searchToPage_calls _ _).1⟩, rfl⟩

end Handlers

/-! ### Runs -/

def both : Lock → Bool := fun _ => true

theorem useLocks_append (initialised : Lock → Bool) (first second : List MutexCall) :
    useLocks initialised (first ++ second) =
      (useLocks initialised first).bind fun locks => useLocks locks second := by
  simp [useLocks, List.foldlM_append]

theorem initCalls_used (locks : Lock → Bool) : useLocks locks initCalls = some both := by
  have same : Function.update (Function.update locks .allList true) .showList true = both := by
    funext lock
    cases lock <;> rfl
  simp [useLocks, initCalls, useLock, same]

theorem destroyCalls_used : useLocks both destroyCalls = some fun _ => false := by
  have same : Function.update (Function.update both .allList false) .showList false = fun _ =>
      false := by
    funext lock
    cases lock <;> rfl
  simpa [useLocks, destroyCalls, useLock, both] using same

theorem echoCalls_used : useLocks both echoCalls = some both := rfl

theorem pageCalls_used : useLocks both pageCalls = some both := rfl

theorem reload_misused {fileName : List (BitVec 8)} {found : List ElFile} {calls : List MutexCall}
    (made : calls ∈ callsOf (.openFile fileName found)) : useLocks both calls = none := by
  simp only [callsOf, List.mem_cons, List.not_mem_nil, or_false] at made
  rcases made with rfl | rfl
  · rw [useLocks_append, destroyCalls_used]
    rfl
  · rw [List.append_assoc, useLocks_append, destroyCalls_used]
    rfl

def Ready (d : Dialog) : Prop :=
  ∃ locks, useLocks (fun _ => false) d.calls = some locks ∧ (d.isOpen = true → locks = both)

def Misused (d : Dialog) : Prop := useLocks (fun _ => false) d.calls = none

section Step
variable {freed : List ElFile → FreedLink} {d d' : Dialog} {event : Event}

theorem step_misused (misused : Misused d) (run : step freed d event = some d') : Misused d' := by
  rcases step_cases run with ⟨handled, _⟩ | ⟨rfl, _⟩
  · obtain ⟨⟨calls, _, added⟩, _⟩ := handle_calls handled
    rw [Misused, added, useLocks_append, misused]
    rfl
  · exact misused

theorem step_shown (run : step freed d event = some d') :
    d'.isOpen = shownAfter d.isOpen event := by
  rcases step_cases run with ⟨handled, _⟩ | ⟨rfl, other, closed⟩
  · exact (handle_calls handled).2
  · cases event with
    | create => contradiction
    | _ => simp [shownAfter, closed]

theorem ready_added {calls : List MutexCall} {after : Lock → Bool}
    (used : useLocks (fun _ => false) d.calls = some both) (added : d'.calls = d.calls ++ calls)
    (right : useLocks both calls = some after) (there : d'.isOpen = true → after = both) :
        Ready d' := by
  refine ⟨after, ?_, there⟩
  rw [added, useLocks_append, used]
  exact right

/-- An event that does not reload leaves the locks ready. -/
theorem step_ready (ready : Ready d) (run : step freed d event = some d')
    (gentle : d.isOpen = true → ∀ fileName found, event ≠ .openFile fileName found) : Ready d' := by
  rcases step_cases run with ⟨handled, reached⟩ | ⟨rfl, _⟩
  · obtain ⟨⟨calls, made, added⟩, shown⟩ := handle_calls handled
    obtain ⟨locks, used, there⟩ := ready
    cases event with
    | create =>
      rw [List.mem_singleton.mp made] at added
      refine ⟨both, ?_, fun _ => rfl⟩
      rw [added, useLocks_append, used]
      exact initCalls_used locks
    | quit =>
      rw [there (by simpa using reached)] at used
      rw [List.mem_singleton.mp made] at added
      refine ready_added used added destroyCalls_used ?_
      rw [shown]
      simp [shownAfter]
    | openFile fileName found =>
      exact absurd rfl (gentle (by simpa using reached) fileName found)
    | filter id =>
      rw [there (by simpa using reached)] at used
      rw [List.mem_singleton.mp made] at added
      exact ready_added used added echoCalls_used fun _ => rfl
    | dateChange durationTime =>
      rw [there (by simpa using reached)] at used
      rw [List.mem_singleton.mp made] at added
      exact ready_added used added echoCalls_used fun _ => rfl
    | _ =>
      -- the four page events
      rw [there (by simpa using reached)] at used
      rcases List.mem_pair.mp made with rfl | rfl
      · exact ready_added used added rfl fun _ => rfl
      · exact ready_added used added pageCalls_used fun _ => rfl
  · exact ready

theorem step_reload {fileName : List (BitVec 8)} {found : List ElFile} (ready : Ready d)
    (shown : d.isOpen = true) (run : step freed d (.openFile fileName found) = some d') :
        Misused d' := by
  rcases step_cases run with ⟨handled, _⟩ | ⟨rfl, _, closed⟩
  · obtain ⟨⟨calls, made, added⟩, _⟩ := handle_calls handled
    obtain ⟨locks, used, there⟩ := ready
    rw [there shown] at used
    rw [Misused, added, useLocks_append, used]
    exact reload_misused made
  · rw [closed] at shown
    contradiction

end Step

theorem run_misused {freed : List ElFile → FreedLink} {d d' : Dialog} {events : List Event}
    (misused : Misused d) (run : runEvents freed d events = some d') : Misused d' := by
  induction events generalizing d with
  | nil =>
    cases run
    exact misused
  | cons event events ih =>
    simp only [runEvents, List.foldlM_cons, Option.bind_eq_bind, Option.bind_eq_some_iff] at run
    obtain ⟨d₁, one, rest⟩ := run
    exact ih (step_misused misused one) rest

theorem run_ready {freed : List ElFile → FreedLink} {d d' : Dialog} {events : List Event}
    (ready : Ready d) (run : runEvents freed d events = some d') :
    WellUsed d'.calls ↔ NoReload d.isOpen events := by
  induction events generalizing d with
  | nil =>
    cases run
    obtain ⟨locks, used, _⟩ := ready
    simp [WellUsed, used, NoReload]
  | cons event events ih =>
    simp only [runEvents, List.foldlM_cons, Option.bind_eq_bind, Option.bind_eq_some_iff] at run
    obtain ⟨d₁, one, rest⟩ := run
    have shown := step_shown one
    cases event with
    | openFile fileName found =>
      cases opened : d.isOpen with
      | false =>
        have later := ih (step_ready ready one (by simp [opened])) rest
        have closed : d₁.isOpen = false := by rw [shown]; exact opened
        rw [closed] at later
        simpa [NoReload] using later
      | true =>
        have misused : Misused d' := run_misused (step_reload ready opened one) rest
        rw [Misused] at misused
        simp [WellUsed, misused, NoReload]
    | _ =>
      have later := ih (step_ready ready one (by simp)) rest
      rw [shown] at later
      exact later

theorem beforeDialog_ready : Ready beforeDialog := ⟨fun _ => false, rfl, by simp [beforeDialog]⟩

/-- The locks are used only while they are initialised just if no file list is opened in the dialog. -/
theorem wellUsed_iff (freed : List ElFile → FreedLink) (events : List Event) (d : Dialog)
    (run : runEvents freed beforeDialog events = some d) :
    WellUsed d.calls ↔ NoReload false events :=
  run_ready beforeDialog_ready run

theorem quiet_dialog_wellUsed :
    ∃ d, runEvents (fun _ => .kept) beforeDialog [.create, .filter .subExclude, .quit] = some d ∧
      (WellUsed d.calls ↔ NoReload false [.create, .filter .subExclude, .quit]) := by
  obtain ⟨d, run⟩ : ∃ d, runEvents (fun _ => .kept) beforeDialog
      [.create, .filter .subExclude, .quit] = some d := by
    simp [runEvents, step, handle, Dialog.create, Dialog.init, Dialog.call, beforeDialog,
      Dialog.echo,
      Dialog.genEchoList, genEchoList, listFileDestroy, listFileCopy, Dialog.refreshPageStatus,
      Dialog.searchToPage, listFileLength, Dialog.quit, Dialog.destroyFileList]
  exact ⟨d, run, wellUsed_iff (fun _ => .kept) _ d run⟩

theorem first_open_misused :
    ∃ d, runEvents (fun _ => .kept) beforeDialog [.create, .openFile [0x61] []] = some d ∧
      ¬ WellUsed d.calls := by
  obtain ⟨d, opened⟩ : ∃ d, step (fun _ => .kept) beforeDialog.create (.openFile [0x61] []) =
      some d := by
    simp [step, handle, Dialog.create, Dialog.init, Dialog.call, beforeDialog, Dialog.openFile,
      Dialog.echo,
      Dialog.genEchoList, genEchoList, listFileDestroy, listFileCopy, Dialog.getFileList,
      Dialog.destroyFileList]
  have created : step (fun _ => .kept) beforeDialog .create = some beforeDialog.create := rfl
  have ready := step_ready beforeDialog_ready created (by simp)
  have misused : Misused d := step_reload ready rfl opened
  refine ⟨d, by rw [runEvents, List.foldlM_cons, created]; simpa using opened, ?_⟩
  rw [Misused] at misused
  simp [WellUsed, misused]

end FileSearch
