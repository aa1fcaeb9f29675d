import CommonLib.FileSearch.Dialog
import CommonLib.FileSearch.EchoList
import Mathlib.Algebra.Group.Int.Defs
import Mathlib.Algebra.Group.Nat.Defs

/- The page numbers of the dialog, over every run of events. -/
namespace FileSearch

def pagesOf (files : Int) : Int := max 1 ((files + 9) / 10)

structure PagesRight (d : Dialog) : Prop where
  pages : d.iTotalPage = pagesOf d.iTotalNum
  files : d.iTotalNum = d.showList.length
  low : 0 ≤ d.iCurPage
  high : d.iCurPage < d.iTotalPage

/-- The creation trusts the number of pages left behind, and quitting leaves the number of files. -/
def Refreshed (d : Dialog) : Event → Prop
  | .create => d.iTotalPage = 1
  | .quit => d.isOpen = true → d.showList = []
  | _ => True

section Runs
variable (freed : List ElFile → FreedLink)

def AlwaysRight : Dialog → List Event → Prop
  | _, [] => True
  | d, event :: events =>
    ∀ d', step freed d event = some d' → PagesRight d' ∧ AlwaysRight d' events

def AlwaysRefreshed : Dialog → List Event → Prop
  | _, [] => True
  | d, event :: events =>
    ∀ d', step freed d event = some d' → Refreshed d event ∧ AlwaysRefreshed d' events

end Runs

theorem listFileLength_eq (list : List ElFile) : listFileLength list = list.length := by
  induction list with
  | nil => rfl
  | cons np rest ih => simp [listFileLength, ih]

/-! ### What the handlers leave alone -/

namespace Dialog
variable (d : Dialog) (mutexCall : MutexCall) (page : Int)

@[simp] theorem call_showList : (d.call mutexCall).showList = d.showList := rfl
@[simp] theorem call_iTotalNum : (d.call mutexCall).iTotalNum = d.iTotalNum := rfl
@[simp] theorem call_iTotalPage : (d.call mutexCall).iTotalPage = d.iTotalPage := rfl
@[simp] theorem call_iCurPage : (d.call mutexCall).iCurPage = d.iCurPage := rfl
@[simp] theorem call_isOpen : (d.call mutexCall).isOpen = d.isOpen := rfl

@[simp] theorem searchToPage_showList : (d.searchToPage page).showList = d.showList := rfl
@[simp] theorem searchToPage_iTotalNum : (d.searchToPage page).iTotalNum = d.iTotalNum := rfl
@[simp] theorem searchToPage_iTotalPage : (d.searchToPage page).iTotalPage = d.iTotalPage := rfl
@[simp] theorem searchToPage_iCurPage : (d.searchToPage page).iCurPage = page := rfl
@[simp] theorem searchToPage_isOpen : (d.searchToPage page).isOpen = d.isOpen := rfl

end Dialog

theorem searchToPage_right {d : Dialog} {page : Int} (pages : d.iTotalPage = pagesOf d.iTotalNum)
    (files : d.iTotalNum = d.showList.length) (low : 0 ≤ page) (high : page < d.iTotalPage) :
    PagesRight (d.searchToPage page) where
  pages := pages
  files := files
  low := low
  high := high

theorem refreshed_pages (d : Dialog) :
    d.refreshPageStatus.iTotalNum = d.showList.length ∧
      d.refreshPageStatus.iTotalPage = pagesOf d.showList.length := by
  have count : listFileLength d.showList = d.showList.length := listFileLength_eq d.showList
  constructor
  · exact count
  · simp only [Dialog.refreshPageStatus, Dialog.call_showList, count, pagesOf, pageNum]
    split
    · omega
    · rw [Int.tdiv_eq_ediv_of_nonneg (by omega)]
      omega

theorem echo_right {freed : List ElFile → FreedLink} {d d' : Dialog}
    {duration : Option TimeDuration}
    (run : d.echo freed duration = some d') : PagesRight d' := by
  simp only [Dialog.echo, Option.bind_eq_bind, Option.bind_eq_some_iff, Option.pure_def,
    Option.some.injEq] at run
  obtain ⟨echoed, _, rfl⟩ := run
  obtain ⟨files, pages⟩ := refreshed_pages echoed
  have positive : 0 < echoed.refreshPageStatus.iTotalPage := by
    rw [pages]
    unfold pagesOf
    omega
  exact searchToPage_right (by rw [pages, files]) files (by omega) positive

theorem destroy_shorter {freed : List ElFile → FreedLink} {list left : List ElFile}
    (run : listFileDestroy freed list = some left) : left.length ≤ list.length - 1 := by
  induction list using depthFirst.induct generalizing left with
  | case1 => simp_all [listFileDestroy]
  | case2 np rest ih =>
    rw [listFileDestroy] at run
    split at run
    · have shorter := ih run
      rw [List.length_cons]
      omega
    · cases run
      simp
    · cases run
  | case3 name sub rest inner ih =>
    rw [listFileDestroy] at run
    split at run
    · cases run
    · split at run
      · have shorter := ih run
        rw [List.length_cons]
        omega
      · cases run
        simp
      · cases run

theorem quit_right {freed : List ElFile → FreedLink} {d d' : Dialog} (right : PagesRight d)
    (run : Dialog.quit freed d = some d') : PagesRight d' ↔ d.showList = [] := by
  simp only [Dialog.quit, Dialog.destroyFileList, Option.bind_eq_bind, Option.bind_eq_some_iff,
    Option.pure_def, Option.some.injEq] at run
  obtain ⟨_, ⟨allList, _, showList, emptied, rfl⟩, rfl⟩ := run
  have shorter := destroy_shorter emptied
  simp only [Dialog.call_showList] at shorter emptied
  constructor
  · intro after
    have files : d.iTotalNum = showList.length := after.files
    have before := right.files
    exact List.eq_nil_of_length_eq_zero (by omega)
  · intro empty
    have files := right.files
    rw [empty] at files shorter
    constructor
    · exact right.pages
    · show d.iTotalNum = showList.length
      simp at files shorter
      simp [files, shorter]
    · exact right.low
    · exact right.high

theorem create_right (d : Dialog) : PagesRight d.create ↔ d.iTotalPage = 1 := by
  constructor
  · intro right
    exact right.pages
  · intro single
    exact ⟨single, rfl, Int.le_refl 0, show 0 < d.iTotalPage by omega⟩

theorem page_right {freed : List ElFile → FreedLink} {d d' : Dialog} {event : Event}
    (right : PagesRight d) (turned : event ∈ [.firstPage, .prePage, .nextPage, .lastPage])
    (run : handle freed d event = some d') : PagesRight d' := by
  obtain ⟨pages, files, low, high⟩ := right
  have turns : ∀ page, 0 ≤ page → page < d.iTotalPage → PagesRight (d.searchToPage page) :=
    fun page => searchToPage_right pages files
  simp only [List.mem_cons, List.not_mem_nil, or_false] at turned
  rcases turned with rfl | rfl | rfl | rfl
  · cases run
    exact turns 0 (Int.le_refl 0) (by omega)
  · simp only [handle] at run
    split at run
    · cases run
      exact turns (d.iCurPage - 1) (by omega) (by omega)
    · cases run
      exact ⟨pages, files, low, high⟩
  · simp only [handle] at run
    split at run
    · cases run
      exact turns (d.iCurPage + 1) (by omega) (by omega)
    · cases run
      exact ⟨pages, files, low, high⟩
  · cases run
    exact turns (d.iTotalPage - 1) (by omega) (by omega)

theorem step_right {freed : List ElFile → FreedLink} {d d' : Dialog} {event : Event}
    (right : PagesRight d) (run : step freed d event = some d') :
    PagesRight d' ↔ Refreshed d event := by
  rcases step_cases run with ⟨handled, reached⟩ | ⟨rfl, other, closed⟩
  · cases event with
    | create =>
      cases handled
      exact create_right d
    | quit =>
      have shown : d.isOpen = true := by simpa using reached
      rw [quit_right right handled]
      simp [Refreshed, shown]
    | openFile fileName found =>
      simp only [handle, Dialog.openFile, Option.bind_eq_bind, Option.bind_eq_some_iff] at handled
      obtain ⟨_, _, echoed⟩ := handled
      exact iff_of_true (echo_right echoed) trivial
    | filter id => exact iff_of_true (echo_right handled) trivial
    | dateChange durationTime => exact iff_of_true (echo_right handled) trivial
    | firstPage => exact iff_of_true (page_right right (by simp) handled) trivial
    | prePage => exact iff_of_true (page_right right (by simp) handled) trivial
    | nextPage => exact iff_of_true (page_right right (by simp) handled) trivial
    | lastPage => exact iff_of_true (page_right right (by simp) handled) trivial
  · cases event with
    | create => contradiction
    | _ => simp [Refreshed, right, closed]

theorem beforeDialog_right : PagesRight beforeDialog := by
  constructor <;> decide

/-- In every run the numbers are right after each event just if each event finds the dialog refreshed. -/
theorem pagesRight_iff (freed : List ElFile → FreedLink) (events : List Event) :
    AlwaysRight freed beforeDialog events ↔ AlwaysRefreshed freed beforeDialog events := by
  have general : ∀ d, PagesRight d →
      (AlwaysRight freed d events ↔ AlwaysRefreshed freed d events) := by
    induction events with
    | nil => exact fun _ _ => Iff.rfl
    | cons event events ih =>
      intro d right
      refine forall₂_congr fun d' run => ?_
      have one := step_right right run
      constructor
      · rintro ⟨after, later⟩
        exact ⟨one.mp after, (ih d' after).mp later⟩
      · rintro ⟨refreshed, later⟩
        have after := one.mpr refreshed
        exact ⟨after, (ih d' after).mpr later⟩
  exact general beforeDialog beforeDialog_right

/-! ### The range of an int -/

def IsInt (x : Int) : Prop := -2 ^ 31 ≤ x ∧ x < 2 ^ 31

def Throughout (freed : List ElFile → FreedLink) (P : Dialog → Prop) : Dialog → List Event → Prop
  | _, [] => True
  | d, event :: events =>
    ∀ d', step freed d event = some d' → P d' ∧ Throughout freed P d' events

/-- The list has at most `2 ^ 31 - 10` nodes. -/
def Small (d : Dialog) : Prop := d.showList.length + pageNum ≤ 2 ^ 31

structure Bounded (d : Dialog) : Prop where
  files : 0 ≤ d.iTotalNum ∧ d.iTotalNum + pageNum ≤ 2 ^ 31
  pages : d.iTotalPage * pageNum ≤ 2 ^ 31
  page : 0 ≤ d.iCurPage ∧ d.iCurPage < d.iTotalPage

/-- What the handlers compute from bounded numbers, for any page there is. -/
theorem Bounded.fits {d : Dialog} (bounded : Bounded d) {page : Int} (low : 0 ≤ page)
    (high : page < d.iTotalPage) :
    IsInt (d.iTotalNum + pageNum - 1) ∧ IsInt d.iTotalPage ∧ IsInt (page * pageNum) ∧
      IsInt (d.iTotalNum - page * pageNum) ∧ IsInt (page + 1) ∧
      ∀ row ∈ (d.searchToPage page).rows, IsInt row.1 := by
  obtain ⟨files, pages, _⟩ := bounded
  unfold pageNum at files pages
  refine ⟨?_, ?_, ?_, ?_, ?_, ?_⟩
  · unfold IsInt pageNum
    omega
  · unfold IsInt
    omega
  · unfold IsInt pageNum
    omega
  · unfold IsInt pageNum
    omega
  · unfold IsInt
    omega
  · intro row shown
    obtain ⟨i, inside, rfl⟩ := List.mem_iff_getElem.mp shown
    -- the number of the row is within ten of the first of its page
    have ten : i < 10 := by
      simp only [Dialog.searchToPage, pageNum, List.length_mapIdx, List.length_take] at inside
      omega
    simp only [Dialog.searchToPage, List.getElem_mapIdx, IsInt, pageNum]
    omega

theorem searchToPage_bounded {d : Dialog} (bounded : Bounded d) {page : Int} (low : 0 ≤ page)
    (high : page < d.iTotalPage) : Bounded (d.searchToPage page) :=
  ⟨bounded.files, bounded.pages, low, high⟩

theorem echo_bounded {freed : List ElFile → FreedLink} {d d' : Dialog}
    {duration : Option TimeDuration} (run : d.echo freed duration = some d') (small : Small d') :
    Bounded d' := by
  obtain ⟨pages, files, low, high⟩ := echo_right run
  unfold Small at small
  unfold pagesOf at pages
  refine ⟨by omega, ?_, low, high⟩
  unfold pageNum at small ⊢
  omega

theorem step_bounded {freed : List ElFile → FreedLink} {d d' : Dialog} {event : Event}
    (bounded : Bounded d) (run : step freed d event = some d') (small : Small d') :
    Bounded d' := by
  obtain ⟨low, high⟩ := bounded.page
  have turns : ∀ page, 0 ≤ page → page < d.iTotalPage → Bounded (d.searchToPage page) :=
    fun page => searchToPage_bounded bounded
  rcases step_cases run with ⟨handled, _⟩ | ⟨rfl, _, _⟩
  · cases event with
    | create =>
      cases handled
      have empty : (0 : Int) ≤ 0 ∧ (0 : Int) + pageNum ≤ 2 ^ 31 := by decide
      have first : (0 : Int) ≤ 0 ∧ 0 < d.iTotalPage := by omega
      exact ⟨empty, bounded.pages, first⟩
    | quit =>
      simp only [handle, Dialog.quit, Dialog.destroyFileList, Option.bind_eq_bind,
        Option.bind_eq_some_iff, Option.pure_def, Option.some.injEq] at handled
      obtain ⟨_, ⟨_, _, _, _, rfl⟩, rfl⟩ := handled
      exact ⟨bounded.files, bounded.pages, bounded.page⟩
    | openFile fileName found =>
      simp only [handle, Dialog.openFile, Option.bind_eq_bind, Option.bind_eq_some_iff] at handled
      obtain ⟨_, _, echoed⟩ := handled
      exact echo_bounded echoed small
    | filter id => exact echo_bounded handled small
    | dateChange durationTime => exact echo_bounded handled small
    | firstPage =>
      cases handled
      exact turns 0 (Int.le_refl 0) (by omega)
    | prePage =>
      simp only [handle] at handled
      split at handled
      · cases handled
        exact turns (d.iCurPage - 1) (by omega) (by omega)
      · cases handled
        exact bounded
    | nextPage =>
      simp only [handle] at handled
      split at handled
      · cases handled
        exact turns (d.iCurPage + 1) (by omega) (by omega)
      · cases handled
        exact bounded
    | lastPage =>
      cases handled
      exact turns (d.iTotalPage - 1) (by omega) (by omega)
  · exact bounded

/-- In a run whose show lists have at most `2 ^ 31 - 10` nodes no `int` overflows. -/
theorem run_bounded (freed : List ElFile → FreedLink) (events : List Event)
    (small : Throughout freed Small beforeDialog events) :
    Throughout freed Bounded beforeDialog events := by
  have general : ∀ d, Bounded d → Throughout freed Small d events →
      Throughout freed Bounded d events := by
    clear small
    induction events with
    | nil => exact fun _ _ _ => trivial
    | cons event events ih =>
      intro d bounded small d' run
      obtain ⟨now, later⟩ := small d' run
      have after := step_bounded bounded run now
      exact ⟨after, ih d' after later⟩
  exact general beforeDialog ⟨by decide, by decide, by decide⟩ small

def elevenFiles : List ElFile := List.replicate 11 (.file ⟨⟨[0x61], by decide⟩, 1, 0⟩)

theorem inDuration_none : inDuration none = fun _ => true := rfl

/-- The dialog is opened again after eleven files: one page too many. -/
theorem second_dialog_stale :
    ∃ d, runEvents (fun _ => .kept) beforeDialog [.create, .openFile [0x61] elevenFiles,
      .quit, .create] =
        some d ∧ d.iTotalNum = 0 ∧ d.iTotalPage = 2 ∧ ¬ PagesRight d := by
  simp only [runEvents, List.foldlM_cons, List.foldlM_nil, step, handle, Option.bind_eq_bind,
    Option.bind_some, if_true, Dialog.openFile, Dialog.quit, Dialog.destroyFileList, Dialog.echo,
    Dialog.genEchoList, genEchoList, destroy_kept, copy_echoes, Dialog.create, Dialog.init,
    Option.pure_def]
  refine ⟨_, rfl, rfl, ?_⟩
  have wrong : ∀ d : Dialog, d.iTotalNum = 0 → d.iTotalPage = 2 → ¬ PagesRight d := by
    intro d zero two right
    have pages := right.pages
    rw [two, zero] at pages
    exact absurd pages (by decide)
  have two : ∀ d : Dialog, d.iTotalNum = 0 → d.iTotalPage = 2 → d.iTotalPage = 2 ∧ ¬ PagesRight d :=
    fun d zero two => ⟨two, wrong d zero two⟩
  apply two _ rfl
  simp [Dialog.refreshPageStatus, Dialog.searchToPage, Dialog.call, Dialog.getFileList,
    beforeDialog,
    listFileLength_eq, elevenFiles, List.replicate, echoList, hits, depthFirst,
      inDuration_none, pageNum]

end FileSearch
