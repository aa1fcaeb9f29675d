import CommonLib.FileSearch.Files

/- The search dialog: its static variables, its handlers, and the mutex calls they make. -/
namespace FileSearch

abbrev pageNum : Int := 10

inductive SearchFilter where
  | subInclude
  | subExclude
  deriving DecidableEq, Repr

inductive Lock where
  | allList
  | showList
  deriving DecidableEq, Repr

inductive MutexCall where
  | init (lock : Lock)
  | lock (lock : Lock)
  | unlock (lock : Lock)
  | destroy (lock : Lock)
  deriving DecidableEq, Repr

/-- `*s_hFileSearchState` with the static variables; `calls` records the mutex calls made so far. -/
structure Dialog where
  isOpen : Bool
  allList : List ElFile
  showList : List ElFile
  iSearchFilterType : SearchFilter
  iTotalNum : Int
  iTotalPage : Int
  iCurPage : Int
  pageText : Int × Int
  rows : List (Int × ElFile)
  calls : List MutexCall

def beforeDialog : Dialog := ⟨false, [], [], .subInclude, 0, 1, 0, (0, 0), [], []⟩

namespace Dialog

def call (d : Dialog) (mutexCall : MutexCall) : Dialog := { d with calls := d.calls ++ [mutexCall] }

def init (d : Dialog) : Dialog :=
  { d with iTotalNum := 0, iCurPage := 0, iSearchFilterType := .subInclude }

/-- `FileSearchWnd_Create`, up to the first event of the dialog box. -/
def create (d : Dialog) : Dialog :=
  let d := { d with allList := [], showList := [] }
  let d := (d.call (.init .allList)).call (.init .showList)
  ({ d with isOpen := true }).init

def refreshPageStatus (d : Dialog) : Dialog :=
  let d := (d.call (.lock .showList)).call (.unlock .showList)
  let totalNum := listFileLength d.showList
  { d with
    iTotalNum := totalNum
    iTotalPage := if totalNum = 0 then 1 else (totalNum + pageNum - 1).tdiv pageNum }

/-- `FileSearch_SearchToPage`. The rows are the nodes shown, with their numbers. -/
def searchToPage (d : Dialog) (iPage : Int) : Dialog :=
  let iLeftItemNum := d.iTotalNum - iPage * pageNum
  let iCurlItemNum := if iLeftItemNum > pageNum then pageNum else iLeftItemNum
  let idx := iPage * pageNum
  let nodes := (listFileGetItemByIndex d.showList idx).take iCurlItemNum.toNat
  let d := (d.call (.lock .showList)).call (.unlock .showList)
  { d with
    iCurPage := iPage
    pageText := (iPage + 1, d.iTotalPage)
    rows := nodes.mapIdx fun i np => (idx + 1 + i, np) }

variable (freed : List ElFile → FreedLink)

def genEchoList (d : Dialog) (hasSub : Bool) (duration : Option TimeDuration) : Option Dialog := do
  let d := (d.call (.lock .allList)).call (.lock .showList)
  let showList ← FileSearch.genEchoList freed hasSub duration d.allList d.showList
  let d := { d with showList := showList }
  return (d.call (.unlock .showList)).call (.unlock .allList)

def destroyFileList (d : Dialog) : Option Dialog := do
  let d := d.call (.lock .allList)
  let allList ← listFileDestroy freed d.allList
  let d := { d with allList := allList }
  let d := (d.call (.unlock .allList)).call (.destroy .allList)
  let d := d.call (.lock .showList)
  let showList ← listFileDestroy freed d.showList
  let d := { d with showList := showList }
  return (d.call (.unlock .showList)).call (.destroy .showList)

/-- `FileSearch_GetFileList`, where `FileSearch_ForeachPath` puts what it found at the head of the list. -/
def getFileList (d : Dialog) (dirname : List (BitVec 8)) (found : List ElFile) : Dialog :=
  if dirname.length > 256 ∨ dirname.length = 0 then d
  else if dirname = [0x2e] ∨ dirname = [0x2e, 0x2e] then d
  else
    let d := d.call (.lock .allList)
    let d := { d with allList := found ++ d.allList }
    d.call (.unlock .allList)

def echo (d : Dialog) (duration : Option TimeDuration) : Option Dialog := do
  let d ← genEchoList freed d (d.iSearchFilterType == .subInclude) duration
  return d.refreshPageStatus.searchToPage 0

def openFile (d : Dialog) (fileName : List (BitVec 8)) (found : List ElFile) : Option Dialog := do
  let d ← destroyFileList freed d
  echo freed (d.getFileList fileName found) none

def quit (d : Dialog) : Option Dialog := do
  let d ← destroyFileList freed d
  return { d with isOpen := false }

end Dialog

/-- A dialog that is created, and what reaches its window procedure and `my_notif_proc`. -/
inductive Event where
  | create
  | quit
  | openFile (fileName : List (BitVec 8)) (found : List ElFile)
  | filter (id : SearchFilter)
  | dateChange (durationTime : TimeDuration)
  | firstPage
  | prePage
  | nextPage
  | lastPage

def handle (freed : List ElFile → FreedLink) (d : Dialog) : Event → Option Dialog
  | .create => some d.create
  | .quit => Dialog.quit freed d
  | .openFile fileName found => Dialog.openFile freed d fileName found
  | .filter id => Dialog.echo freed { d with iSearchFilterType := id } none
  | .dateChange durationTime => Dialog.echo freed d (some durationTime)
  | .firstPage => some (d.searchToPage 0)
  | .prePage =>
    if d.iCurPage > 0 then
      let d := { d with iCurPage := d.iCurPage - 1 }
      some (d.searchToPage d.iCurPage)
    else some d
  | .nextPage =>
    if d.iCurPage < d.iTotalPage - 1 then
      let d := { d with iCurPage := d.iCurPage + 1 }
      some (d.searchToPage d.iCurPage)
    else some d
  | .lastPage => some (d.searchToPage (d.iTotalPage - 1))

def step (freed : List ElFile → FreedLink) (d : Dialog) (event : Event) : Option Dialog :=
  match event with
  | .create => handle freed d .create
  | event => if d.isOpen then handle freed d event else some d

/-- Events one after the other, each handled to completion. -/
def runEvents (freed : List ElFile → FreedLink) (d : Dialog) (events : List Event) :
    Option Dialog :=
  events.foldlM (step freed) d

theorem step_cases {freed : List ElFile → FreedLink} {d d' : Dialog} {event : Event}
    (run : step freed d event = some d') :
    (handle freed d event = some d' ∧ (event = .create ∨ d.isOpen = true)) ∨
      (d' = d ∧ event ≠ .create ∧ d.isOpen = false) := by
  cases event with
  | create => exact Or.inl ⟨run, Or.inl rfl⟩
  | _ =>
    cases shown : d.isOpen with
    | false =>
      simp only [step, shown] at run
      cases run
      exact Or.inr ⟨rfl, by simp, rfl⟩
    | true =>
      simp only [step, shown] at run
      exact Or.inl ⟨run, Or.inr rfl⟩

end FileSearch
