import CommonLib.FileSearch.Pages

/- The rows of the pages: one after the other they are the show list. -/
namespace FileSearch

/-! ### The two walks of a page -/

def getItemLoop (idx iPos : Int) (elRes : List ElFile) : List ElFile → List ElFile
  | [] => elRes
  | np :: rest => getItemLoop idx (iPos + 1) (if iPos = idx then np :: rest else elRes) rest

def rowLoop : Nat → Int → List ElFile → List (Int × ElFile)
  | 0, _, _ => []
  | _ + 1, _, [] => []
  | count + 1, idx, np :: rest => (idx + 1, np) :: rowLoop count (idx + 1) rest

theorem getItemLoop_eq (idx iPos : Int) (elRes list : List ElFile) :
    getItemLoop idx iPos elRes list =
      if iPos ≤ idx ∧ idx < iPos + list.length then list.drop (idx - iPos).toNat else elRes := by
  induction list generalizing iPos elRes with
  | nil =>
    rw [getItemLoop, if_neg]
    simp
  | cons np rest ih =>
    rw [getItemLoop, ih, List.length_cons]
    by_cases here : iPos = idx
    · rw [if_neg (by omega), if_pos here, if_pos (by omega), here, Int.sub_self]
      rfl
    · rw [if_neg here]
      by_cases later : iPos + 1 ≤ idx ∧ idx < iPos + 1 + rest.length
      · rw [if_pos later, if_pos (by omega),
          show (idx - iPos).toNat = (idx - (iPos + 1)).toNat + 1 by omega, List.drop_succ_cons]
      · rw [if_neg later, if_neg (by omega)]

theorem getItem_found (list : List ElFile) (idx : Int) :
    getItemLoop idx 0 [] list = listFileGetItemByIndex list idx := by
  rw [getItemLoop_eq, listFileGetItemByIndex, Int.sub_zero]
  by_cases inside : 0 ≤ idx ∧ idx < 0 + list.length
  · rw [if_pos inside, if_pos inside.1]
  · rw [if_neg inside]
    split
    · rw [List.drop_eq_nil_of_le (by omega)]
    · rfl

theorem rowLoop_eq (count : Nat) (idx : Int) (nodes : List ElFile) :
    rowLoop count idx nodes = (nodes.take count).mapIdx fun i np => (idx + 1 + i, np) := by
  induction count generalizing idx nodes with
  | zero => simp [rowLoop]
  | succ count ih =>
    cases nodes with
    | nil => simp [rowLoop]
    | cons np rest =>
      rw [rowLoop, ih, List.take_succ_cons, List.mapIdx_cons]
      simp only [Int.natCast_zero, Int.add_zero, List.cons.injEq, true_and]
      congr 1
      funext i np
      rw [show idx + 1 + 1 + (i : Int) = idx + 1 + (i + 1 : Nat) by omega]

theorem searchToPage_rows (d : Dialog) (page : Int) :
    (d.searchToPage page).rows =
      rowLoop (min (d.iTotalNum - page * pageNum) pageNum).toNat (page * pageNum)
        (getItemLoop (page * pageNum) 0 [] d.showList) := by
  have count : (if d.iTotalNum - page * pageNum > pageNum then pageNum
      else d.iTotalNum - page * pageNum) = min (d.iTotalNum - page * pageNum) pageNum := by
    unfold pageNum
    split <;> omega
  rw [rowLoop_eq, getItem_found, ← count]
  rfl

/-! ### All pages -/

def numbered (list : List ElFile) : List (Int × ElFile) :=
  list.mapIdx fun i np => ((i : Int) + 1, np)

def pageRows (d : Dialog) (seen : List Int) (page : Nat) : List (Int × ElFile) :=
  ((seen.foldl Dialog.searchToPage d.refreshPageStatus).searchToPage page).rows

theorem seen_keeps (d : Dialog) (seen : List Int) :
    (seen.foldl Dialog.searchToPage d).showList = d.showList ∧
      (seen.foldl Dialog.searchToPage d).iTotalNum = d.iTotalNum := by
  induction seen generalizing d with
  | nil => exact ⟨rfl, rfl⟩
  | cons page seen ih => exact ih (d.searchToPage page)

theorem pageRows_eq (d : Dialog) (seen : List Int) (page : Nat) :
    pageRows d seen page =
      ((d.showList.drop (10 * page)).take 10).mapIdx fun i np =>
        ((10 * page : Nat) + 1 + (i : Int), np) := by
  obtain ⟨list, total⟩ := seen_keeps d.refreshPageStatus seen
  have files : d.refreshPageStatus.iTotalNum = d.showList.length := (refreshed_pages d).1
  have same : d.refreshPageStatus.showList = d.showList := rfl
  have start : (page : Int) * pageNum = (10 * page : Nat) := by unfold pageNum; omega
  rw [pageRows, searchToPage_rows, rowLoop_eq, getItem_found, list, total, files, same, start,
    listFileGetItemByIndex, if_pos (by omega), Int.toNat_natCast]
  congr 1
  rw [List.take_eq_take_iff, List.length_drop]
  unfold pageNum
  omega

theorem first_pages (d : Dialog) (seen : Nat → List Int) (pages : Nat) :
    (List.range pages).flatMap (fun page => pageRows d (seen page) page) =
      numbered (d.showList.take (10 * pages)) := by
  induction pages with
  | zero => rfl
  | succ pages ih =>
    rw [List.range_succ, List.flatMap_append, ih, List.flatMap_singleton, pageRows_eq,
      Nat.mul_succ, List.take_add, numbered, numbered, List.mapIdx_append]
    congr 1
    by_cases more : 10 * pages < d.showList.length
    · rw [List.length_take, Nat.min_eq_left (by omega)]
      congr 1
      funext i np
      rw [show ((10 * pages : Nat) : Int) + 1 + i = (i + 10 * pages : Nat) + 1 by omega]
    · rw [List.drop_eq_nil_of_le (by omega)]
      rfl

/-- The pages have every element of the show list once, in its order and with its number; none has more
    rows than fit, and none is empty but the only page of an empty list. -/
theorem pages_show_list (d : Dialog) (seen : Nat → List Int) :
    (List.range d.refreshPageStatus.iTotalPage.toNat).flatMap
        (fun page => pageRows d (seen page) page) = numbered d.showList ∧
      ∀ page < d.refreshPageStatus.iTotalPage.toNat,
        ((pageRows d (seen page) page).length : Int) ≤ pageNum ∧
          (pageRows d (seen page) page = [] → d.showList = []) := by
  have pages : d.refreshPageStatus.iTotalPage = pagesOf d.showList.length := (refreshed_pages d).2
  unfold pagesOf at pages
  constructor
  · rw [first_pages, List.take_of_length_le (by omega)]
  · intro page inside
    have rows : (pageRows d (seen page) page).length = min 10 (d.showList.length - 10 * page) := by
      rw [pageRows_eq, List.length_mapIdx, List.length_take, List.length_drop]
    constructor
    · unfold pageNum
      omega
    · intro empty
      rw [empty] at rows
      exact List.eq_nil_of_length_eq_zero (by simp at rows; omega)

end FileSearch
