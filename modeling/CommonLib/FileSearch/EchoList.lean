import CommonLib.FileSearch.Files

/- What the show list is to hold, and when `FileSearch_GenEchoList` makes it so. -/
namespace FileSearch

def topLevel : List ElFile → List FileInfo
  | [] => []
  | .file info :: rest => info :: topLevel rest
  | .dir _ _ :: rest => topLevel rest

def depthFirst : List ElFile → List FileInfo
  | [] => []
  | .file info :: rest => info :: depthFirst rest
  | .dir _ sub :: rest => depthFirst sub ++ depthFirst rest

def inDuration (duration : Option TimeDuration) (info : FileInfo) : Bool :=
  match duration with
  | none => true
  | some range => decide (range.beginTime ≤ info.createdTime ∧ info.createdTime ≤ range.endTime)

def hits (hasSub : Bool) (duration : Option TimeDuration) (allList : List ElFile) : List FileInfo :=
  (if hasSub then depthFirst allList else topLevel allList).filter (inDuration duration)

def echoList (hasSub : Bool) (duration : Option TimeDuration) (allList : List ElFile) :
    List ElFile :=
  (hits hasSub duration allList).reverse.map ElFile.file

theorem snprintfName_eq (name : Name) : snprintfName name = name := by
  obtain ⟨bytes, fits⟩ := name
  simp only [snprintfName, Name.mk.injEq]
  exact List.take_of_length_le (by omega)

theorem copyNode_eq (info : FileInfo) : copyNode info = .file info := by
  simp [copyNode, snprintfName_eq]

section Copy
variable (type : Bool) (duration : Option TimeDuration)

theorem hits_file (np : FileInfo) (rest : List ElFile) :
    hits type duration (.file np :: rest) =
      if inDuration duration np then np :: hits type duration rest else hits type duration rest := by
  cases type with
  | false => simp [hits, topLevel, List.filter_cons]
  | true => simp [hits, depthFirst, List.filter_cons]

theorem hits_dir (name : Name) (sub rest : List ElFile) :
    hits type duration (.dir name sub :: rest) =
      (if type then hits type duration sub else []) ++ hits type duration rest := by
  cases type with
  | false => simp [hits, topLevel]
  | true => simp [hits, depthFirst]

theorem echoList_file (np : FileInfo) (rest : List ElFile) :
    echoList type duration (.file np :: rest) =
      echoList type duration rest ++ if inDuration duration np then [.file np] else [] := by
  unfold echoList
  rw [hits_file]
  split <;> simp

theorem echoList_dir (name : Name) (sub rest : List ElFile) :
    echoList type duration (.dir name sub :: rest) =
      echoList type duration rest ++ if type then echoList type duration sub else [] := by
  unfold echoList
  rw [hits_dir]
  split <;> simp

theorem copy_file (dst : List ElFile) (np : FileInfo) (rest : List ElFile) :
    listFileCopy type duration dst (.file np :: rest) =
      listFileCopy type duration ((if inDuration duration np then [.file np] else []) ++
          dst) rest := by
  cases duration with
  | none => simp [listFileCopy, inDuration, copyNode_eq]
  | some range =>
    simp only [listFileCopy, inDuration, copyNode_eq, ge_iff_le, decide_eq_true_eq]
    split <;> rfl

/-- The copy goes in front of what the destination held, by induction on the nested lists. -/
theorem copy_echoes (dst src : List ElFile) :
    listFileCopy type duration dst src = echoList type duration src ++ dst := by
  induction src using depthFirst.induct generalizing dst with
  | case1 => simp [listFileCopy, echoList, hits, depthFirst, topLevel]
  | case2 np rest ih =>
    rw [copy_file, ih, echoList_file, List.append_assoc]
  | case3 name sub rest inner ih =>
    rw [echoList_dir, listFileCopy]
    cases type with
    | false =>
      rw [if_neg Bool.false_ne_true, ih]
      simp
    | true =>
      rw [if_pos rfl, ih, inner]
      simp

end Copy

/-! ### Emptying the old list -/

theorem destroy_kept (list : List ElFile) : listFileDestroy (fun _ => .kept) list = some [] := by
  induction list using depthFirst.induct with
  | case1 => simp [listFileDestroy]
  | case2 np rest ih => simp [listFileDestroy, ih]
  | case3 name sub rest inner ih => simp [listFileDestroy, inner, ih]

/-- The first node that is freed decides. -/
theorem destroy_fault {list : List ElFile} (held : list ≠ []) :
    listFileDestroy (fun _ => .fault) list = none := by
  cases list with
  | nil => contradiction
  | cons np rest =>
    cases np with
    | file info => simp [listFileDestroy]
    | dir name sub =>
      rw [listFileDestroy]
      split <;> rfl

/-- The echo is right for any memory of freed nodes just if there is no old node to free,
    and with an old list still if a freed node keeps its link. -/
theorem genEchoList_iff (hasSub : Bool) (duration : Option TimeDuration)
    (allList showList : List ElFile) :
    ((∀ freed, genEchoList freed hasSub duration allList showList =
        some (echoList hasSub duration allList)) ↔ showList = []) ∧
    genEchoList (fun _ => .kept) hasSub duration allList showList =
      some (echoList hasSub duration allList) := by
  constructor
  · constructor
    · intro always
      by_contra held
      have fault := always fun _ => .fault
      simp [genEchoList, destroy_fault held] at fault
    · rintro rfl freed
      simp [genEchoList, listFileDestroy, copy_echoes]
  · simp [genEchoList, destroy_kept, copy_echoes]

/-- A second echo of a single file. -/
theorem second_echo_fails :
    ¬ ∀ freed, genEchoList freed true none [.file ⟨⟨[0x61], by decide⟩, 1, 0⟩]
        [.file ⟨⟨[0x61], by decide⟩, 1, 0⟩] =
      some (echoList true none [.file ⟨⟨[0x61], by decide⟩, 1, 0⟩]) := by
  intro always
  have fault := always fun _ => .fault
  simp [genEchoList, listFileDestroy] at fault

end FileSearch
