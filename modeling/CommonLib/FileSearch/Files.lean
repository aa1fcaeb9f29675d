import Mathlib.Data.List.Basic

/- The file lists of the search dialog. A list is the sequence of its nodes from `lh_first` on, and
   what a node that has been freed still holds is a parameter. -/
namespace FileSearch

structure Name where
  bytes : List (BitVec 8)
  fits : bytes.length < 64
  deriving DecidableEq, Repr

/-- `snprintf(name, sizeof(name), "%s", ..)`: what fits in front of the terminator. -/
def snprintfName (name : Name) : Name :=
  ⟨name.bytes.take 63, by rw [List.length_take]; omega⟩

structure FileInfo where
  name : Name
  size : Int
  createdTime : Int
  deriving DecidableEq, Repr

/-- `struct elFile`: `isDir` is 0 or 1, and only a directory has a list of its own. -/
inductive ElFile where
  | file (info : FileInfo)
  | dir (name : Name) (sub : List ElFile)

structure TimeDuration where
  beginTime : Int
  endTime : Int
  deriving DecidableEq, Repr

def listFileLength : List ElFile → Int
  | [] => 0
  | _ :: rest => listFileLength rest + 1

def copyNode (info : FileInfo) : ElFile :=
  .file { name := snprintfName info.name, createdTime := info.createdTime, size := info.size }

def listFileCopy (type : Bool) (duration : Option TimeDuration) (dst : List ElFile) :
    List ElFile → List ElFile
  | [] => dst
  | .file np :: rest =>
    match duration with
    | some duration' =>
      if np.createdTime ≥ duration'.beginTime ∧ np.createdTime ≤ duration'.endTime then
        listFileCopy type duration (copyNode np :: dst) rest
      else listFileCopy type duration dst rest
    | none => listFileCopy type duration (copyNode np :: dst) rest
  | .dir _ sub :: rest =>
    if type then listFileCopy type duration (listFileCopy type duration dst sub) rest
    else listFileCopy type duration dst rest
termination_by list => sizeOf list
decreasing_by all_goals simp only [List.cons.sizeOf_spec, ElFile.dir.sizeOf_spec]; omega

/-- What the link of a node reads as after `free` of the node: what it was, a null pointer, or
    an access that faults. -/
inductive FreedLink where
  | kept
  | null
  | fault
  deriving DecidableEq, Repr

/-- `List_File_Destroy`. The loop goes on from the link of a node that it has freed: `freed` says what
    is read there, given the nodes that had been behind it. -/
def listFileDestroy (freed : List ElFile → FreedLink) : List ElFile → Option (List ElFile)
  | [] => some []
  | .file _ :: rest =>
    match freed rest with
    | .kept => listFileDestroy freed rest
    | .null => some rest
    | .fault => none
  | .dir _ sub :: rest =>
    match listFileDestroy freed sub with
    | none => none
    | some _ =>
      match freed rest with
      | .kept => listFileDestroy freed rest
      | .null => some rest
      | .fault => none

def genEchoList (freed : List ElFile → FreedLink) (hasSub : Bool) (duration : Option TimeDuration)
    (allList showList : List ElFile) : Option (List ElFile) := do
  let emptied ← listFileDestroy freed showList
  return listFileCopy hasSub duration emptied allList

/-- `List_File_GetItemByIndex`: the node at an index with those behind it, and nothing for `NULL`. -/
def listFileGetItemByIndex (list : List ElFile) (idx : Int) : List ElFile :=
  if 0 ≤ idx then list.drop idx.toNat else []

end FileSearch
