import CommonLib.Text.Digits
import CommonLib.FileDb.Keys
import CommonLib.LibLog.Lines
import Mathlib.Data.List.Nodup

/- The clean-up of the log directory: which files it removes, and when these are the expired logs. -/
namespace LibLog
open Overwrite Digits
open FileDb (Bytes memcmp byteValues memcmp_spec)

/-! ### Dates -/

structure Date where
  digits : Bytes
  eight : digits.length = 8
  decimal : ∀ c ∈ digits, IsDigit c

def Date.number (date : Date) : Nat := numberFrom 0 date.digits

/-! ### What is to be removed -/

def Expired (prifix : Bytes) (cutOff : Date) (name : Bytes) : Prop :=
  ∃ date : Date, date.number ≤ cutOff.number ∧ name = recvFileName prifix date.digits

/-- The log directory: no name twice, and few regular files with short names. -/
structure LogDir where
  entries : List Dirent
  distinct : (entries.map fun e => e.dName.bytes).Nodup
  few : (entries.filter (·.dType = 8)).length ≤ logfileMaxCount
  named : ∀ e ∈ entries, e.dType = 8 → e.dName.bytes ≠ [] ∧ e.dName.bytes ≠ text "." ∧
    e.dName.bytes ≠ text ".." ∧ e.dName.bytes.length < logfileNameLength

def LogDir.names (dir : LogDir) : List Bytes :=
  (dir.entries.filter (·.dType = 8)).map fun e => e.dName.bytes

def Date.deadtime (cutOff : Date) : Bytes := cutOff.digits ++ text "000000"

/-- The clean-up leaves everything but the expired logs. -/
def CleansUp (behind : Nat → UInt8) (cutOff : Date) (prifix : CString) (dir : LogDir) : Prop :=
  ∃ left, initLog behind cutOff.deadtime prifix dir.entries = some left ∧
    ∀ e, e ∈ left ↔ e ∈ dir.entries ∧ ¬ (e.dType = 8 ∧ Expired prifix.bytes cutOff e.dName.bytes)

/-! ### The rows of `file_names` -/

def row (name : Bytes) : Bytes := name ++ List.replicate (logfileNameLength - name.length) 0

def image (names : List Bytes) : FileNames :=
  names.flatMap row ++
    List.replicate (logfileMaxCount * logfileNameLength - names.length * logfileNameLength) 0

def dateBytes (behind : Nat → UInt8) (prifix : Bytes) (names : List Bytes) (i : Nat) : Bytes :=
  bytesFrom (image names) behind (i * logfileNameLength + dateOffset prifix) 8

section Rows

theorem row_length {name : Bytes} (short : name.length < logfileNameLength) :
    (row name).length = logfileNameLength := by
  simp only [row, List.length_append, List.length_replicate]
  omega

theorem rows_length {names : List Bytes} (short : ∀ n ∈ names, n.length < logfileNameLength) :
    (names.flatMap row).length = names.length * logfileNameLength := by
  induction names with
  | nil => simp
  | cons name names ih =>
    rw [List.flatMap_cons, List.length_append, row_length (short name List.mem_cons_self),
      ih fun n member => short n (List.mem_cons_of_mem _ member), List.length_cons, Nat.succ_mul,
      Nat.add_comm]

theorem image_snoc {names : List Bytes} {name : Bytes}
    (short : ∀ n ∈ names, n.length < logfileNameLength) (fits : name.length < logfileNameLength)
    (room : names.length < logfileMaxCount) :
    overwrite (image names) (names.length * logfileNameLength) (name ++ [0]) =
      image (names ++ [name]) := by
  have length := rows_length short
  have place : names.length * logfileNameLength = (names.flatMap row).length := length.symm
  unfold logfileNameLength at fits
  unfold logfileMaxCount at room
  rw [overwrite, image, place, List.take_left, ← List.drop_drop, List.drop_left,
    List.drop_replicate, image, List.flatMap_append, List.flatMap_singleton, row,
    List.length_append, List.length_append, List.length_singleton, List.length_singleton]
  simp only [List.append_assoc, List.append_cancel_left_eq, List.singleton_append]
  rw [← List.replicate_succ, List.replicate_append_replicate]
  congr 1
  unfold logfileNameLength at length
  unfold logfileMaxCount logfileNameLength
  omega

theorem readFilelist_image {entries : List Dirent} {names : List Bytes}
    (before : ∀ n ∈ names, n.length < logfileNameLength)
    (few : names.length + (entries.filter (·.dType = 8)).length ≤ logfileMaxCount)
    (named : ∀ e ∈ entries, e.dType = 8 → e.dName.bytes ≠ text "." ∧
      e.dName.bytes ≠ text ".." ∧ e.dName.bytes.length < logfileNameLength) :
    (readFilelist names.length (image names) entries).1 =
      image (names ++ (entries.filter (·.dType = 8)).map fun e => e.dName.bytes) := by
  induction entries generalizing names with
  | nil => simp [readFilelist]
  | cons e entries ih =>
    have later := fun e' member => named e' (List.mem_cons_of_mem _ member)
    by_cases regular : e.dType = 8
    · obtain ⟨dot, dots, fits⟩ := named e List.mem_cons_self regular
      rw [List.filter_cons_of_pos (by simpa using regular), List.length_cons] at few
      rw [List.filter_cons_of_pos (by simpa using regular), List.map_cons]
      have stored := image_snoc before fits (by omega)
      have short : ∀ n ∈ names ++ [e.dName.bytes], n.length < logfileNameLength := by
        intro n member
        rcases List.mem_append.mp member with old | new
        · exact before n old
        · rw [List.mem_singleton.mp new]
          exact fits
      have rest := ih short (by rw [List.length_append, List.length_singleton]; omega) later
      rw [List.length_append, List.length_singleton, List.append_assoc, List.singleton_append] at rest
      rw [readFilelist, if_neg (not_or.mpr ⟨dot, dots⟩), if_pos regular, stored]
      dsimp only
      split
      · -- the thirtieth file ends the listing
        rename_i last
        unfold logfileMaxCount at few last
        have none_ : entries.filter (·.dType = 8) = [] :=
          List.eq_nil_of_length_eq_zero (by omega)
        rw [none_]
        rfl
      · exact rest
    · rw [List.filter_cons_of_neg (by simpa using regular)] at few ⊢
      have rest := ih before few later
      rw [readFilelist, if_neg regular]
      split <;> exact rest

theorem row_at {names : List Bytes} (short : ∀ n ∈ names, n.length < logfileNameLength) {i : Nat}
    {name : Bytes} (here : names[i]? = some name) :
    ∃ rest, (image names).drop (i * logfileNameLength) = row name ++ rest := by
  obtain ⟨inside, same⟩ := List.getElem?_eq_some_iff.mp here
  have split : names = names.take i ++ name :: names.drop (i + 1) := by
    rw [← same, List.getElem_cons_drop, List.take_append_drop]
  have before : ((names.take i).flatMap row).length = i * logfileNameLength := by
    rw [rows_length fun n member => short n (List.mem_of_mem_take member), List.length_take,
      Nat.min_eq_left (by omega)]
  rw [image, split, List.flatMap_append, List.flatMap_cons, ← before, List.append_assoc,
    List.drop_left, List.append_assoc]
  exact ⟨_, rfl⟩

theorem name_at {names : List Bytes} (short : ∀ n ∈ names, n.length < logfileNameLength) {i : Nat}
    {name : Bytes} (here : names[i]? = some name) (noNul : 0 ∉ name) :
    ((image names).drop (i * logfileNameLength)).takeWhile (· ≠ 0) = name := by
  obtain ⟨rest, begins⟩ := row_at short here
  have fits := short name (List.mem_of_getElem? here)
  have terminated : row name =
      name ++ [0] ++ List.replicate (logfileNameLength - name.length - 1) 0 := by
    rw [row, List.append_assoc, List.singleton_append, ← List.replicate_succ,
      show logfileNameLength - name.length - 1 + 1 = logfileNameLength - name.length by omega]
  rw [begins, terminated, List.append_assoc]
  exact takeWhile_terminated noNul _

theorem name_past {names : List Bytes} (short : ∀ n ∈ names, n.length < logfileNameLength) {i : Nat}
    (past : names.length ≤ i) :
    ((image names).drop (i * logfileNameLength)).takeWhile (· ≠ 0) = [] := by
  have length := rows_length short
  have behind : (names.flatMap row).length ≤ i * logfileNameLength := by
    rw [length]
    exact Nat.mul_le_mul_right _ past
  rw [image, List.drop_append, List.drop_eq_nil_of_le behind, List.nil_append, List.drop_replicate,
    List.takeWhile_replicate]
  rfl

theorem bytesFrom_eq {names : FileNames} (behind : Nat → UInt8) {place count : Nat}
    {bytes rest : Bytes} (there : names.drop place = bytes ++ rest) (size : bytes.length = count) :
    bytesFrom names behind place count = bytes := by
  apply List.ext_getElem
  · simp [bytesFrom, size]
  · intro k low high
    have found : names[place + k]? = some bytes[k] := by
      rw [← List.getElem?_drop, there, List.getElem?_append_left high, List.getElem?_eq_getElem high]
    simp [bytesFrom, List.getD_eq_getElem?_getD, found]

end Rows

/-! ### The loop -/

structure Listed (names : List Bytes) : Prop where
  few : names.length ≤ logfileMaxCount
  short : ∀ n ∈ names, n.length < logfileNameLength
  some_ : ∀ n ∈ names, n ≠ []
  noNul : ∀ n ∈ names, 0 ∉ n

def Doomed (behind : Nat → UInt8) (prifix : Bytes) (cutOff : Date) (names : List Bytes) (i : Nat) :
    Prop :=
  ¬ cutOff.digits.map UInt8.toNat < (dateBytes behind prifix names i).map UInt8.toNat

section Loop
variable {behind : Nat → UInt8} {prifix : Bytes} {cutOff : Date} {names : List Bytes}

theorem dateBytes_length (i : Nat) : (dateBytes behind prifix names i).length = 8 := by
  simp [dateBytes, bytesFrom]

theorem doomed_iff (i : Nat) :
    ¬ memcmp (dateBytes behind prifix names i) cutOff.deadtime 8 > 0 ↔
      Doomed behind prifix cutOff names i := by
  have size : (dateBytes behind prifix names i).length = 8 := dateBytes_length i
  have eight := cutOff.eight
  have compared := (memcmp_spec 8 (dateBytes behind prifix names i) cutOff.deadtime (by omega)
    (by simp [Date.deadtime, eight])).2
  have date : byteValues 8 cutOff.deadtime = cutOff.digits.map UInt8.toNat := by
    rw [byteValues, Date.deadtime, List.take_left' eight]
  have cut : byteValues 8 (dateBytes behind prifix names i) =
      (dateBytes behind prifix names i).map UInt8.toNat := by
    rw [byteValues, List.take_of_length_le (by omega)]
  rw [date, cut] at compared
  exact not_congr compared

variable (listed : Listed names)
include listed

theorem turn_past {i : Nat} (past : names[i]? = none) (dir : List Dirent) :
    aliveTurn behind prifix cutOff.deadtime (image names) dir i = some dir := by
  have nothing := name_past listed.short (List.getElem?_eq_none_iff.mp past)
  unfold aliveTurn
  rw [nothing]
  rfl

theorem turn_spared {i : Nat} {name : Bytes} (here : names[i]? = some name)
    (spared : ¬ Doomed behind prifix cutOff names i) (dir : List Dirent) :
    aliveTurn behind prifix cutOff.deadtime (image names) dir i = some dir := by
  have member := List.mem_of_getElem? here
  have found := name_at listed.short here (listed.noNul name member)
  have above : memcmp (dateBytes behind prifix names i) cutOff.deadtime 8 > 0 :=
    Classical.byContradiction fun below => spared ((doomed_iff i).mp below)
  have positive := List.length_pos_iff.mpr (listed.some_ name member)
  unfold aliveTurn
  rw [found]
  exact (if_pos positive).trans (if_pos above)

theorem turn_doomed {i : Nat} {name : Bytes} (here : names[i]? = some name)
    (doomed : Doomed behind prifix cutOff names i) (dir : List Dirent) :
    aliveTurn behind prifix cutOff.deadtime (image names) dir i =
      if name.length < 40 then some (remove dir name) else none := by
  have member := List.mem_of_getElem? here
  have found := name_at listed.short here (listed.noNul name member)
  have below := (doomed_iff i).mpr doomed
  have positive := List.length_pos_iff.mpr (listed.some_ name member)
  have path : (logfilePath ++ text "/" ++ name).length = 10 + name.length := by
    rw [List.length_append]
    rfl
  unfold aliveTurn
  rw [found]
  refine (if_pos positive).trans ((if_neg below).trans ?_)
  by_cases small : name.length < 40
  · rw [copyTo_room (by rw [path, List.length_replicate]; omega), if_pos small]
    rfl
  · rw [copyTo_over (by rw [path, List.length_replicate]; omega), if_neg small]
    rfl

/-- So many turns take the doomed files off the directory. -/
theorem turns_remove {dir : List Dirent} {m : Nat}
    (short : ∀ i < m, ∀ n, names[i]? = some n → Doomed behind prifix cutOff names i → n.length < 40) :
    ∃ left, (List.range m).foldlM (aliveTurn behind prifix cutOff.deadtime (image names)) dir =
        some left ∧
      ∀ e, e ∈ left ↔ e ∈ dir ∧
        ∀ i < m, Doomed behind prifix cutOff names i → names[i]? ≠ some e.dName.bytes := by
  induction m with
  | zero => exact ⟨dir, rfl, by simp⟩
  | succ m ih =>
    obtain ⟨left, run, holds⟩ := ih fun i below => short i (by omega)
    have turn : ∃ left', aliveTurn behind prifix cutOff.deadtime (image names) left m = some left' ∧
        ∀ e, e ∈ left' ↔ e ∈ left ∧
          (Doomed behind prifix cutOff names m → names[m]? ≠ some e.dName.bytes) := by
      cases here : names[m]? with
      | none => exact ⟨left, turn_past listed here left, by simp⟩
      | some name =>
        by_cases doomed : Doomed behind prifix cutOff names m
        · have small := short m (by omega) name here doomed
          refine ⟨_, (turn_doomed listed here doomed left).trans (if_pos small), fun e => ?_⟩
          rw [remove, List.mem_filter, decide_eq_true_eq]
          exact and_congr_right fun _ => ⟨fun other _ same => other (Option.some.inj same).symm,
            fun all same => all doomed (congrArg some same.symm)⟩
        · exact ⟨left, turn_spared listed here doomed left, by simp [doomed]⟩
    obtain ⟨left', last, rest⟩ := turn
    refine ⟨left', ?_, fun e => ?_⟩
    · rw [List.range_succ, List.foldlM_append, run]
      simpa using last
    · rw [rest, holds, and_assoc]
      refine and_congr_right fun _ => ?_
      constructor
      · rintro ⟨earlier, here⟩ i below
        rcases Nat.lt_succ_iff_lt_or_eq.mp below with before | rfl
        · exact earlier i before
        · exact here
      · intro all
        exact ⟨fun i below => all i (by omega), all m (by omega)⟩

theorem turns_short {dir left : List Dirent} {m : Nat}
    (run : (List.range m).foldlM (aliveTurn behind prifix cutOff.deadtime (image names)) dir =
      some left) :
    ∀ i < m, ∀ n, names[i]? = some n → Doomed behind prifix cutOff names i → n.length < 40 := by
  induction m generalizing left with
  | zero => simp
  | succ m ih =>
    rw [List.range_succ, List.foldlM_append] at run
    obtain ⟨before, earlier, last⟩ := Option.bind_eq_some_iff.mp run
    intro i below n here doomed
    rcases Nat.lt_succ_iff_lt_or_eq.mp below with inside | rfl
    · exact ih earlier i inside n here doomed
    · apply Classical.byContradiction
      intro long
      have refused := (turn_doomed listed here doomed before).trans (if_neg long)
      simp [refused] at last

end Loop

/-! ### The directory -/

theorem LogDir.listed (dir : LogDir) : Listed dir.names := by
  have regular : ∀ n ∈ dir.names, ∃ e ∈ dir.entries, e.dType = 8 ∧ e.dName.bytes = n := by
    intro n member
    obtain ⟨e, inside, same⟩ := List.mem_map.mp member
    obtain ⟨entry, type⟩ := List.mem_filter.mp inside
    exact ⟨e, entry, by simpa using type, same⟩
  constructor
  · rw [LogDir.names, List.length_map]
    exact dir.few
  · intro n member
    obtain ⟨e, entry, type, rfl⟩ := regular n member
    exact (dir.named e entry type).2.2.2
  · intro n member
    obtain ⟨e, entry, type, rfl⟩ := regular n member
    exact (dir.named e entry type).1
  · intro n member
    obtain ⟨e, _, _, rfl⟩ := regular n member
    exact e.dName.noNul

theorem mem_names {dir : LogDir} {name : Bytes} :
    name ∈ dir.names ↔ ∃ e ∈ dir.entries, e.dType = 8 ∧ e.dName.bytes = name := by
  simp [LogDir.names, and_assoc]

theorem LogDir.only (dir : LogDir) {e e' : Dirent} (first : e ∈ dir.entries)
    (second : e' ∈ dir.entries) (same : e.dName.bytes = e'.dName.bytes) : e = e' :=
  List.inj_on_of_nodup_map dir.distinct first second same

theorem initLog_eq (behind : Nat → UInt8) (cutOff : Date) (prifix : CString) (dir : LogDir) :
    initLog behind cutOff.deadtime prifix dir.entries =
      if prifix.bytes.length < logfileNameLength then
        fileAlivesProc behind prifix.bytes cutOff.deadtime (image dir.names) dir.entries
      else none := by
  have few : ([] : List Bytes).length + (dir.entries.filter (·.dType = 8)).length ≤
      logfileMaxCount := by simpa using dir.few
  have read : (readFilelist 0 noNames dir.entries).1 = image dir.names :=
    readFilelist_image (by simp) few fun e entry type => (dir.named e entry type).2
  unfold initLog
  generalize readFilelist 0 noNames dir.entries = listing at read
  obtain ⟨names, ret⟩ := listing
  have names_ : names = image dir.names := read
  subst names_
  by_cases small : prifix.bytes.length < logfileNameLength
  · rw [copyTo_room (by rw [List.length_replicate]; omega), if_pos small]
    simp only [Option.bind_eq_bind, Option.bind_some, takeWhile_terminated prifix.noNul]
  · rw [copyTo_over (by rw [List.length_replicate]; omega), if_neg small]
    rfl

theorem dateBytes_log {names : List Bytes} (listed : Listed names) (behind : Nat → UInt8)
    {prifix : Bytes} {date : Date} {i : Nat}
    (here : names[i]? = some (recvFileName prifix date.digits)) :
    dateBytes behind prifix names i = date.digits := by
  obtain ⟨rest, begins⟩ := row_at listed.short here
  have offset : dateOffset prifix = (logfilePrefix ++ prifix ++ text "_").length := by
    rw [dateOffset, List.length_append, List.length_append]
    simp [text]
    omega
  have whole : date.digits.take 8 = date.digits := List.take_of_length_le (by rw [date.eight])
  have name : recvFileName prifix date.digits =
      logfilePrefix ++ prifix ++ text "_" ++ (date.digits ++ text ".log") := by
    rw [recvFileName, whole, List.append_assoc _ date.digits]
  have cut : (image names).drop (i * logfileNameLength + dateOffset prifix) =
      date.digits ++ (text ".log" ++ (List.replicate
        (logfileNameLength - (recvFileName prifix date.digits).length) 0 ++ rest)) := by
    rw [← List.drop_drop, begins, row, offset]
    generalize List.replicate (logfileNameLength - (recvFileName prifix date.digits).length)
      (0 : UInt8) = zeros
    rw [name]
    generalize logfilePrefix ++ prifix ++ text "_" = front
    rw [List.append_assoc, List.append_assoc, List.drop_left, List.append_assoc]
  exact bytesFrom_eq behind cut date.eight

theorem expired_doomed {names : List Bytes} (listed : Listed names) (behind : Nat → UInt8)
    {prifix name : Bytes} {cutOff : Date} {i : Nat} (here : names[i]? = some name)
    (expired : Expired prifix cutOff name) : Doomed behind prifix cutOff names i := by
  obtain ⟨date, old, rfl⟩ := expired
  rw [Doomed, dateBytes_log listed behind here,
    digits_lt_iff (by rw [cutOff.eight, date.eight]) cutOff.decimal date.decimal 0]
  exact Nat.not_lt.mpr old

/-- Nothing but the expired logs is taken for one, and their names are short enough. -/
structure OnlyExpired (behind : Nat → UInt8) (cutOff : Date) (prifix : CString) (dir : LogDir) :
    Prop where
  terminal : prifix.bytes.length < logfileNameLength
  path : ∀ name ∈ dir.names, Expired prifix.bytes cutOff name → name.length < 40
  others : ∀ i name, dir.names[i]? = some name → ¬ Expired prifix.bytes cutOff name →
    cutOff.digits.map UInt8.toNat < (dateBytes behind prifix.bytes dir.names i).map UInt8.toNat

section CleanUp
variable {behind : Nat → UInt8} {cutOff : Date} {prifix : CString} {dir : LogDir}

theorem CleansUp.onlyExpired (cleans : CleansUp behind cutOff prifix dir) :
    OnlyExpired behind cutOff prifix dir := by
  obtain ⟨left, run, holds⟩ := cleans
  rw [initLog_eq] at run
  have terminal : prifix.bytes.length < logfileNameLength := by
    apply Classical.byContradiction
    intro long
    rw [if_neg long] at run
    cases run
  rw [if_pos terminal] at run
  have short := turns_short dir.listed run
  have few := dir.listed.few
  constructor
  · exact terminal
  · intro name member expired
    obtain ⟨i, here⟩ := List.mem_iff_getElem?.mp member
    have inside := (List.getElem?_eq_some_iff.mp here).1
    exact short i (by omega) name here (expired_doomed dir.listed behind here expired)
  · intro i name here fresh
    apply Classical.byContradiction
    intro doomed
    have inside := (List.getElem?_eq_some_iff.mp here).1
    obtain ⟨e, entry, type, same⟩ := mem_names.mp (List.mem_of_getElem? here)
    obtain ⟨left', again, removed⟩ := turns_remove dir.listed short
    have kept : e ∈ left := (holds e).mpr ⟨entry, fun gone => fresh (same ▸ gone.2)⟩
    have one : left = left' := Option.some.inj (run.symm.trans again)
    exact ((removed e).mp (one ▸ kept)).2 i (by omega) doomed (by rw [here, same])

theorem OnlyExpired.cleansUp (only : OnlyExpired behind cutOff prifix dir) :
    CleansUp behind cutOff prifix dir := by
  have few := dir.listed.few
  have expired : ∀ i name, dir.names[i]? = some name →
      Doomed behind prifix.bytes cutOff dir.names i → Expired prifix.bytes cutOff name :=
    fun i name here doomed =>
      Classical.byContradiction fun fresh => doomed (only.others i name here fresh)
  have short : ∀ i < logfileMaxCount, ∀ name, dir.names[i]? = some name →
      Doomed behind prifix.bytes cutOff dir.names i → name.length < 40 :=
    fun i _ name here doomed =>
      only.path name (List.mem_of_getElem? here) (expired i name here doomed)
  obtain ⟨left, run, removed⟩ : ∃ left,
      fileAlivesProc behind prifix.bytes cutOff.deadtime (image dir.names) dir.entries =
        some left ∧ _ := turns_remove dir.listed short
  refine ⟨left, ?_, fun e => ?_⟩
  · rw [initLog_eq, if_pos only.terminal]
    exact run
  · rw [removed]
    refine and_congr_right fun entry => ?_
    constructor
    · rintro all ⟨type, old⟩
      obtain ⟨i, here⟩ := List.mem_iff_getElem?.mp (mem_names.mpr ⟨e, entry, type, rfl⟩)
      have inside := (List.getElem?_eq_some_iff.mp here).1
      exact all i (by omega) (expired_doomed dir.listed behind here old) here
    · intro other i _ doomed here
      obtain ⟨e', entry', type, same⟩ := mem_names.mp (List.mem_of_getElem? here)
      have one : e' = e := dir.only entry' entry same
      exact other ⟨one ▸ type, expired i _ here doomed⟩

end CleanUp

/-- The clean-up removes just the expired logs of this terminal if and only if nothing else in the
    directory is taken for one. -/
theorem cleansUp_iff (behind : Nat → UInt8) (cutOff : Date) (prifix : CString) (dir : LogDir) :
    CleansUp behind cutOff prifix dir ↔ OnlyExpired behind cutOff prifix dir :=
  ⟨CleansUp.onlyExpired, OnlyExpired.cleansUp⟩

/-! ### A log of another terminal -/

def lastDay : Date where
  digits := text "20260101"
  eight := by decide
  decimal := by simp [text, IsDigit]

def otherLog : CString := ⟨text "log_b503_7_20991231.log", by decide⟩

def otherTerminal : LogDir where
  entries := [⟨8, otherLog⟩]
  distinct := by simp
  few := by decide
  named := by decide

theorem otherLog_fresh : ¬ Expired (text "77") lastDay otherLog.bytes := by
  rintro ⟨date, _, same⟩
  have lengths := congrArg List.length same
  have eight := date.eight
  simp [recvFileName, otherLog, logfilePrefix, text, eight] at lengths

/-- Terminal `77` takes `0991231.` for its date and removes it. -/
theorem other_log_removed :
    ¬ CleansUp (fun _ => 0) lastDay ⟨text "77", by decide⟩ otherTerminal := by
  intro cleans
  have above := cleans.onlyExpired.others 0 otherLog.bytes rfl otherLog_fresh
  revert above
  decide

end LibLog
