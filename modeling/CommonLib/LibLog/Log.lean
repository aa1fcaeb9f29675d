import CommonLib.Memory.Overwrite
import CommonLib.FileDb.Format
import Mathlib.Algebra.Group.Nat.Defs

/- `lib_log`: the line of a message, and the clean-up of the log directory. A string is the list of
   its characters without the terminator, and a `none` is a store outside of a buffer. -/
namespace LibLog
open Overwrite
open FileDb (Bytes strlen memcmp)

def text (s : String) : Bytes := s.toList.map fun c => UInt8.ofNat c.toNat

structure CString where
  bytes : Bytes
  noNul : 0 ∉ bytes
  deriving DecidableEq, Repr

/-! ### Constants of `log.h` and `log.c` -/

abbrev logfileMaxCount : Nat := 30

abbrev logfileNameLength : Nat := 50

def logfilePath : Bytes := text "/root/log"

def logfilePrefix : Bytes := text "log_b503_"

abbrev maxText : Nat := 1024

inductive LogLevel where
  | error
  | warn
  | info
  | debug
  deriving DecidableEq, Repr

def LogLevel.number : LogLevel → Nat
  | .error => 1
  | .warn => 2
  | .info => 3
  | .debug => 4

def logLevel : LogLevel := .debug

def LogLevel.name : LogLevel → Bytes
  | .error => text "ERROR"
  | .warn => text "WARN"
  | .info => text "INFO"
  | .debug => text "DEBUG"

def LogLevel.colour : LogLevel → Bytes
  | .error => text "\x1b[1;31m"
  | .warn => text "\x1b[1;33m"
  | .info => text "\x1b[1;34m"
  | .debug => text "\x1b[1;32m"

/-! ### Printing -/

def decimal (n : Nat) : Bytes := (Nat.toDigits 10 n).map fun c => UInt8.ofNat c.toNat

def decimalInt (n : Int) : Bytes :=
  if n < 0 then text "-" ++ decimal n.natAbs else decimal n.natAbs

def padded (width n : Nat) : Bytes :=
  List.replicate (width - (decimal n).length) 48 ++ decimal n

/-- What `localtime` and `gettimeofday` say, for a year of four digits. -/
structure LocalTime where
  year : Fin 10000
  month : Fin 13
  day : Fin 32
  hour : Fin 24
  minute : Fin 60
  second : Fin 61
  millisecond : Fin 1000
  deriving DecidableEq, Repr

def getTimestamp (time : LocalTime) : Bytes :=
  text "[" ++ padded 4 time.year ++ text "-" ++ padded 2 time.month ++ text "-" ++
    padded 2 time.day ++ text " " ++ padded 2 time.hour ++ text ":" ++ padded 2 time.minute ++
    text ":" ++ padded 2 time.second ++ text ":" ++ padded 3 time.millisecond ++ text "] "

def getCurtime (time : LocalTime) : Bytes :=
  padded 4 time.year ++ padded 2 time.month ++ padded 2 time.day ++ padded 2 time.hour ++
    padded 2 time.minute ++ padded 2 time.second

/-- `strcpy` or `sprintf` to the start of a buffer. It is `none` outside of the buffer. -/
def copyTo (buffer string : Bytes) : Option Bytes :=
  if string.length + 1 ≤ buffer.length then some (overwrite buffer 0 (string ++ [0])) else none

/-! ### A message -/

def baseName (filename : Bytes) : Bytes :=
  (filename.reverse.takeWhile (· ≠ 47)).reverse

def vsnprintf (message : Bytes) : Bytes := message.take 1023

/-- The four `sprintf` of `mylog1`, which differ in the colour. -/
def decorated (time : LocalTime) (filename : Bytes) (line : Int) (level : LogLevel)
    (message : Bytes) : Bytes :=
  level.colour ++ getTimestamp time ++ text "[" ++ level.name ++ text "] [" ++
    baseName filename ++ text ":" ++ decimalInt line ++ text "] " ++ vsnprintf message ++
    text "\n\x1b[0m"

/-- A message in the queue: `text`, and how much of it `msgsnd` takes. -/
structure Queued where
  text : Bytes
  len : Nat
  deriving DecidableEq, Repr

/-- `send_msg`, up to `msgsnd`; `data.text` holds anything before. -/
def sendMsg (found : Vector UInt8 maxText) (buf : Bytes) (len : Nat) : Option Queued := do
  let data ← copyTo found.toList (buf.takeWhile (· ≠ 0))
  return ⟨data, len⟩

/-- `mylog1`: what it prints, and what it puts into the queue. It is `none` when it stores outside of a
    buffer. -/
def mylog1 (found : Vector UInt8 maxText) (time : LocalTime) (filename : CString) (line : Int)
    (level : LogLevel) (message : CString) : Option (Option (Bytes × Queued)) :=
  if level.number > logLevel.number then some none
  else do
    let sbuf ← copyTo (List.replicate maxText 0)
      (decorated time filename.bytes line level message.bytes)
    let queued ← sendMsg found sbuf (strlen sbuf)
    return some (sbuf.takeWhile (· ≠ 0), queued)

/-! ### The log directory -/

/-- The name in `tmpfname` that `recv_msg` opens, behind the path. -/
def recvFileName (prifix tmpTime : Bytes) : Bytes :=
  logfilePrefix ++ prifix ++ text "_" ++ tmpTime.take 8 ++ text ".log"

structure Dirent where
  dType : Nat
  dName : CString
  deriving DecidableEq, Repr

abbrev FileNames := Bytes

def noNames : FileNames := List.replicate (logfileMaxCount * logfileNameLength) 0

/-- The loop of `read_filelist`, and what it returns. -/
def readFilelist (count : Nat) (names : FileNames) : List Dirent → FileNames × Int
  | [] => (names, 0)
  | ptr :: rest =>
    if ptr.dName.bytes = text "." ∨ ptr.dName.bytes = text ".." then readFilelist count names rest
    else if ptr.dType = 8 then
      let names := overwrite names (count * logfileNameLength) (ptr.dName.bytes ++ [0])
      if count + 1 > logfileMaxCount - 1 then (names, -2) else readFilelist (count + 1) names rest
    else readFilelist count names rest

def bytesFrom (names : FileNames) (behind : Nat → UInt8) (place count : Nat) : Bytes :=
  (List.range count).map fun k => names.getD (place + k) (behind (place + k))

def remove (dir : List Dirent) (name : Bytes) : List Dirent :=
  dir.filter (·.dName.bytes ≠ name)

def dateOffset (prifix : Bytes) : Nat := logfilePrefix.length + 1 + prifix.length

/-- One turn of the loop in `file_alives_proc`. It is `none` when the path overruns `dfname[50]`. -/
def aliveTurn (behind : Nat → UInt8) (prifix deadtime : Bytes) (names : FileNames)
    (dir : List Dirent) (i : Nat) : Option (List Dirent) :=
  let name := (names.drop (i * logfileNameLength)).takeWhile (· ≠ 0)
  if name.length > 0 then
    let ftime := bytesFrom names behind (i * logfileNameLength + dateOffset prifix) 8
    if memcmp ftime deadtime 8 > 0 then some dir
    else do
      let _ ← copyTo (List.replicate 50 0) (logfilePath ++ text "/" ++ name)
      return remove dir name
  else some dir

def fileAlivesProc (behind : Nat → UInt8) (prifix deadtime : Bytes) (names : FileNames)
    (dir : List Dirent) : Option (List Dirent) :=
  (List.range logfileMaxCount).foldlM (aliveTurn behind prifix deadtime names) dir

/-- `init_log`, from the listing of the directory to the clean-up. What `read_filelist` returns is
    ignored, and `file_prifix` is empty before. -/
def initLog (behind : Nat → UInt8) (deadtime : Bytes) (prifix : CString) (dir : List Dirent) :
    Option (List Dirent) := do
  let (names, _) := readFilelist 0 noNames dir
  let filePrifix ← copyTo (List.replicate logfileNameLength 0) prifix.bytes
  fileAlivesProc behind (filePrifix.takeWhile (· ≠ 0)) deadtime names dir

end LibLog
