import Mathlib.Data.List.Basic
import Mathlib.Data.Int.Basic
import Mathlib.Data.Int.ModEq

/- The callbacks of the REST client that libcurl calls: the body to send, the header lines, the body
   received. Beside its result a callback says whether all that it stored lies inside of the buffer. -/
namespace Restful

/-! ### C integers, where the callbacks mix them -/

def toInt (n : Int) : Int := Int.bmod n (2 ^ 32)
def toSizeT (n : Int) : Nat := (n % 2 ^ 64).toNat

theorem toInt_of {n : Int} (low : -2 ^ 31 ≤ n) (high : n < 2 ^ 31) : toInt n = n := by
  unfold toInt
  rw [Int.bmod_def]
  split
  · omega
  · omega

theorem toSizeT_of {n : Nat} (high : n < 2 ^ 64) : toSizeT n = n := by
  unfold toSizeT
  omega

def memcpy (mem : Nat → UInt8) (at_ : Nat) (bytes : List UInt8) : Nat → UInt8 := fun i =>
  if at_ ≤ i ∧ i < at_ + bytes.length then bytes.getD (i - at_) 0 else mem i

/-! ### The body to send -/

structure CurlReadData where
  ptr : Nat → UInt8
  size : Int
  pos : Int

/-- What one call of `ReadFunc` leaves: the data, the buffer, the return value, and whether all
    it wrote lies inside the buffer. -/
structure ReadResult where
  data : CurlReadData
  buf : Nat → UInt8
  ret : Nat
  inside : Bool

def readFunc (data : CurlReadData) (bufptr : Nat → UInt8) (bytes : Nat) : ReadResult :=
  let left := toInt (data.size - data.pos)
  let copyLen := if toSizeT left ≥ bytes then toInt bytes else left
  let source := (List.range (toSizeT copyLen)).map fun i => data.ptr (toSizeT data.pos + i)
  { data := { data with pos := toInt (data.pos + copyLen) }
    buf := memcpy bufptr (toSizeT data.pos) source
    ret := toSizeT copyLen
    inside := source = [] || toSizeT data.pos + source.length ≤ bytes }

/-! ### Header lines -/

structure HTTPHeader where
  status : Int
  contentLength : Int
  deriving DecidableEq, Repr

/-- What `sscanf` with a literal and one `%d` comes to: the input ended first, it did not match,
    or a number was stored. -/
inductive Scan where
  | eof
  | mismatch
  | value (n : Int)
  deriving DecidableEq, Repr

def bytes (s : String) : List UInt8 := s.toList.map fun c => UInt8.ofNat c.toNat

def isSpace (c : UInt8) : Bool := c = 32 || (9 ≤ c && c ≤ 13)

def isDigit (c : UInt8) : Bool := 48 ≤ c && c ≤ 57

def decimal (digits : List UInt8) : Nat := digits.foldl (fun n c => n * 10 + (c.toNat - 48)) 0

/-- The value of `%d`: read as a `long`, which stops at its limits, and stored in an `int`. -/
def stored (negative : Bool) (n : Nat) : Int :=
  toInt (if negative then max (-2 ^ 63) (-(n : Int)) else min (2 ^ 63 - 1) (n : Int))

def scanNumber (s : List UInt8) : Scan :=
  match s.dropWhile isSpace with
  | [] => .eof
  | c :: cs =>
    let negative := c = 45
    let digits := (if c = 45 || c = 43 then cs else c :: cs).takeWhile isDigit
    if digits = [] then .mismatch else .value (stored negative (decimal digits))

def scan : List UInt8 → List UInt8 → Scan
  | [], s => scanNumber s
  | _ :: _, [] => .eof
  | l :: literal, c :: s => if l = c then scan literal s else .mismatch

/-- The result of `sscanf` and the variable it stores to. The string ends at the first NUL. -/
def sscanf (ptr literal : List UInt8) (len : Int) : Int × Int :=
  match scan literal (ptr.takeWhile (· ≠ 0)) with
  | .eof => (-1, len)
  | .mismatch => (0, len)
  | .value n => (1, n)

def getHttpStatusFunc (header : HTTPHeader) (ptr : List UInt8) : HTTPHeader :=
  let (r, len) := sscanf ptr (bytes "HTTP/1.0") 0
  let header := if r ≠ 0 then { header with status := len } else header
  let (r, len) := sscanf ptr (bytes "HTTP/1.1") len
  let header := if r ≠ 0 then { header with status := len } else header
  let (r, len) := sscanf ptr (bytes "Content-Length:") len
  if r ≠ 0 then { header with contentLength := len } else header

/-! ### The body received -/

structure CurlWriteData where
  ptr : Option (Nat → UInt8)
  size : Int
  pos : Int

/-- `malloc`: more than `PTRDIFF_MAX` bytes are never given. The bytes given hold anything. -/
def malloc (fresh : Nat → UInt8) (n : Nat) : Option (Nat → UInt8) :=
  if n < 2 ^ 63 then some fresh else none

/-- `WriteFunc` on a chunk, and whether all it stored lies inside the buffer. -/
def writeFunc (fresh : Nat → UInt8) (header : HTTPHeader) (data : CurlWriteData)
    (chunk : List UInt8) :
    CurlWriteData × Bool :=
  let data := if data.ptr.isNone then
      let size := toInt (header.contentLength + 1)
      (⟨malloc fresh (toSizeT size), size, 0⟩ : CurlWriteData)
    else data
  let inside := chunk = [] || (data.ptr.isSome &&
    toSizeT data.pos + chunk.length ≤ toSizeT data.size)
  let data := { data with
    ptr := data.ptr.map fun mem => memcpy mem (toSizeT data.pos) chunk
    pos := toInt (data.pos + chunk.length) }
  if data.pos = header.contentLength then
    ({ data with ptr := data.ptr.map fun mem => memcpy mem (toSizeT header.contentLength) [0] },
      inside && (data.ptr.isSome && toSizeT header.contentLength + 1 ≤ toSizeT data.size))
  else (data, inside)

end Restful
