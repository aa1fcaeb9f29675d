import CommonLib.Memory.Overwrite
import Mathlib.Logic.Function.Basic
import Mathlib.Algebra.Group.Nat.Defs

/- `mbuf`: a growing buffer of bytes. Each call is given what the allocator answers: a null pointer,
   or a place with whatever was in it. A `none` is a null pointer where a block could be, and an
   access outside of the block where something is done to one. -/
namespace Mbuf

abbrev Byte := BitVec 8

structure Buffer where
  addr : Nat
  bytes : List Byte

end Mbuf

structure Mbuf where
  buf : Option Mbuf.Buffer
  len : Nat
  size : Nat

namespace Mbuf
open Overwrite

def bytesOf (buf : Option Buffer) : List Byte := (buf.map Buffer.bytes).getD []

def addrOf (buf : Option Buffer) : Nat := (buf.map Buffer.addr).getD 0

/-! ### The C library -/

/-- What the allocator answers: a null pointer, or a place and what was in it. -/
abbrev Answer := Option (Nat × (Nat → Byte))

def realloc (buf : Option Buffer) (size : Nat) (answer : Answer) : Option Buffer :=
  answer.map fun (addr, junk) =>
    ⟨addr, (List.range size).map fun i => (bytesOf buf).getD i (junk i)⟩

def memmove (buf : Option Buffer) (dst src count : Nat) : Option (Option Buffer) :=
  if count = 0 then some buf
  else
    match buf with
    | none => none
    | some block =>
      if dst + count ≤ block.bytes.length ∧ src + count ≤ block.bytes.length then
        some (some ⟨block.addr, moved block.bytes dst src count⟩)
      else none

def memcpy (buf : Option Buffer) (dst : Nat) (data : List Byte) : Option (Option Buffer) :=
  if data = [] then some buf
  else
    match buf with
    | none => none
    | some block =>
      if dst + data.length ≤ block.bytes.length then
        some (some ⟨block.addr, overwrite block.bytes dst data⟩)
      else none

/-- The data of an insertion; a null pointer only makes room. -/
inductive Source where
  | bytes (data : List Byte)
  | null (len : Nat)

def Source.len : Source → Nat
  | .bytes data => data.length
  | .null len => len

def Source.copyTo (src : Source) (buf : Option Buffer) (off : Nat) : Option (Option Buffer) :=
  match src with
  | .bytes data => memcpy buf off data
  | .null _ => some buf

/-! ### The operations -/

/-- `mbuf_resize`. With `new_size` 0 the old block is freed, whatever `realloc` returns. -/
def mbufResize (a : Mbuf) (newSize : Nat) (answer : Answer) : Mbuf :=
  if newSize > a.size ∨ (newSize < a.size ∧ newSize ≥ a.len) then
    let buf := realloc a.buf newSize answer
    if buf.isNone ∧ newSize ≠ 0 then a else ⟨buf, a.len, newSize⟩
  else a

def mbufInit (initialSize : Nat) (answer : Answer) : Mbuf :=
  mbufResize ⟨none, 0, 0⟩ initialSize answer

def mbufFree (mbuf : Mbuf) : Mbuf :=
  if mbuf.buf.isSome then mbufInit 0 none else mbuf

def mbufTrim (mbuf : Mbuf) (answer : Answer) : Mbuf := mbufResize mbuf mbuf.len answer

/-- `(size_t)(min_size * MBUF_SIZE_MULTIPLIER)`. A double has the product of every size up to 2^51; the
    cap on the headroom covers the sizes that it would round. -/
def scaled (minSize : Nat) : Nat := minSize * 3 / 2

def maxHeadroom : Nat := 1024

/-- `mbuf_insert`, with the answers of its two calls of `realloc`. -/
def mbufInsert (a : Mbuf) (off : Nat) (src : Source) (first second : Answer) :
    Option (Mbuf × Nat) :=
  let len := src.len
  if a.len > a.size ∨ off > a.len then some (a, 0)
  else if 2 ^ 64 - 1 - addrOf a.buf < len then some (a, 0)
  else if (a.len + len) % 2 ^ 64 ≤ a.size then do
    let buf ← memmove a.buf (off + len) off (a.len - off)
    let buf ← src.copyTo buf off
    return (⟨buf, a.len + len, a.size⟩, len)
  else
    let minSize := (a.len + len) % 2 ^ 64
    let newSize := scaled minSize
    let newSize := if newSize - minSize > maxHeadroom then (minSize + maxHeadroom) % 2 ^ 64 else newSize
    let p := realloc a.buf newSize first
    let retry := p.isNone ∧ newSize ≠ minSize
    let newSize := if retry then minSize else newSize
    let p := if retry then realloc a.buf newSize second else p
    match p with
    | some p => do
      let buf ← if off ≠ a.len then memmove (some p) (off + len) off (a.len - off) else some (some p)
      let buf ← src.copyTo buf off
      return (⟨buf, a.len + len, newSize⟩, len)
    | none => some (a, 0)

def mbufAppend (a : Mbuf) (src : Source) (first second : Answer) : Option (Mbuf × Nat) :=
  mbufInsert a a.len src first second

def mbufAppendAndFree (a : Mbuf) (data : Option Buffer) (len : Nat) (first second : Answer) :
    Option (Mbuf × Nat) :=
  if a.len = 0 then some (⟨data, len, len⟩, len)
  else
    match data with
    | some block => mbufInsert a a.len (.bytes (block.bytes.take len)) first second
    | none => mbufInsert a a.len (.null len) first second

def mbufRemove (mb : Mbuf) (n : Nat) : Option Mbuf :=
  if n > 0 ∧ n ≤ mb.len then do
    let buf ← memmove mb.buf 0 n (mb.len - n)
    return ⟨buf, mb.len - n, mb.size⟩
  else some mb

def mbufClear (mb : Mbuf) : Mbuf := { mb with len := 0 }

/-! ### Calls -/

abbrev Store := Nat → Option Mbuf

inductive Call where
  | init (i initialSize : Nat) (answer : Answer)
  | free (i : Nat)
  | insert (i off : Nat) (src : Source) (first second : Answer)
  | append (i : Nat) (src : Source) (first second : Answer)
  | appendAndFree (i : Nat) (data : Option Buffer) (len : Nat) (first second : Answer)
  | remove (i n : Nat)
  | resize (i newSize : Nat) (answer : Answer)
  | trim (i : Nat) (answer : Answer)
  | clear (i : Nat)
  | move (i j : Nat)

def change (store : Store) (i : Nat) (f : Mbuf → Option (Mbuf × Nat)) : Option (Store × Nat) := do
  let a ← store i
  let (a, ret) ← f a
  return (Function.update store i (some a), ret)

def Call.run (store : Store) : Call → Option (Store × Nat)
  | .init i initialSize answer =>
    some (Function.update store i (some (mbufInit initialSize answer)), 0)
  | .free i => change store i fun a => some (mbufFree a, 0)
  | .insert i off src first second => change store i fun a => mbufInsert a off src first second
  | .append i src first second => change store i fun a => mbufAppend a src first second
  | .appendAndFree i data len first second =>
    change store i fun a => mbufAppendAndFree a data len first second
  | .remove i n => change store i fun a => (mbufRemove a n).map fun a => (a, 0)
  | .resize i newSize answer => change store i fun a => some (mbufResize a newSize answer, 0)
  | .trim i answer => change store i fun a => some (mbufTrim a answer, 0)
  | .clear i => change store i fun a => some (mbufClear a, 0)
  | .move i j => do
    let source ← store i
    return (Function.update (Function.update store j (some source)) i (some ⟨none, 0, 0⟩), 0)

end Mbuf
