import CommonLib.Mbuf.Insert
import CommonLib.Doubles.Rounding

/- What `mbuf_insert` decides before it touches any byte, for every size that a `size_t` can have. -/
namespace Mbuf
open Doubles

/-- `min_size * MBUF_SIZE_MULTIPLIER` without its fraction: the size and the product are both rounded to
    a `double`. -/
def product (minSize : Nat) : Nat := nearest 53 (3 * nearest 53 minSize) / 2

/-- The conversion to a `size_t` of `w` bits, which C leaves undefined for a product out of range. -/
def toSizeT (w : Nat) (undefined : Nat → Nat) (minSize : Nat) : Nat :=
  if product minSize < 2 ^ w then product minSize else undefined minSize % 2 ^ w

def firstSize (w : Nat) (undefined : Nat → Nat) (minSize : Nat) : Nat :=
  let newSize := toSizeT w undefined minSize
  if (newSize + 2 ^ w - minSize) % 2 ^ w > maxHeadroom then (minSize + maxHeadroom) % 2 ^ w
  else newSize

inductive Plan where
  | refused
  | inPlace
  | grow (newSize minSize : Nat)
  deriving DecidableEq, Repr

def insertPlan (w : Nat) (undefined : Nat → Nat) (a : Mbuf) (off len : Nat) : Plan :=
  if a.len > a.size ∨ off > a.len then .refused
  else if 2 ^ w - 1 - addrOf a.buf < len then .refused
  else if (a.len + len) % 2 ^ w ≤ a.size then .inPlace
  else
    let minSize := (a.len + len) % 2 ^ w
    .grow (firstSize w undefined minSize) minSize

/-- What is asked of a plan: nothing wraps, data stays in place only where it fits, and no allocation is
    smaller than the data. -/
def Plan.Safe (w needed size : Nat) : Plan → Prop
  | .refused => True
  | .inPlace => needed < 2 ^ w ∧ needed ≤ size
  | .grow newSize minSize => needed < 2 ^ w ∧ needed ≤ newSize ∧ needed ≤ minSize

def InsertsSafely (w : Nat) (a : Mbuf) (off len : Nat) : Prop :=
  ∀ undefined, (insertPlan w undefined a off len).Safe w (a.len + len) a.size

structure InSpace (w : Nat) (a : Mbuf) : Prop where
  len_le : a.len ≤ a.size
  size_lt : a.size < 2 ^ w
  within : addrOf a.buf + a.size ≤ 2 ^ w

/-! ### The product -/

theorem nearest_most (n : Nat) : 7 * n ≤ 8 * nearest 53 n := by
  by_cases small : n < 2 ^ 53
  · rw [nearest_small small (by decide)]
    omega
  · have part := unit_le (Nat.le_of_not_lt small) (by decide)
    have close := nearest_ge 53 n
    omega

theorem product_ge (minSize : Nat) : 147 * minSize ≤ 128 * product minSize + 128 := by
  have first := nearest_most minSize
  have second := nearest_most (3 * nearest 53 minSize)
  unfold product
  omega

theorem product_small {minSize : Nat} (small : minSize < 2 ^ 51) :
    product minSize = scaled minSize := by
  have size : nearest 53 minSize = minSize := nearest_small (by omega) (by decide)
  rw [product, size, nearest_small (by omega) (by decide), scaled, Nat.mul_comm]

theorem product_outside {w minSize : Nat} (width : w = 32 ∨ w = 64)
    (large : 2 ^ w ≤ minSize + maxHeadroom) : 2 ^ w ≤ product minSize := by
  have most := product_ge minSize
  unfold maxHeadroom at large
  rcases width with rfl | rfl <;> omega

/-! ### The sizes asked for -/

theorem toSizeT_lt (w : Nat) (undefined : Nat → Nat) (minSize : Nat) :
    toSizeT w undefined minSize < 2 ^ w := by
  unfold toSizeT
  split
  · assumption
  · exact Nat.mod_lt _ (Nat.two_pow_pos w)

theorem firstSize_ge {w minSize : Nat} (undefined : Nat → Nat)
    (room : minSize + maxHeadroom < 2 ^ w) : minSize ≤ firstSize w undefined minSize := by
  have converted := toSizeT_lt w undefined minSize
  unfold firstSize
  dsimp only
  split
  · rw [Nat.mod_eq_of_lt room]
    omega
  · rename_i close
    apply Classical.byContradiction
    intro less
    rw [Nat.mod_eq_of_lt (by omega)] at close
    omega

theorem firstSize_zero {w minSize : Nat} (width : w = 32 ∨ w = 64) (some_ : 0 < minSize)
    (size : minSize < 2 ^ w) (full : 2 ^ w ≤ minSize + maxHeadroom) :
    firstSize w (fun _ => 0) minSize = 0 := by
  have outside := product_outside width full
  have nothing : toSizeT w (fun _ => 0) minSize = 0 := by
    rw [toSizeT, if_neg (by omega), Nat.zero_mod]
  rw [firstSize, nothing, if_neg]
  rw [Nat.zero_add, Nat.mod_eq_of_lt (by omega)]
  omega

theorem firstSize_grown {minSize : Nat} (undefined : Nat → Nat)
    (room : minSize + maxHeadroom < 2 ^ 64) (inside : product minSize < 2 ^ 64) :
    firstSize 64 undefined minSize = grown minSize := by
  have most := product_ge minSize
  have large : minSize ≤ product minSize ∨ minSize < 2 ^ 51 := by omega
  have above : minSize ≤ product minSize := by
    rcases large with large | small
    · exact large
    · rw [product_small small, scaled]
      omega
  have difference : (product minSize + 2 ^ 64 - minSize) % 2 ^ 64 = product minSize - minSize := by
    omega
  rw [firstSize, toSizeT, if_pos inside, difference, Nat.mod_eq_of_lt room, grown]
  by_cases small : minSize < 2 ^ 51
  · rw [product_small small]
  · unfold maxHeadroom scaled
    rw [if_pos (by omega), if_pos (by omega)]

/-! ### The plan and the insertion -/

def Plan.carryOut (a : Mbuf) (off : Nat) (src : Source) (first second : Answer) :
    Plan → Option (Mbuf × Nat)
  | .refused => some (a, 0)
  | .inPlace => do
    let buf ← memmove a.buf (off + src.len) off (a.len - off)
    let buf ← src.copyTo buf off
    return (⟨buf, a.len + src.len, a.size⟩, src.len)
  | .grow newSize minSize =>
    let p := realloc a.buf newSize first
    let retry := p.isNone ∧ newSize ≠ minSize
    let newSize := if retry then minSize else newSize
    let p := if retry then realloc a.buf newSize second else p
    match p with
    | some p => do
      let buf ←
        if off ≠ a.len then memmove (some p) (off + src.len) off (a.len - off) else some (some p)
      let buf ← src.copyTo buf off
      return (⟨buf, a.len + src.len, newSize⟩, src.len)
    | none => some (a, 0)

theorem insert_carriesOut {a : Mbuf} (off : Nat) (src : Source) (first second : Answer)
    (undefined : Nat → Nat) (noWrap : NoWrap a src.len)
    (inside : product (a.len + src.len) < 2 ^ 64) :
    mbufInsert a off src first second =
      (insertPlan 64 undefined a off src.len).carryOut a off src first second := by
  obtain ⟨_, _, room⟩ := noWrap
  have sum : (a.len + src.len) % 2 ^ 64 = a.len + src.len :=
    Nat.mod_eq_of_lt (by unfold maxHeadroom at room; omega)
  have asked := firstSize_grown undefined room inside
  unfold mbufInsert insertPlan
  dsimp only
  rw [sum, asked, Nat.mod_eq_of_lt room]
  split
  · rfl
  · split
    · rfl
    · split
      · rfl
      · rfl

/-! ### The overflow check -/

section Check
variable {w : Nat} (width : w = 32 ∨ w = 64) {a : Mbuf} (space : InSpace w a)
include width space

omit width in
theorem insertPlan_eq {off : Nat} (inside : off ≤ a.len) (len : Nat) (undefined : Nat → Nat) :
    insertPlan w undefined a off len =
      if 2 ^ w - 1 - addrOf a.buf < len then .refused
      else if (a.len + len) % 2 ^ w ≤ a.size then .inPlace
      else .grow (firstSize w undefined ((a.len + len) % 2 ^ w)) ((a.len + len) % 2 ^ w) := by
  have len_le := space.len_le
  exact if_neg (by omega)

/-- A request is handled safely if and only if the check refuses it, or the data fits into the
    buffer, or there is room for the data and the headroom. -/
theorem insert_safe {off : Nat} (inside : off ≤ a.len) (len : Nat) :
    InsertsSafely w a off len ↔
      2 ^ w - 1 - addrOf a.buf < len ∨ a.len + len ≤ a.size ∨
        a.len + len + maxHeadroom < 2 ^ w := by
  have size_lt := space.size_lt
  simp only [InsertsSafely, insertPlan_eq space inside len]
  by_cases refused : 2 ^ w - 1 - addrOf a.buf < len
  · simp [refused, Plan.Safe]
  simp only [refused, if_false, false_or]
  by_cases fits : a.len + len ≤ a.size
  · have small : a.len + len < 2 ^ w := Nat.lt_of_le_of_lt fits size_lt
    simp [Nat.mod_eq_of_lt small, fits, small, Plan.Safe]
  by_cases wraps : 2 ^ w ≤ a.len + len
  · -- no plan is safe then
    constructor
    · intro safe
      have one := safe id
      split at one
      · exact absurd one.1 (by omega)
      · exact absurd one.1 (by omega)
    · intro impossible
      omega
  · simp only [Nat.mod_eq_of_lt (Nat.lt_of_not_le wraps), fits, if_false, false_or]
    by_cases room : a.len + len + maxHeadroom < 2 ^ w
    · constructor
      · intro _
        exact room
      · intro _ undefined
        exact ⟨by omega, firstSize_ge undefined room, Nat.le_refl _⟩
    · constructor
      · intro safe
        have enough := (safe fun _ => 0).2.1
        rw [firstSize_zero width (by omega) (by omega) (by omega)] at enough
        omega
      · intro impossible
        exact absurd impossible room

/-- The check is enough for every request if and only if the buffer lies far enough up, or what is
    left of the address space is within the buffer. -/
theorem inserts_safe :
    (∀ off ≤ a.len, ∀ len, InsertsSafely w a off len) ↔
      a.len + maxHeadroom ≤ addrOf a.buf ∨ a.len + (2 ^ w - 1 - addrOf a.buf) ≤ a.size := by
  have len_le := space.len_le
  have within := space.within
  have size_lt := space.size_lt
  constructor
  · intro safe
    have last := safe 0 (Nat.zero_le _) (2 ^ w - 1 - addrOf a.buf)
    rw [insert_safe width space (Nat.zero_le _)] at last
    omega
  · rintro far off inside len
    rw [insert_safe width space inside]
    omega

end Check

/-- For every buffer and request, and for every buffer with all its requests: when the overflow check of
    `mbuf_insert` is enough. -/
theorem overflow_check_iff {w : Nat} (width : w = 32 ∨ w = 64) (a : Mbuf) (space : InSpace w a) :
    (∀ off ≤ a.len, ∀ len, InsertsSafely w a off len ↔
      2 ^ w - 1 - addrOf a.buf < len ∨ a.len + len ≤ a.size ∨
        a.len + len + maxHeadroom < 2 ^ w) ∧
    ((∀ off ≤ a.len, ∀ len, InsertsSafely w a off len) ↔
      a.len + maxHeadroom ≤ addrOf a.buf ∨ a.len + (2 ^ w - 1 - addrOf a.buf) ≤ a.size) := by
  constructor
  · intro off inside len
    exact insert_safe width space inside len
  · exact inserts_safe width space

def lowBuffer : Mbuf := ⟨some ⟨0x8000000, [1, 2, 3, 0]⟩, 3, 4⟩

theorem overflow_check_sample : InsertsSafely 32 lowBuffer 1 0x20000000 ∧
    ∀ off ≤ 3, ∀ len, InsertsSafely 32 lowBuffer off len := by
  obtain ⟨one, all⟩ :=
    overflow_check_iff (Or.inl rfl) lowBuffer ⟨by decide, by decide, by decide⟩
  exact ⟨(one 1 (by decide) _).mpr (by decide), all.mpr (by decide)⟩

/-- A full buffer of 2^28 bytes at 2^27. The sum wraps for a length that passes the check. -/
def fullBuffer (bytes : List Byte) : Mbuf := ⟨some ⟨0x8000000, bytes⟩, 0x10000000, 0x10000000⟩

theorem fullBuffer_wraps (bytes : List Byte) :
    InSpace 32 (fullBuffer bytes) ∧ ¬ InsertsSafely 32 (fullBuffer bytes) 0 0xf0000000 := by
  have address : addrOf (fullBuffer bytes).buf = 0x8000000 := rfl
  have size : (fullBuffer bytes).size = 0x10000000 := rfl
  have length : (fullBuffer bytes).len = 0x10000000 := rfl
  have space : InSpace 32 (fullBuffer bytes) := by
    constructor
    · omega
    · omega
    · omega
  refine ⟨space, ?_⟩
  rw [insert_safe (Or.inl rfl) space (Nat.zero_le _) 0xf0000000, address, size, length]
  unfold maxHeadroom
  omega

theorem exists_block (size : Nat) : ∃ bytes : List Byte, bytes.length = size :=
  ⟨List.replicate size 0, List.length_replicate⟩

theorem overflow_check_passed : ∃ a : Mbuf, InSpace 32 a ∧ (bytesOf a.buf).length = a.size ∧
    ¬ InsertsSafely 32 a 0 0xf0000000 := by
  obtain ⟨bytes, length⟩ := exists_block 0x10000000
  obtain ⟨space, wraps⟩ := fullBuffer_wraps bytes
  exact ⟨fullBuffer bytes, space, length, wraps⟩

end Mbuf
