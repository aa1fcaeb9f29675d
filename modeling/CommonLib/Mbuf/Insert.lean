import CommonLib.Mbuf.Contents

/- `mbuf_insert`: in place, or in a block that has grown. -/
namespace Mbuf
open Overwrite

def grown (minSize : Nat) : Nat :=
  if scaled minSize - minSize > maxHeadroom then minSize + maxHeadroom else scaled minSize

theorem grown_ge (minSize : Nat) : minSize ≤ grown minSize := by
  unfold grown scaled maxHeadroom
  split <;> omega

theorem grown_eq_iff {minSize : Nat} (some_ : 0 < minSize) :
    grown minSize = minSize ↔ minSize = 1 := by
  unfold grown scaled maxHeadroom
  split <;> omega

def Denied (a : Mbuf) (len : Nat) (first second : Answer) : Prop :=
  a.size < a.len + len ∧ first = none ∧ (second = none ∨ a.len + len = 1)

def Inserted (old : List Byte) (off : Nat) (src : Source) (denied : Prop) (new : List Byte)
    (ret : Nat) : Prop :=
  (off ≤ old.length ∧ ret = src.len ∧
    ∃ data, src.Gives data ∧ new = old.take off ++ data ++ old.drop off) ∨
    (ret = 0 ∧ new = old ∧ (old.length < off ∨ denied))

section Insert
variable {a : Mbuf} {off : Nat} {src : Source}

theorem filled_inserted {block : Buffer} {size : Nat} (denied : Prop) (sound : Sound a)
    (inside : off ≤ a.len)
    (old : block.bytes.take a.len = contents a) (small : a.len + src.len ≤ size)
    (room : size ≤ block.bytes.length) :
    ∃ a', (do
        let buf ← memmove (some block) (off + src.len) off (a.len - off)
        let buf ← src.copyTo buf off
        return ((⟨buf, a.len + src.len, size⟩ : Mbuf), src.len)) = some (a', src.len) ∧
      Sound a' ∧ Inserted (contents a) off src denied (contents a') src.len := by
  obtain ⟨data, buf, gives, run, same, new⟩ := fill_contents size src inside
    (Nat.le_trans small room)
  have before : block.bytes.take off = (contents a).take off := by
    rw [← old, List.take_take, Nat.min_eq_left inside]
  refine ⟨⟨some buf, a.len + src.len, size⟩, run, ⟨small, ?_⟩, Or.inl ⟨?_, rfl, data, gives, ?_⟩⟩
  · exact Nat.le_trans room (Nat.le_of_eq same.symm)
  · rw [sound.contents_length]
    exact inside
  · rw [before, old] at new
    exact new

theorem empty_inserted (denied : Prop) (sound : Sound a) (null : a.buf = none)
    (small : a.len + src.len ≤ a.size) (inside : off ≤ a.len) :
    ∃ a', (do
        let buf ← memmove a.buf (off + src.len) off (a.len - off)
        let buf ← src.copyTo buf off
        return ((⟨buf, a.len + src.len, a.size⟩ : Mbuf), src.len)) = some (a', src.len) ∧
      Sound a' ∧ Inserted (contents a) off src denied (contents a') src.len := by
  obtain ⟨buf, len, size⟩ := a
  have block := sound.size_le
  simp only at null small inside
  subst null
  have zero : size = 0 := by simpa [bytesOf] using block
  have none_ : src.len = 0 := by omega
  have copying : src.copyTo none off = some none := by
    cases src with
    | bytes data =>
      have nothing : data = [] := List.eq_nil_of_length_eq_zero none_
      simp [Source.copyTo, memcpy, nothing]
    | null count => rfl
  have gives : src.Gives [] := by
    cases src with
    | bytes data => exact (List.eq_nil_of_length_eq_zero none_).symm
    | null count => exact none_.symm
  have moving : memmove none (off + src.len) off (len - off) = some none := if_pos (by omega)
  refine ⟨⟨none, len + src.len, size⟩, ?_, ⟨small, block⟩, Or.inl ⟨?_, rfl, [], gives, ?_⟩⟩
  · simp only [moving, copying, Option.bind_eq_bind, Option.bind_some]
    rfl
  · simp only [contents, bytesOf]
    simp
    omega
  · simp [contents, bytesOf]

theorem grown_inserted (p : Option Buffer) (size : Nat) {denied : Prop} (sound : Sound a)
    (inside : off ≤ a.len)
    (large : a.len + src.len ≤ size)
    (kept : ∀ block, p = some block → block.bytes.length = size ∧
    block.bytes.take a.len = contents a)
    (failed : p = none → denied) :
    ∃ a' ret,
      (match p with
        | some p => do
          let buf ← if off ≠ a.len then memmove (some p) (off + src.len) off (a.len - off) else some (some p)
          let buf ← src.copyTo buf off
          return ((⟨buf, a.len + src.len, size⟩ : Mbuf), src.len)
        | none => some (a, 0)) = some (a', ret) ∧
      Sound a' ∧ Inserted (contents a) off src denied (contents a') ret := by
  cases p with
  | none => exact ⟨a, 0, rfl, sound, Or.inr ⟨rfl, rfl, Or.inr (failed rfl)⟩⟩
  | some block =>
    obtain ⟨length, old⟩ := kept block rfl
    obtain ⟨a', run, after, spliced⟩ :=
      filled_inserted denied sound inside old large (Nat.le_of_eq length.symm)
    refine ⟨a', src.len, ?_, after, spliced⟩
    dsimp only
    split
    · exact run
    · -- at the end of the buffer nothing has to be moved
      rename_i last
      have still : memmove (some block) (off + src.len) off (a.len - off) = some (some block) :=
        if_pos (by omega)
      rw [still] at run
      exact run

theorem realloc_keeps {size : Nat} {answer : Answer} (sound : Sound a) (large : a.len ≤ size) :
    ∀ block, realloc a.buf size answer = some block →
      block.bytes.length = size ∧ block.bytes.take a.len = contents a := by
  intro block given
  have inside := sound.len_le
  have held := sound.size_le
  obtain ⟨length, same⟩ := realloc_bytes given
  exact ⟨length, same a.len large (by omega)⟩

/-- `mbuf_insert` splices the data in, or returns 0 and leaves everything as it was. -/
theorem insert_contents (sound : Sound a) (off : Nat) (src : Source) (first second : Answer)
    (noWrap : NoWrap a src.len) :
    ∃ a' ret, mbufInsert a off src first second = some (a', ret) ∧ Sound a' ∧
      Inserted (contents a) off src (Denied a src.len first second) (contents a') ret := by
  obtain ⟨address, product, headroom⟩ := noWrap
  have len_le := sound.len_le
  have size_le := sound.size_le
  unfold maxHeadroom at headroom
  have noOverflow : ¬ 2 ^ 64 - 1 - addrOf a.buf < src.len := by omega
  have sum : (a.len + src.len) % 2 ^ 64 = a.len + src.len := Nat.mod_eq_of_lt (by omega)
  have capped : (a.len + src.len + maxHeadroom) % 2 ^ 64 = a.len + src.len + maxHeadroom :=
    Nat.mod_eq_of_lt (by unfold maxHeadroom; omega)
  unfold mbufInsert
  dsimp only
  by_cases outside : off > a.len
  · -- the offset is refused
    refine ⟨a, 0, if_pos (Or.inr outside), sound, Or.inr ⟨rfl, rfl, Or.inl ?_⟩⟩
    rw [sound.contents_length]
    exact outside
  have inside : off ≤ a.len := Nat.le_of_not_lt outside
  rw [if_neg (by omega : ¬ (a.len > a.size ∨ off > a.len)), if_neg noOverflow, sum, capped]
  by_cases fits : a.len + src.len ≤ a.size
  · -- in place
    rw [if_pos fits]
    cases block : a.buf with
    | none =>
      rw [← block]
      obtain ⟨a', run, after, spliced⟩ :=
        empty_inserted (Denied a src.len first second) sound block fits inside
      exact ⟨a', src.len, run, after, spliced⟩
    | some buffer =>
      have old : buffer.bytes.take a.len = contents a := by simp [contents, bytesOf, block]
      have room : a.size ≤ buffer.bytes.length := by simpa [bytesOf, block] using size_le
      obtain ⟨a', run, after, spliced⟩ :=
        filled_inserted (Denied a src.len first second) sound inside old fits room
      exact ⟨a', src.len, run, after, spliced⟩
  · -- the block grows, or both attempts fail
    rw [if_neg fits]
    have asks : (if scaled (a.len + src.len) - (a.len + src.len) > maxHeadroom then
        a.len + src.len + maxHeadroom else scaled (a.len + src.len)) =
          grown (a.len + src.len) := rfl
    have large := grown_ge (a.len + src.len)
    have single := grown_eq_iff (show 0 < a.len + src.len by omega)
    simp only [asks]
    cases given : realloc a.buf (grown (a.len + src.len)) first with
    | some block =>
      simp only [Option.isNone_some, Bool.false_eq_true, false_and, if_false]
      exact grown_inserted (some block) _ sound inside large
        (fun other same => realloc_keeps sound (by omega) other (by rw [given, same])) (by simp)
    | none =>
      have refused : first = none := realloc_none.mp given
      by_cases retry : grown (a.len + src.len) = a.len + src.len
      · simp only [Option.isNone_none, retry, ne_eq, not_true_eq_false, and_false, if_false]
        exact grown_inserted none _ sound inside (Nat.le_refl _) (by simp)
          fun _ => ⟨by omega, refused, Or.inr (single.mp retry)⟩
      · simp only [Option.isNone_none, retry, ne_eq, not_false_eq_true, and_true, if_true]
        exact grown_inserted (realloc a.buf (a.len + src.len) second) _ sound inside (Nat.le_refl _)
          (realloc_keeps sound (by omega))
          fun last => ⟨by omega, refused, Or.inl (realloc_none.mp last)⟩

end Insert
end Mbuf
