import CommonLib.Mbuf.Operations

/- What each operation does to the bytes that a buffer holds. -/
namespace Mbuf
open Overwrite

structure Sound (a : Mbuf) : Prop where
  len_le : a.len ≤ a.size
  size_le : a.size ≤ (bytesOf a.buf).length

def contents (a : Mbuf) : List Byte := (bytesOf a.buf).take a.len

theorem Sound.contents_length {a : Mbuf} (sound : Sound a) : (contents a).length = a.len := by
  have inside := sound.len_le
  have block := sound.size_le
  simp only [contents, List.length_take]
  omega

/-! ### The C library -/

theorem realloc_bytes {buf : Option Buffer} {size : Nat} {answer : Answer} {block : Buffer}
    (given : realloc buf size answer = some block) :
    block.bytes.length = size ∧
      ∀ count, count ≤ size → count ≤ (bytesOf buf).length →
        block.bytes.take count = (bytesOf buf).take count := by
  unfold realloc at given
  cases answer with
  | none => cases given
  | some found =>
    obtain ⟨addr, junk⟩ := found
    cases given
    constructor
    · simp
    · intro count small inside
      apply List.ext_getElem
      · simp
        omega
      · intro i low high
        have below : i < (bytesOf buf).length := by simp at high; omega
        simp [below]

theorem realloc_none {buf : Option Buffer} {size : Nat} {answer : Answer} :
    realloc buf size answer = none ↔ answer = none := by
  simp [realloc]

theorem memmove_bytes {block : Buffer} {dst src count : Nat}
    (target : dst + count ≤ block.bytes.length) (source : src + count ≤ block.bytes.length) :
    memmove (some block) dst src count =
        some (some ⟨block.addr, moved block.bytes dst src count⟩) := by
  unfold memmove
  by_cases nothing : count = 0
  · subst nothing
    simp [moved, overwrite]
  · rw [if_neg nothing]
    exact if_pos ⟨target, source⟩

theorem memcpy_bytes {block : Buffer} {dst : Nat} {data : List Byte}
    (target : dst + data.length ≤ block.bytes.length) :
    memcpy (some block) dst data = some (some ⟨block.addr, overwrite block.bytes dst data⟩) := by
  unfold memcpy
  by_cases nothing : data = []
  · subst nothing
    simp [overwrite]
  · rw [if_neg nothing]
    exact if_pos target

def Source.Gives (src : Source) (data : List Byte) : Prop :=
  match src with
  | .bytes brought => data = brought
  | .null count => data.length = count

theorem Source.Gives.length {src : Source} {data : List Byte} (gives : src.Gives data) :
    data.length = src.len := by
  cases src with
  | bytes brought =>
    have same : data = brought := gives
    rw [same]
    rfl
  | null count => exact gives

theorem copyTo_bytes (src : Source) {block : Buffer} {off : Nat}
    (room : off + src.len ≤ block.bytes.length) :
    ∃ data, src.Gives data ∧ data.length = src.len ∧
      src.copyTo (some block) off = some (some ⟨block.addr, overwrite block.bytes off data⟩) := by
  cases src with
  | bytes data => exact ⟨data, rfl, rfl, memcpy_bytes room⟩
  | null len =>
    have room' : off + len ≤ block.bytes.length := room
    have gap : ((block.bytes.drop off).take len).length = len := by simp; omega
    refine ⟨(block.bytes.drop off).take len, gap, gap, ?_⟩
    have same : overwrite block.bytes off ((block.bytes.drop off).take len) = block.bytes := by
      unfold overwrite
      rw [gap, List.append_assoc, ← List.drop_drop, List.take_append_drop, List.take_append_drop]
    rw [same]
    rfl

/-! ### The operations -/

theorem resize_contents {a : Mbuf} (sound : Sound a) (newSize : Nat) (answer : Answer) :
    Sound (mbufResize a newSize answer) ∧ contents (mbufResize a newSize answer) = contents a := by
  unfold mbufResize
  split
  · rename_i changes
    dsimp only
    split
    · exact ⟨sound, rfl⟩
    · rename_i served
      have inside := sound.len_le
      have block := sound.size_le
      have keeps : a.len ≤ newSize := by omega
      cases given : realloc a.buf newSize answer with
      | none =>
        have zero : newSize = 0 := by simpa [given] using served
        have empty : a.len = 0 := by omega
        refine ⟨⟨keeps, by simp [zero]⟩, ?_⟩
        simp [contents, empty]
      | some buf =>
        obtain ⟨size, same⟩ := realloc_bytes given
        exact ⟨⟨keeps, Nat.le_of_eq size.symm⟩, same a.len keeps (by omega)⟩
  · exact ⟨sound, rfl⟩

theorem init_contents (initialSize : Nat) (answer : Answer) :
    Sound (mbufInit initialSize answer) ∧ contents (mbufInit initialSize answer) = [] := by
  have empty : Sound ⟨none, 0, 0⟩ := ⟨Nat.le_refl 0, Nat.zero_le _⟩
  exact resize_contents empty initialSize answer

theorem free_contents {a : Mbuf} (sound : Sound a) :
    Sound (mbufFree a) ∧ contents (mbufFree a) = [] := by
  unfold mbufFree
  split
  · exact init_contents 0 none
  · rename_i null
    obtain ⟨buf, len, size⟩ := a
    have missing : buf = none := by simpa using null
    subst missing
    exact ⟨sound, by simp [contents, bytesOf]⟩

theorem remove_contents {a : Mbuf} (sound : Sound a) (n : Nat) :
    ∃ a', mbufRemove a n = some a' ∧ Sound a' ∧
      contents a' = if n ≤ (contents a).length then (contents a).drop n else contents a := by
  rw [sound.contents_length]
  have inside := sound.len_le
  have block := sound.size_le
  unfold mbufRemove
  by_cases taken : n > 0 ∧ n ≤ a.len
  · rw [if_pos taken, if_pos taken.2]
    obtain ⟨buf, len, size⟩ := a
    cases buf with
    | none =>
      have empty : size = 0 := by simpa [bytesOf] using block
      simp only at inside taken
      omega
    | some buffer =>
      have small : len ≤ buffer.bytes.length := Nat.le_trans inside block
      simp only at taken inside block
      have run : memmove (some buffer) 0 n (len - n) =
          some (some ⟨buffer.addr, moved buffer.bytes 0 n (len - n)⟩) :=
        memmove_bytes (by omega) (by omega)
      have tail : ((buffer.bytes.drop n).take (len - n)).length = len - n := by simp; omega
      have same : (moved buffer.bytes 0 n (len - n)).length = buffer.bytes.length :=
        overwrite_length (by omega)
      refine ⟨_, by simp only [run, Option.bind_eq_bind, Option.bind_some]; rfl, ⟨?_, ?_⟩, ?_⟩
      · exact Nat.le_trans (Nat.sub_le _ _) inside
      · exact Nat.le_trans block (Nat.le_of_eq same.symm)
      · exact moved_front small
  · rw [if_neg taken]
    refine ⟨a, rfl, sound, ?_⟩
    split
    · have zero : n = 0 := by omega
      rw [zero, List.drop_zero]
    · rfl

theorem clear_contents {a : Mbuf} (sound : Sound a) : Sound (mbufClear a) ∧
    contents (mbufClear a) = [] :=
  ⟨⟨Nat.zero_le _, sound.size_le⟩, List.take_zero⟩

/-! ### The insertion -/

/-- No sum of the insertion wraps, nor does the address behind its data. -/
def NoWrap (a : Mbuf) (len : Nat) : Prop :=
  addrOf a.buf + len < 2 ^ 64 ∧ scaled (a.len + len) < 2 ^ 64 ∧ a.len + len + maxHeadroom < 2 ^ 64

theorem fill_contents {block : Buffer} {off len : Nat} (size : Nat) (src : Source)
    (inside : off ≤ len)
    (room : len + src.len ≤ block.bytes.length) :
    ∃ data buf, src.Gives data ∧
      (do
        let buf ← memmove (some block) (off + src.len) off (len - off)
        let buf ← src.copyTo buf off
        return ((⟨buf, len + src.len, size⟩ : Mbuf), src.len)) =
        some (⟨some buf, len + src.len, size⟩, src.len) ∧
      buf.bytes.length = block.bytes.length ∧
      buf.bytes.take (len + src.len) = block.bytes.take off ++ data ++
          (block.bytes.take len).drop off := by
  have tail : ((block.bytes.drop off).take (len - off)).length = len - off := by simp; omega
  have same : (moved block.bytes (off + src.len) off (len - off)).length = block.bytes.length :=
    overwrite_length (by omega)
  have moving : memmove (some block) (off + src.len) off (len - off) =
      some (some ⟨block.addr, moved block.bytes (off + src.len) off (len - off)⟩) :=
    memmove_bytes (by omega) (by omega)
  obtain ⟨data, gives, size', copying⟩ := copyTo_bytes src
    (show off + src.len ≤ (Buffer.mk block.addr
        (moved block.bytes (off + src.len) off (len - off))).bytes.length by
      simp only [same]
      omega)
  refine ⟨data, _, gives,
    by simp only [moving, copying, Option.bind_eq_bind, Option.bind_some]; rfl, ?_, ?_⟩
  · simp only
    rw [overwrite_length (by omega), same]
  · simp only [← size']
    exact splice inside (by omega)

end Mbuf
