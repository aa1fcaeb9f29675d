import Mathlib.Data.List.Basic

/- Bytes stored over a part of a buffer, and the two copies that open a gap in it and fill it. -/
namespace Overwrite

variable {Item : Type*}

def overwrite (buffer : List Item) (place : Nat) (items : List Item) : List Item :=
  buffer.take place ++ items ++ buffer.drop (place + items.length)

theorem overwrite_length {buffer items : List Item} {place : Nat}
    (room : place + items.length ≤ buffer.length) :
        (overwrite buffer place items).length = buffer.length := by
  simp [overwrite]
  omega

theorem overwrite_getElem? {buffer items : List Item} {place : Nat}
    (room : place + items.length ≤ buffer.length) (i : Nat) :
    (overwrite buffer place items)[i]? =
      if i < place then buffer[i]?
      else if i < place + items.length then items[i - place]? else buffer[i]? := by
  have first : (buffer.take place).length = place := by simp; omega
  unfold overwrite
  rw [List.append_assoc]
  split
  · rename_i before
    rw [List.getElem?_append_left (by omega), List.getElem?_take_of_lt before]
  · rename_i behind
    rw [List.getElem?_append_right (by omega), first]
    split
    · rename_i inside
      rw [List.getElem?_append_left (by omega)]
    · rename_i outside
      rw [List.getElem?_append_right (by omega), List.getElem?_drop]
      congr 1
      omega

def moved (buffer : List Item) (dst src count : Nat) : List Item :=
  overwrite buffer dst ((buffer.drop src).take count)

theorem splice {buffer items : List Item} {off len : Nat} (inside : off ≤ len)
    (room : len + items.length ≤ buffer.length) :
    (overwrite (moved buffer (off + items.length) off (len - off)) off items).take
    (len + items.length) =
      buffer.take off ++ items ++ (buffer.take len).drop off := by
  have tail : ((buffer.drop off).take (len - off)).length = len - off := by simp; omega
  have fits : off + items.length + ((buffer.drop off).take (len - off)).length ≤
    buffer.length := by omega
  have same : (moved buffer (off + items.length) off (len - off)).length = buffer.length :=
    overwrite_length fits
  apply List.ext_getElem?
  intro i
  by_cases beyond : i < len + items.length
  · rw [List.getElem?_take_of_lt beyond, overwrite_getElem? (by omega)]
    have first : (buffer.take off).length = off := by simp; omega
    by_cases before : i < off
    · rw [if_pos before, moved, overwrite_getElem? fits, if_pos (by omega), List.append_assoc,
        List.getElem?_append_left (by omega), List.getElem?_take_of_lt before]
    · rw [if_neg before, List.append_assoc, List.getElem?_append_right (by omega), first]
      by_cases new : i < off + items.length
      · rw [if_pos new, List.getElem?_append_left (by omega)]
      · rw [if_neg new, List.getElem?_append_right
          (by omega), moved, overwrite_getElem? fits, if_neg new,
          if_pos (by omega), List.getElem?_take_of_lt (by omega), List.getElem?_drop, List.getElem?_drop,
          List.getElem?_take_of_lt (by omega)]
        congr 1
        omega
  · rw [List.getElem?_eq_none (by simp; omega), List.getElem?_eq_none (by simp; omega)]

theorem moved_front {buffer : List Item} {src len : Nat} (room : len ≤ buffer.length) :
    (moved buffer 0 src (len - src)).take (len - src) = (buffer.take len).drop src := by
  have tail : ((buffer.drop src).take (len - src)).length = len - src := by simp; omega
  unfold moved overwrite
  rw [List.take_zero, List.nil_append, List.take_append_of_le_length (by omega),
    List.take_of_length_le (by omega), List.drop_take]

end Overwrite
