import Mathlib.Data.Nat.ModEq

/- A queue in the slots of a ring. `slots` is any array, as a partial function of the index. -/
namespace Ring

variable {Item : Type*}

def Holds (slots : Nat → Option Item) (size start : Nat) (items : List Item) : Prop :=
  ∀ i (inside : i < items.length), slots ((start + i) % size) = some items[i]

theorem holds_nil (slots : Nat → Option Item) (size start : Nat) : Holds slots size start [] := by
  intro i inside
  simp at inside

theorem slots_differ {size start i j : Nat} (before : i < j) (round : j < size) :
    (start + i) % size ≠ (start + j) % size := by
  intro same
  have close : Nat.ModEq size i j := Nat.ModEq.add_left_cancel' start same
  have equal : i = j := Nat.ModEq.eq_of_lt_of_lt close (by omega) round
  omega

variable {slots slots' : Nat → Option Item} {size start : Nat} {items : List Item} {item : Item}

theorem Holds.push (held : Holds slots size start items) (room : items.length < size)
    (stored : slots' ((start + items.length) % size) = some item)
    (others : ∀ j, j ≠ (start + items.length) % size → slots' j = slots j) :
    Holds slots' size start (items ++ [item]) := by
  intro i inside
  rw [List.length_append, List.length_singleton] at inside
  by_cases last : i = items.length
  · subst last
    rw [stored]
    simp
  · have old : i < items.length := by omega
    rw [others _ (slots_differ old room), held i old, List.getElem_append_left old]

theorem Holds.pop (held : Holds slots size start (item :: items)) :
    Holds slots size ((start + 1) % size) items := by
  intro i inside
  have next : ((start + 1) % size + i) % size = (start + (i + 1)) % size := by
    rw [Nat.mod_add_mod]
    congr 1
    omega
  rw [next, held (i + 1) (by simpa using inside), List.getElem_cons_succ]

theorem Holds.oldest (held : Holds slots size start (item :: items)) (inside : start < size) :
    slots start = some item := by
  have first := held 0 (by simp)
  rw [Nat.add_zero, Nat.mod_eq_of_lt inside] at first
  exact first

theorem Holds.newest (held : Holds slots size start (items ++ [item])) :
    slots ((start + items.length) % size) = some item := by
  have last := held items.length (by simp)
  rw [last]
  simp

end Ring
