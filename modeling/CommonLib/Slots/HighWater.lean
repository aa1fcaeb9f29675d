import Mathlib.Logic.Function.Basic
import Mathlib.Data.List.Basic

/- Tables whose slots are taken first-fit, with a mark above every slot in use. The mark is
   lowered only when the slot right below it is freed. -/
namespace Slots
variable {live p : Nat → Bool} {mark n i : Nat}

def Above (live : Nat → Bool) (mark : Nat) : Prop := ∀ i, live i = true → i < mark

theorem Above.fill (above : Above live mark) (i : Nat) (x : Bool) :
    Above (Function.update live i x) (if i ≥ mark then i + 1 else mark) := by
  intro j used
  by_cases here : j = i
  · split
    · omega
    · omega
  · rw [Function.update_of_ne here] at used
    have old := above j used
    split
    · omega
    · exact old

theorem Above.free (above : Above live mark) (i : Nat) :
    Above (Function.update live i false) (if i + 1 = mark then mark - 1 else mark) := by
  intro j used
  by_cases here : j = i
  · rw [here, Function.update_self] at used
    exact nomatch used
  · rw [Function.update_of_ne here] at used
    have old := above j used
    split
    · omega
    · exact old

theorem Above.find (above : Above live mark) (used : live i = true) (wanted : p i = true) :
    ∃ j, (List.range mark).find? p = some j := by
  rw [← Option.isSome_iff_exists, List.find?_isSome]
  exact ⟨i, List.mem_range.mpr (above i used), wanted⟩

/-! ### Sweeps -/

section Sweeps
variable {α : Type} (alive : α → Bool) (f : α → α)

def turn (s : (Nat → α) × Nat) (i : Nat) : (Nat → α) × Nat :=
  if i < s.2 then
    (Function.update s.1 i (f (s.1 i)),
      if alive (s.1 i) ∧ ¬ alive (f (s.1 i)) ∧ i + 1 = s.2 then s.2 - 1 else s.2)
  else s

/-- The loop visits every slot below the mark it began with, and frees at most the last one's
    place of the mark. -/
theorem sweep (table : Nat → α) (short : n ≤ mark) :
    (∀ i, ((List.range n).foldl (turn alive f) (table, mark)).1 i = if i < n then f (table i) else table i) ∧
      (((List.range n).foldl (turn alive f) (table, mark)).2 = mark ∨
        n = mark ∧ ((List.range n).foldl (turn alive f) (table, mark)).2 + 1 = mark ∧
          alive (f (table (mark - 1))) = false) := by
  induction n with
  | zero => simp
  | succ n ih =>
    obtain ⟨slots, marks⟩ := ih (by omega)
    rw [List.range_succ, List.foldl_append]
    generalize (List.range n).foldl (turn alive f) (table, mark) = s at slots marks
    have same : s.2 = mark := by omega
    have here : s.1 n = table n := by simp [slots n]
    have inside : n < s.2 := by omega
    simp only [List.foldl_cons, List.foldl_nil, turn, if_pos inside, here]
    constructor
    · intro i
      by_cases last : i = n
      · simp [last]
      · rw [Function.update_of_ne last, slots i]
        by_cases before : i < n
        · rw [if_pos before, if_pos (by omega)]
        · rw [if_neg before, if_neg (by omega)]
    · split
      · rename_i freed
        obtain ⟨_, dead, last⟩ := freed
        refine .inr ⟨by omega, by omega, ?_⟩
        rw [show mark - 1 = n by omega]
        simpa using dead
      · exact .inl same

end Sweeps

end Slots
