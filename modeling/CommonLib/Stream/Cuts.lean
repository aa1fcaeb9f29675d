import Mathlib.Data.List.Forall2
import Mathlib.Data.List.GetD
import Mathlib.Data.Nat.Basic

/- Records written back to back and read in chunks. A chunk is taken for a record when it agrees
   with it after being filled up with zeros; if every chunk of a complete reading is taken for its
   record, then the chunks are the records. -/
namespace Stream

variable {α : Type} (zero : α)

def TakenFor (chunk record : List α) : Prop :=
  ∀ j < record.length, chunk.getD j zero = record.getD j zero

variable {zero}

theorem no_shift {r : List α} {o n : Nat} (head : r.getD 0 zero ≠ zero) (positive : 0 < o)
    (within : o + n ≤ r.length) (copy : ∀ j < n, r.getD (o + j) zero = r.getD j zero)
    (rest : ∀ j, n ≤ j → j < r.length → r.getD j zero = zero) : False := by
  have multiples : ∀ k, k * o < o + n → r.getD (k * o) zero = r.getD 0 zero := by
    intro k
    induction k with
    | zero =>
      intro _
      rw [Nat.zero_mul]
    | succ k ih =>
      intro small
      rw [Nat.succ_mul] at small
      rw [Nat.succ_mul, Nat.add_comm, copy (k * o) (by omega)]
      exact ih (by omega)
  -- The last multiple of the shift before the zeros begin.
  have lower : n ≤ (n + o - 1) / o * o := by
    have := Nat.lt_div_mul_add positive (a := n + o - 1)
    omega
  have upper : (n + o - 1) / o * o < o + n := by
    have := Nat.div_mul_le_self (n + o - 1) o
    omega
  have same := multiples ((n + o - 1) / o) upper
  rw [rest _ lower (by omega)] at same
  exact head same.symm

theorem getD_drop (l : List α) (d j : Nat) : (l.drop d).getD j zero = l.getD (d + j) zero := by
  simp [List.getD_eq_getElem?_getD]

/-- The part of the stream a chunk covers agrees with the record it starts in. -/
theorem chunk_inside {r c : List α} {rest tail : List α} {d : Nat}
    (stream : c ++ tail = (r ++ rest).drop d) (within : d + c.length ≤ r.length) :
    c = (r.drop d).take c.length ∧ tail = r.drop (d + c.length) ++ rest := by
  have start : d ≤ r.length := by omega
  rw [List.drop_append_of_le_length start] at stream
  have size : c.length ≤ (r.drop d).length := by
    rw [List.length_drop]
    omega
  have cut : c ++ tail = (r.drop d).take c.length ++ ((r.drop d).drop c.length ++ rest) := by
    rw [← List.append_assoc, List.take_append_drop, stream]
  have length : c.length = ((r.drop d).take c.length).length := by
    rw [List.length_take, Nat.min_eq_left size]
  obtain ⟨first, second⟩ := List.append_inj cut length
  rw [List.drop_drop] at second
  exact ⟨first, second⟩

theorem cuts_from {records chunks : List (List α)} {d : Nat}
    (heads : ∀ r ∈ records, r.getD 0 zero ≠ zero)
    (stream : chunks.flatten = records.flatten.drop d)
    (taken : List.Forall₂ (TakenFor zero) chunks records) :
    (records ≠ [] → d = 0) ∧ chunks = records := by
  induction taken generalizing d with
  | nil => exact ⟨fun no => absurd rfl no, rfl⟩
  | @cons c r cs rs take rest ih =>
    have head := heads r List.mem_cons_self
    have heads' : ∀ r ∈ rs, r.getD 0 zero ≠ zero := fun x hx => heads x (List.mem_cons_of_mem r hx)
    have filled : 0 < r.length := by
      rcases r with _ | ⟨a, r⟩
      · exact absurd rfl head
      · exact Nat.succ_pos _
    have started : c ≠ [] := by
      rintro rfl
      exact head (take 0 filled).symm
    rw [List.flatten_cons, List.flatten_cons] at stream
    by_cases within : d + c.length ≤ r.length
    · obtain ⟨inside, left⟩ := chunk_inside stream within
      have copy : ∀ j < c.length, r.getD (d + j) zero = r.getD j zero := by
        intro j small
        rw [← take j (by omega), ← getD_drop, inside]
        simp [List.getD_eq_getElem?_getD, small]
      have zeros : ∀ j, c.length ≤ j → j < r.length → r.getD j zero = zero := by
        intro j past inner
        rw [← take j inner]
        simp [List.getD_eq_getElem?_getD, past]
      have aligned : d = 0 := by
        by_contra off
        exact no_shift head (Nat.pos_of_ne_zero off) within copy zeros
      subst aligned
      rw [Nat.zero_add] at within left
      refine ⟨fun _ => rfl, ?_⟩
      by_cases whole : c.length = r.length
      · have first : c = r := by
          rw [inside, List.drop_zero, whole, List.take_length]
        rw [whole, List.drop_length, List.nil_append] at left
        rw [first, (ih (d := 0) heads' left).2]
      · -- The chunk ends early: the next one would begin with a zero.
        exfalso
        have next : cs.flatten.getD 0 zero = zero := by
          have short : 0 < (r.drop c.length).length := by
            rw [List.length_drop]
            omega
          rw [left, List.getD_append _ _ _ _ short, getD_drop]
          exact zeros _ (Nat.le_add_right _ _) (by omega)
        cases rest with
        | nil =>
          have size := congrArg List.length left
          simp only [List.flatten_nil, List.length_nil, List.length_append,
            List.length_drop] at size
          omega
        | @cons c' r' cs rs take' rest' =>
          have head' := heads' r' List.mem_cons_self
          have filled' : 0 < r'.length := by
            rcases r' with _ | ⟨a, r'⟩
            · exact absurd rfl head'
            · exact Nat.succ_pos _
          have begins : c'.getD 0 zero ≠ zero := by
            rw [take' 0 filled']
            exact head'
          rcases c' with _ | ⟨a, c'⟩
          · exact begins rfl
          · exact begins next
    · -- The chunk runs past its record: the records that follow are too few for the chunks.
      exfalso
      have left : cs.flatten = rs.flatten.drop (d + c.length - r.length) := by
        have dropped := congrArg (List.drop c.length) stream
        rw [List.drop_left, List.drop_drop, List.drop_append] at dropped
        rw [dropped, List.drop_of_length_le (by omega), List.nil_append]
      have last : rs = [] := by
        by_contra more
        have := (ih heads' left).1 more
        omega
      subst last
      cases rest
      have size := congrArg List.length stream
      have positive := List.length_pos_iff.mpr started
      simp only [List.flatten_nil, List.append_nil, List.length_drop] at size
      omega

theorem cuts_exact {records chunks : List (List α)}
    (heads : ∀ r ∈ records, r.getD 0 zero ≠ zero) (stream : chunks.flatten = records.flatten)
    (taken : List.Forall₂ (TakenFor zero) chunks records) : chunks = records :=
  (cuts_from (d := 0) heads stream taken).2

end Stream
