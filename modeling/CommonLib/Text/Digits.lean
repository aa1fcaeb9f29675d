import Mathlib.Data.List.Lex
import Mathlib.Order.Basic

/- Decimal digits as bytes: their order is the order of the numbers they write. -/
namespace Digits

def IsDigit (c : UInt8) : Prop := 48 ≤ c.toNat ∧ c.toNat ≤ 57

instance (c : UInt8) : Decidable (IsDigit c) := inferInstanceAs (Decidable (_ ∧ _))

def numberFrom (n : Nat) (digits : List UInt8) : Nat :=
  digits.foldl (fun n c => 10 * n + (c.toNat - 48)) n

theorem numberFrom_lt {a b : List UInt8} (same : a.length = b.length) (first : ∀ c ∈ a, IsDigit c)
    (second : ∀ c ∈ b, IsDigit c) {n m : Nat} (less : n < m) : numberFrom n a < numberFrom m b := by
  induction a generalizing b n m with
  | nil =>
    have nothing : b = [] := List.eq_nil_of_length_eq_zero same.symm
    subst nothing
    exact less
  | cons c a ih =>
    cases b with
    | nil => cases same
    | cons d b =>
      have low := first c List.mem_cons_self
      have high := second d List.mem_cons_self
      unfold IsDigit at low high
      have weighs : 10 * n + (c.toNat - 48) < 10 * m + (d.toNat - 48) := by omega
      exact ih (Nat.succ.inj same) (fun x member => first x (List.mem_cons_of_mem _ member))
        (fun x member => second x (List.mem_cons_of_mem _ member)) weighs

theorem digits_lt_iff {a b : List UInt8} (same : a.length = b.length) (first : ∀ c ∈ a, IsDigit c)
    (second : ∀ c ∈ b, IsDigit c) (n : Nat) :
    a.map UInt8.toNat < b.map UInt8.toNat ↔ numberFrom n a < numberFrom n b := by
  induction a generalizing b n with
  | nil =>
    have nothing : b = [] := List.eq_nil_of_length_eq_zero same.symm
    subst nothing
    simp
  | cons c a ih =>
    cases b with
    | nil => cases same
    | cons d b =>
      have low := first c List.mem_cons_self
      have high := second d List.mem_cons_self
      have restA : ∀ x ∈ a, IsDigit x := fun x member => first x (List.mem_cons_of_mem _ member)
      have restB : ∀ x ∈ b, IsDigit x := fun x member => second x (List.mem_cons_of_mem _ member)
      have length := Nat.succ.inj same
      have step : ∀ k x xs, numberFrom k (x :: xs) = numberFrom (10 * k + (x.toNat - 48)) xs :=
        fun _ _ _ => rfl
      unfold IsDigit at low high
      rw [List.map_cons, List.map_cons, List.cons_lt_cons_iff, step, step]
      rcases Nat.lt_trichotomy c.toNat d.toNat with less | equal | more
      · have before := numberFrom_lt length restA restB
          (show 10 * n + (c.toNat - 48) < 10 * n + (d.toNat - 48) by omega)
        simp [less, before]
      · rw [equal]
        simp only [Nat.lt_irrefl, false_or, true_and]
        exact ih length restA restB _
      · have behind := numberFrom_lt length.symm restB restA
          (show 10 * n + (d.toNat - 48) < 10 * n + (c.toNat - 48) by omega)
        constructor
        · rintro (less | ⟨equal, _⟩) <;> omega
        · intro less
          omega

end Digits
