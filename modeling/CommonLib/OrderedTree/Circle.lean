import CommonLib.OrderedTree.OrderedList
import Mathlib.Data.Int.Basic

/- Comparing integers by the sign of their difference modulo `2 * k`. On a finite set
   this is a total order just when the set lies on half of the circle. -/
namespace OrderedTree
variable {α β : Type}

structure TotalOn (name : α → β) (cmp : α → α → Int) (S : List α) : Prop where
  zero : ∀ a ∈ S, ∀ b ∈ S, cmp a b = 0 ↔ name a = name b
  swap : ∀ a ∈ S, ∀ b ∈ S, 0 < cmp a b ↔ cmp b a < 0
  trans : ∀ a ∈ S, ∀ b ∈ S, ∀ c ∈ S, 0 ≤ cmp a b → 0 ≤ cmp b c → 0 ≤ cmp a c

theorem TotalOn.least {name : α → β} {cmp : α → α → Int} {S : List α} (total : TotalOn name cmp S)
    (T : List α) (sub : T ⊆ S) (some : T ≠ []) : ∃ m ∈ T, ∀ a ∈ T, 0 ≤ cmp a m := by
  induction T with
  | nil => exact absurd rfl some
  | cons x T ih =>
    have hx : x ∈ S := sub List.mem_cons_self
    have self : cmp x x = 0 := (total.zero x hx x hx).mpr rfl
    cases T with
    | nil =>
      refine ⟨x, List.mem_cons_self, fun a ha => ?_⟩
      obtain rfl := List.mem_singleton.mp ha
      exact Int.le_of_eq self.symm
    | cons y T =>
      obtain ⟨m, hm, least⟩ := ih (fun a ha => sub (List.mem_cons_of_mem _ ha)) (by simp)
      have hmS : m ∈ S := sub (List.mem_cons_of_mem _ hm)
      by_cases below : cmp x m < 0
      · have above : 0 < cmp m x := (total.swap m hmS x hx).mpr below
        refine ⟨x, List.mem_cons_self, fun a ha => ?_⟩
        rcases List.mem_cons.mp ha with rfl | ha
        · exact Int.le_of_eq self.symm
        · exact total.trans a (sub (List.mem_cons_of_mem _ ha)) m hmS x hx (least a ha)
            (Int.le_of_lt above)
      · refine ⟨m, List.mem_cons_of_mem _ hm, fun a ha => ?_⟩
        rcases List.mem_cons.mp ha with rfl | ha
        · exact Int.not_lt.mp below
        · exact least a ha

/-- The members of `S` start at `base` and stay within `k`, and no two meet. -/
structure HalfCircle (k : Nat) (name : α → Int) (S : List α) (base : Int) : Prop where
  near : ∀ a ∈ S, (name a - base) % (2 * k : Nat) < k
  apart : ∀ a ∈ S, ∀ b ∈ S, (name a - base) % (2 * k : Nat) = (name b - base) % (2 * k : Nat) →
    name a = name b

def circleCmp (k : Nat) (name : α → Int) (a b : α) : Int := (name a - name b).bmod (2 * k)

section Circle
variable {k : Nat} {name : α → Int} {S : List α} {base : Int}

theorem circleCmp_eq {a b : α} (ha : (name a - base) % (2 * k : Nat) < k)
    (hb : (name b - base) % (2 * k : Nat) < k) (pos : 0 < k) :
    circleCmp k name a b = (name a - base) % (2 * k : Nat) - (name b - base) % (2 * k : Nat) := by
  have modulus : ((2 * k : Nat) : Int) ≠ 0 := by omega
  have lowA := Int.emod_nonneg (name a - base) modulus
  have lowB := Int.emod_nonneg (name b - base) modulus
  have same : name a - name b = (name a - base) - (name b - base) := by omega
  rw [circleCmp, same, ← Int.emod_sub_bmod, ← Int.sub_emod_bmod]
  exact Int.bmod_eq_of_le_mul_two (by omega) (by omega)

theorem near_of_circleCmp {a m : α} (above : 0 ≤ circleCmp k name a m) (pos : 0 < k) :
    (name a - name m) % (2 * k : Nat) < k := by
  have high := Int.emod_lt_of_pos (name a - name m) (show (0 : Int) < (2 * k : Nat) by omega)
  rw [circleCmp, Int.bmod_def] at above
  split at above <;> omega

theorem HalfCircle.totalOn (half : HalfCircle k name S base) (pos : 0 < k) :
    TotalOn name (circleCmp k name) S := by
  refine ⟨?_, ?_, ?_⟩
  · intro a ha b hb
    rw [circleCmp_eq (half.near a ha) (half.near b hb) pos]
    constructor
    · exact fun zero => half.apart a ha b hb (by omega)
    · intro same
      rw [same]
      omega
  · intro a ha b hb
    rw [circleCmp_eq (half.near a ha) (half.near b hb) pos,
      circleCmp_eq (half.near b hb) (half.near a ha) pos]
    omega
  · intro a ha b hb c hc
    rw [circleCmp_eq (half.near a ha) (half.near b hb) pos,
      circleCmp_eq (half.near b hb) (half.near c hc) pos,
      circleCmp_eq (half.near a ha) (half.near c hc) pos]
    omega

theorem totalOn_circle_iff (pos : 0 < k) :
    TotalOn name (circleCmp k name) S ↔ ∃ base, HalfCircle k name S base := by
  constructor
  · intro total
    by_cases none : S = []
    · subst none
      exact ⟨0, by simp, by simp⟩
    · obtain ⟨m, hm, least⟩ := total.least S (List.Subset.refl S) none
      refine ⟨name m, fun a ha => near_of_circleCmp (least a ha) pos, fun a ha b hb meet => ?_⟩
      refine (total.zero a ha b hb).mp ?_
      have gap : name a - name b = (name a - name m) - (name b - name m) := by omega
      have zero := Int.emod_eq_emod_iff_emod_sub_eq_zero.mp meet
      rw [circleCmp, gap, ← Int.emod_bmod, zero]
      exact Int.zero_bmod
  · rintro ⟨base, half⟩
    exact half.totalOn pos

end Circle
end OrderedTree
