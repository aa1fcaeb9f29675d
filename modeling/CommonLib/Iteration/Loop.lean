import Mathlib.Data.Fintype.Pigeonhole
import Mathlib.Logic.Relation

/- A loop whose body ends, fails or goes on from the state it has reached. On finitely
   many states it returns just when no state is met twice and none of them fails. -/
namespace Iteration
variable {σ ε β : Type}

def loop (body : σ → Except ε (β ⊕ σ)) : Nat → σ → Option (Except ε β)
  | 0, _ => none
  | n + 1, x =>
    match body x with
    | .error e => some (.error e)
    | .ok (.inl r) => some (.ok r)
    | .ok (.inr y) => loop body n y

def path (body : σ → Except ε (β ⊕ σ)) : Nat → σ → Option σ
  | 0, x => some x
  | n + 1, x =>
    match body x with
    | .ok (.inr y) => path body n y
    | _ => none

def Returns (body : σ → Except ε (β ⊕ σ)) (x : σ) : Prop := ∃ n r, loop body n x = some (.ok r)

section Loop
variable {body : σ → Except ε (β ⊕ σ)} {x y : σ}

theorem path_succ (go : body x = .ok (.inr y)) (n : Nat) : path body (n + 1) x = path body n y := by
  rw [path, go]

theorem path_add {m : Nat} (reach : path body m x = some y) (n : Nat) :
    path body (m + n) x = path body n y := by
  induction m generalizing x with
  | zero =>
    obtain rfl := Option.some.inj reach
    rw [Nat.zero_add]
  | succ m ih =>
    cases run : body x with
    | error e => simp [path, run] at reach
    | ok next =>
      cases next with
      | inl r => simp [path, run] at reach
      | inr z =>
        rw [path_succ run] at reach
        rw [Nat.add_right_comm, path_succ run, ih reach]

theorem path_before {n : Nat} (j : Nat) (far : (path body (n + j) x).isSome) :
    (path body n x).isSome := by
  induction n generalizing x with
  | zero => rfl
  | succ n ih =>
    rw [Nat.add_right_comm] at far
    cases run : body x with
    | error e => simp [path, run] at far
    | ok next =>
      cases next with
      | inl r => simp [path, run] at far
      | inr y =>
        rw [path_succ run] at far ⊢
        exact ih far

theorem loop_none_iff (n : Nat) : loop body n x = none ↔ (path body n x).isSome := by
  induction n generalizing x with
  | zero => simp [loop, path]
  | succ n ih =>
    cases run : body x with
    | error e => simp [loop, path, run]
    | ok next =>
      cases next with
      | inl r => simp [loop, path, run]
      | inr y => simp [loop, path, run, ih]

theorem loop_last {n : Nat} {r : Except ε β} (run : loop body n x = some r) :
    ∃ m y, path body m x = some y ∧ body y = r.map Sum.inl := by
  induction n generalizing x with
  | zero => exact nomatch run
  | succ n ih =>
    cases step : body x with
    | error e =>
      simp only [loop, step, Option.some.injEq] at run
      exact ⟨0, x, rfl, by rw [step, ← run]; rfl⟩
    | ok next =>
      cases next with
      | inl a =>
        simp only [loop, step, Option.some.injEq] at run
        exact ⟨0, x, rfl, by rw [step, ← run]; rfl⟩
      | inr z =>
        simp only [loop, step] at run
        obtain ⟨m, y, reach, last⟩ := ih run
        exact ⟨m + 1, y, (path_succ step m).trans reach, last⟩

theorem path_stops {n : Nat} (here : path body n x = some y) (stop : ∀ z, body y ≠ .ok (.inr z))
    (j : Nat) :
    path body (n + (j + 1)) x = none := by
  rw [path_add here]
  cases run : body y with
  | error e => simp [path, run]
  | ok next =>
    cases next with
    | inl r => simp [path, run]
    | inr z => exact absurd run (stop z)

theorem path_cycle {k : Nat} (back : path body k x = some x) (n : Nat) :
    path body (n * k) x = some x := by
  induction n with
  | zero => rw [Nat.zero_mul, path]
  | succ n ih => rw [Nat.succ_mul, path_add ih, back]

theorem never_of_cycle {m k : Nat} (reach : path body m x = some y) (pos : 0 < k)
    (back : path body k y = some y) (n : Nat) : loop body n x = none := by
  have enough : n ≤ n * k := Nat.le_mul_of_pos_right n pos
  have split : n + (m + (n * k - n)) = m + n * k := by omega
  have far : path body (n + (m + (n * k - n))) x = some y := by
    rw [split, path_add reach, path_cycle back]
  rw [loop_none_iff]
  exact path_before _ (by rw [far]; rfl)

def Simple (body : σ → Except ε (β ⊕ σ)) (x : σ) : Prop :=
  ∀ i j y, path body i x = some y → path body j x = some y → i = j

theorem Returns.simple (returns : Returns body x) : Simple body x := by
  obtain ⟨n, r, run⟩ := returns
  have apart : ∀ i j y, i < j → path body i x = some y → path body j x ≠ some y := by
    intro i j y lt first second
    have back : path body (j - i) y = some y := by
      rw [← path_add first, show i + (j - i) = j by omega]
      exact second
    rw [never_of_cycle first (by omega) back] at run
    exact nomatch run
  intro i j y first second
  rcases Nat.lt_trichotomy i j with lt | eq | gt
  · exact absurd second (apart i j y lt first)
  · exact eq
  · exact absurd first (apart j i y gt second)

theorem Returns.sound (returns : Returns body x) {i : Nat}
    (reach : path body i x = some y) (e : ε) :
    body y ≠ .error e := by
  obtain ⟨n, r, run⟩ := returns
  obtain ⟨m, z, last, ends⟩ := loop_last run
  intro fails
  rcases Nat.lt_trichotomy i m with lt | rfl | gt
  · have gone := path_stops reach (by simp [fails]) (m - i - 1)
    rw [show i + (m - i - 1 + 1) = m by omega, last] at gone
    exact nomatch gone
  · obtain rfl := Option.some.inj (reach.symm.trans last)
    rw [fails] at ends
    exact nomatch ends
  · have gone := path_stops last (by simp [ends, Except.map]) (i - m - 1)
    rw [show m + (i - m - 1 + 1) = i by omega, reach] at gone
    exact nomatch gone

theorem ends_of_simple [Finite σ] (simple : Simple body x) : ∃ n r, loop body n x = some r := by
  by_contra never
  have goes : ∀ n, (path body n x).isSome := by
    intro n
    rw [← loop_none_iff]
    cases run : loop body n x with
    | none => rfl
    | some r => exact absurd ⟨n, r, run⟩ never
  obtain ⟨i, j, apart, same⟩ := Finite.exists_ne_map_eq_of_infinite fun n =>
    (path body n x).get (goes n)
  refine apart (simple i j _ (Option.some_get (goes i)).symm ?_)
  rw [same, Option.some_get]

theorem returns_of_path [Finite σ] :
    Returns body x ↔ Simple body x ∧ ∀ i y e, path body i x = some y → body y ≠ .error e := by
  constructor
  · exact fun returns => ⟨returns.simple, fun i y e reach => returns.sound reach e⟩
  · rintro ⟨simple, sound⟩
    obtain ⟨n, r, run⟩ := ends_of_simple simple
    obtain ⟨m, y, reach, last⟩ := loop_last run
    cases r with
    | ok r => exact ⟨n, r, run⟩
    | error e => exact absurd last (sound m y e reach)

def Leads (body : σ → Except ε (β ⊕ σ)) (x y : σ) : Prop := body x = .ok (.inr y)

theorem reaches_iff : Relation.ReflTransGen (Leads body) x y ↔ ∃ n, path body n x = some y := by
  constructor
  · intro reach
    induction reach using Relation.ReflTransGen.head_induction_on with
    | refl => exact ⟨0, rfl⟩
    | head go _ ih =>
      obtain ⟨n, there⟩ := ih
      exact ⟨n + 1, (path_succ go n).trans there⟩
  · rintro ⟨n, there⟩
    induction n generalizing x with
    | zero =>
      obtain rfl := Option.some.inj there
      exact .refl
    | succ n ih =>
      cases run : body x with
      | error e => simp [path, run] at there
      | ok next =>
        cases next with
        | inl r => simp [path, run] at there
        | inr z =>
          rw [path_succ run] at there
          exact (ih there).head run

theorem comes_back_iff :
    Relation.TransGen (Leads body) x x ↔ ∃ n, 0 < n ∧ path body n x = some x := by
  constructor
  · intro cycle
    obtain ⟨y, go, back⟩ := Relation.TransGen.head'_iff.mp cycle
    obtain ⟨n, there⟩ := reaches_iff.mp back
    exact ⟨n + 1, Nat.succ_pos n, (path_succ go n).trans there⟩
  · rintro ⟨n, pos, there⟩
    obtain ⟨n, rfl⟩ := Nat.exists_eq_add_one.mpr pos
    cases run : body x with
    | error e => simp [path, run] at there
    | ok next =>
      cases next with
      | inl r => simp [path, run] at there
      | inr z =>
        rw [path_succ run] at there
        exact Relation.TransGen.head' run (reaches_iff.mpr ⟨n, there⟩)

theorem simple_iff_acyclic : Simple body x ↔
    ∀ y, Relation.ReflTransGen (Leads body) x y → ¬ Relation.TransGen (Leads body) y y := by
  constructor
  · intro simple y reach cycle
    obtain ⟨m, there⟩ := reaches_iff.mp reach
    obtain ⟨n, pos, back⟩ := comes_back_iff.mp cycle
    have again : path body (m + n) x = some y := (path_add there n).trans back
    have same := simple m (m + n) y there again
    omega
  · intro acyclic
    have apart : ∀ i j y, i < j → path body i x = some y → path body j x ≠ some y := by
      intro i j y lt first second
      refine acyclic y (reaches_iff.mpr ⟨i, first⟩) (comes_back_iff.mpr ⟨j - i, by omega, ?_⟩)
      rw [← path_add first, show i + (j - i) = j by omega]
      exact second
    intro i j y first second
    rcases Nat.lt_trichotomy i j with lt | eq | gt
    · exact absurd second (apart i j y lt first)
    · exact eq
    · exact absurd first (apart j i y gt second)

/-- On finitely many states the loop returns just when no state that it reaches leads back to
    itself or fails. -/
theorem returns_iff [Finite σ] : Returns body x ↔
    ∀ y, Relation.ReflTransGen (Leads body) x y →
      ¬ Relation.TransGen (Leads body) y y ∧ ∀ e, body y ≠ .error e := by
  rw [returns_of_path, simple_iff_acyclic]
  constructor
  · rintro ⟨acyclic, sound⟩ y reach
    obtain ⟨i, there⟩ := reaches_iff.mp reach
    exact ⟨acyclic y reach, fun e => sound i y e there⟩
  · intro descends
    exact ⟨fun y reach => (descends y reach).1,
      fun i y e there => (descends y (reaches_iff.mpr ⟨i, there⟩)).2 e⟩

end Loop

end Iteration
