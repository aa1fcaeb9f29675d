import Mathlib.Data.List.Basic

/- Machines that read their inputs one by one and answer each: the state after a run, and the
   positions of the inputs whose answer is marked. -/
namespace Stream

variable {σ τ ι ω ε : Type}

def after (step : σ → ι → σ × ω) : σ → List ι → σ
  | s, [] => s
  | s, i :: is => after step (step s i).1 is

def marks (step : σ → ι → σ × ω) (mark : σ → ω → Option ε) : Nat → σ → List ι → List (Nat × ε)
  | _, _, [] => []
  | n, s, i :: is =>
    match mark (step s i).1 (step s i).2 with
    | some e => (n, e) :: marks step mark (n + 1) (step s i).1 is
    | none => marks step mark (n + 1) (step s i).1 is

section Runs
variable (step : σ → ι → σ × ω)

theorem after_append (s : σ) (is js : List ι) :
    after step s (is ++ js) = after step (after step s is) js := by
  induction is generalizing s with
  | nil => rfl
  | cons i is ih => exact ih (step s i).1

theorem after_snoc (s : σ) (is : List ι) (i : ι) :
    after step s (is ++ [i]) = (step (after step s is) i).1 := by
  rw [after_append]
  rfl

theorem after_keeps {I : σ → Prop} (keeps : ∀ s i, I s → I (step s i).1) {s : σ} (start : I s)
    (is : List ι) : I (after step s is) := by
  induction is generalizing s with
  | nil => exact start
  | cons i is ih =>
    apply ih
    exact keeps s i start

end Runs

section Marks
variable (step : σ → ι → σ × ω) (mark : σ → ω → Option ε)

theorem marks_append (n : Nat) (s : σ) (is js : List ι) :
    marks step mark n s (is ++ js) =
      marks step mark n s is ++ marks step mark (n + is.length) (after step s is) js := by
  induction is generalizing n s with
  | nil => rfl
  | cons i is ih =>
    have place : n + (i :: is).length = n + 1 + is.length := by
      rw [List.length_cons]
      omega
    rw [List.cons_append, place]
    simp only [marks, after, ih]
    split
    · rfl
    · rfl

theorem marks_congr {ω₂ : Type} (step₂ : τ → ι → τ × ω₂) (mark₂ : τ → ω₂ → Option ε)
    {R : σ → τ → Prop}
    (keeps : ∀ s t i, R s t → R (step s i).1 (step₂ t i).1 ∧
      mark (step s i).1 (step s i).2 = mark₂ (step₂ t i).1 (step₂ t i).2)
    (n : Nat) {s : σ} {t : τ} (start : R s t) (is : List ι) :
    marks step mark n s is = marks step₂ mark₂ n t is := by
  induction is generalizing n s t with
  | nil => rfl
  | cons i is ih =>
    obtain ⟨next, same⟩ := keeps s t i start
    simp only [marks, same, ih (n + 1) next]

end Marks

end Stream
