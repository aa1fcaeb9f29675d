import CommonLib.OrderedTree.OrderedList

/- The in-order list of a node of a multiway search tree: its entries woven between
   the in-order lists of its children, of which there is one more. -/
namespace OrderedTree
variable {α κ : Type}

def weave : List α → List (List α) → List α
  | e :: es, c :: cs => c ++ e :: weave es cs
  | [], c :: _ => c
  | _, [] => []

def before : List α → List (List α) → List α
  | e :: es, c :: cs => c ++ e :: before es cs
  | _, _ => []

def after : List α → List (List α) → List α
  | e :: es, c :: cs => e :: c ++ after es cs
  | _, _ => []

@[simp] theorem weave_nil (c : List α) (cs : List (List α)) : weave [] (c :: cs) = c := rfl
@[simp] theorem weave_cons (e : α) (es c : List α) (cs : List (List α)) :
    weave (e :: es) (c :: cs) = c ++ e :: weave es cs := rfl

theorem weave_first (es c : List α) (cs : List (List α)) (len : cs.length = es.length) :
    weave es (c :: cs) = c ++ after es cs := by
  induction es generalizing c cs with
  | nil => simp [after]
  | cons e es ih =>
    cases cs with
    | nil => simp at len
    | cons d ds => simp [after, ih d ds (by simpa using len)]

theorem weave_focus (es fs c : List α) (cs ds : List (List α)) (len : cs.length = es.length)
    (len' : ds.length = fs.length) :
    weave (es ++ fs) (cs ++ c :: ds) = before es cs ++ c ++ after fs ds := by
  induction es generalizing cs with
  | nil =>
    have : cs = [] := List.length_eq_zero_iff.mp (by simpa using len)
    subst this
    simp [before, weave_first fs c ds len']
  | cons e es ih =>
    cases cs with
    | nil => simp at len
    | cons d cs => simp [before, ih cs (by simpa using len)]

theorem weave_focus_pair (es fs c d : List α) (e : α) (cs ds : List (List α))
    (len : cs.length = es.length) (len' : ds.length = fs.length) :
    weave (es ++ e :: fs) (cs ++ c :: d :: ds) = before es cs ++ (c ++ e :: d) ++ after fs ds := by
  rw [weave_focus es (e :: fs) c cs (d :: ds) len (by simpa using len')]
  simp [after]

theorem before_last (es c : List α) (u : α) (cs : List (List α)) (len : cs.length = es.length) :
    before (es ++ [u]) (cs ++ [c]) = before es cs ++ c ++ [u] := by
  induction es generalizing cs with
  | nil =>
    have : cs = [] := List.length_eq_zero_iff.mp (by simpa using len)
    subst this
    simp [before]
  | cons e es ih =>
    cases cs with
    | nil => simp at len
    | cons d cs => simp [before, ih cs (by simpa using len)]

theorem weave_append (es fs : List α) (e : α) (cs ds : List (List α))
    (len : cs.length = es.length + 1) :
    weave (es ++ e :: fs) (cs ++ ds) = weave es cs ++ e :: weave fs ds := by
  induction es generalizing cs with
  | nil =>
    obtain ⟨c, rfl⟩ := List.length_eq_one_iff.mp len
    simp
  | cons f es ih =>
    cases cs with
    | nil => simp at len
    | cons c cs => simp [ih cs (by simpa using len)]

theorem entries_sublist_weave (es : List α) (cs : List (List α)) (len : cs.length = es.length + 1) :
    es.Sublist (weave es cs) := by
  induction es generalizing cs with
  | nil => simp
  | cons e es ih =>
    cases cs with
    | nil => simp at len
    | cons c cs =>
      exact List.Sublist.trans ((ih cs (by simpa using len)).cons_cons e)
        (List.sublist_append_right c _)

theorem weave_perm (es : List α) (cs : List (List α)) (len : cs.length = es.length + 1) :
    (weave es cs).Perm (es ++ cs.flatten) := by
  induction es generalizing cs with
  | nil =>
    obtain ⟨c, rfl⟩ := List.length_eq_one_iff.mp len
    simp
  | cons e es ih =>
    cases cs with
    | nil => simp at len
    | cons c cs =>
      have rest := ih cs (by simpa using len)
      have step : (weave (e :: es) (c :: cs)).Perm (c ++ e :: (es ++ cs.flatten)) :=
        (rest.cons e).append_left c
      refine step.trans (List.perm_middle.trans (.cons e ?_))
      rw [List.flatten_cons, ← List.append_assoc]
      exact (List.perm_append_comm.append_right _).trans (.of_eq (List.append_assoc _ _ _))

section Ordered
variable [LinearOrder κ] {rank : α → κ}

theorem before_lt {es : List α} {cs : List (List α)} {k : κ} (o : Ordered rank (before es cs))
    (below : ∀ e ∈ es, rank e < k) : ∀ a ∈ before es cs, rank a < k := by
  induction es generalizing cs with
  | nil => simp [before]
  | cons e es ih =>
    cases cs with
    | nil => simp [before]
    | cons c cs =>
      simp only [before] at o ⊢
      obtain ⟨_, tail, cross⟩ := ordered_append.mp o
      have he := below e List.mem_cons_self
      intro a ha
      rcases List.mem_append.mp ha with ha | ha
      · exact (cross a ha e List.mem_cons_self).trans he
      · rcases List.mem_cons.mp ha with rfl | ha
        · exact he
        · exact ih (ordered_cons.mp tail).2 (fun f hf => below f (List.mem_cons_of_mem _ hf)) a ha

theorem after_gt {es : List α} {cs : List (List α)} {k : κ} (o : Ordered rank (after es cs))
    (above : ∀ e ∈ es, k < rank e) : ∀ a ∈ after es cs, k < rank a := by
  cases es with
  | nil => simp [after]
  | cons e es =>
    cases cs with
    | nil => simp [after]
    | cons c cs =>
      simp only [after] at o ⊢
      have he := above e List.mem_cons_self
      intro a ha
      rcases List.mem_cons.mp ha with rfl | ha
      · exact he
      · exact he.trans ((ordered_cons.mp o).1 a ha)

end Ordered

end OrderedTree
