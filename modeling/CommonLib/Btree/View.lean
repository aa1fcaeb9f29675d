import CommonLib.Btree.Words

/- A node seen as the list of its pairs: `View` says that the node holds exactly these,
   in this order, and empty pairs after them. Each manipulation of a node is an operation
   on the list. -/
namespace Btree

/-! ### Loops that look for an index -/

theorem firstFrom_eq {p : Nat → Bool} {i n k : Nat} (low : i ≤ k) (high : k ≤ i + n)
    (before : ∀ j, i ≤ j → j < k → p j = false) (stop : k < i + n → p k = true) :
    firstFrom p i n = k := by
  induction n generalizing i with
  | zero =>
    unfold firstFrom
    omega
  | succ n ih =>
    unfold firstFrom
    by_cases here : i = k
    · subst here
      rw [stop (by omega)]
      rfl
    · rw [before i (by omega) (by omega)]
      exact ih (by omega) (by omega) (fun j hj => before j (by omega)) fun h => stop (by omega)

theorem getD_append {α : Type} (A B : List α) (m : Nat) (d : α) :
    (A ++ B).getD m d = if m < A.length then A.getD m d else B.getD (m - A.length) d := by
  by_cases inA : m < A.length
  · rw [if_pos inA, List.getD_append _ _ _ _ inA]
  · rw [if_neg inA, List.getD_append_right _ _ _ _ (by omega)]

theorem getD_cons {α : Type} (e : α) (B : List α) (m : Nat) (d : α) :
    (e :: B).getD m d = if m = 0 then e else B.getD (m - 1) d := by
  cases m with
  | zero => rfl
  | succ m => simp

theorem getD_nil {α : Type} (m : Nat) (d : α) : ([] : List α).getD m d = d := by simp

theorem getD_past {α : Type} (A : List α) {m : Nat} (d : α) (past : A.length ≤ m) :
    A.getD m d = d :=
  List.getD_eq_default _ _ past

structure View (geo : Geo) (node : Node) (es : List Entry) : Prop where
  room : es.length ≤ geo.noPairs
  pairs : ∀ m < geo.noPairs, pair geo node m = es.getD m (emptyPair geo)

section View
variable {geo : Geo} {node l r : Node} {es A B C L M R : List Entry} {e : Entry} {key : Key}

theorem view_zero : View geo (fun _ => 0) [] where
  room := Nat.zero_le _
  pairs m _ := by
    rw [getD_nil]
    refine Prod.ext ?_ rfl
    exact List.ext_getElem (by simp [pair, emptyPair]) fun j h1 h2 => by
      simp [pair, bkey, emptyPair, zeroKey]

theorem View.pair_at (v : View geo node (A ++ e :: B)) : pair geo node A.length = e := by
  have room := v.room
  rw [List.length_append, List.length_cons] at room
  rw [v.pairs _ (by omega), getD_append, if_neg (by omega), Nat.sub_self]
  rfl

theorem View.key_at (v : View geo node (A ++ e :: B)) : bkey geo node A.length = e.1 :=
  congrArg Prod.fst v.pair_at

theorem View.val_at (v : View geo node (A ++ e :: B)) : bval geo node A.length = e.2 :=
  congrArg Prod.snd v.pair_at

theorem View.val_before {x : Entry} (v : View geo node (A ++ [e] ++ x :: B)) :
    bval geo node A.length = e.2 := by
  rw [List.append_assoc] at v
  exact v.val_at

theorem View.val_after {x : Entry} (v : View geo node (A ++ x :: e :: B)) :
    bval geo node (A.length + 1) = e.2 := by
  rw [List.append_cons] at v
  have next := v.val_at
  rwa [List.length_append, List.length_singleton] at next

theorem View.pairVal (v : View geo node (A ++ e :: B)) :
    Btree.pairVal geo node A.length = .ok e.2 := by
  have room := v.room
  rw [List.length_append, List.length_cons] at room
  have words := geo.room
  have inside : geo.noPairs * geo.keylen + A.length < nodeWords := by
    rw [Nat.mul_add, Nat.mul_one] at words
    omega
  unfold Btree.pairVal
  rw [if_pos inside, v.val_at]

theorem View.key_get (v : View geo node es) {j : Nat} (hj : j < es.length) :
    bkey geo node j = es[j].1 := by
  have pair_j := v.pairs j (hj.trans_le v.room)
  rw [List.getD_eq_getElem _ _ hj] at pair_j
  exact congrArg Prod.fst pair_j

theorem View.key_last (v : View geo node (A ++ [e])) :
    bkey geo node ((A ++ [e]).length - 1) = e.1 := by
  rw [List.length_append, List.length_singleton, Nat.add_sub_cancel]
  exact v.key_at

theorem View.key_length (v : View geo node es) (mem : e ∈ es) : e.1.length = geo.keylen := by
  obtain ⟨A, B, rfl⟩ := List.append_of_mem mem
  rw [← v.key_at, bkey_length]

theorem View.val_past (v : View geo node es) {m : Nat} (past : es.length ≤ m)
    (hm : m < geo.noPairs) :
    pair geo node m = emptyPair geo := by
  rw [v.pairs m hm, getD_past _ _ past]

theorem View.getpos (v : View geo node (A ++ B)) (len : key.length = geo.keylen)
    (above : ∀ e ∈ A, key < e.1) (rest : ∀ e ∈ B, e.1 ≤ key) : getpos geo node key = A.length := by
  have room := v.room
  rw [List.length_append] at room
  unfold Btree.getpos
  apply firstFrom_eq (Nat.zero_le _) (by omega)
  · intro j _ hj
    have mem : (A ++ B).getD j (emptyPair geo) ∈ A := by
      rw [getD_append, if_pos hj, List.getD_eq_getElem _ _ hj]
      exact List.getElem_mem hj
    have key_j : bkey geo node j = ((A ++ B).getD j (emptyPair geo)).1 := by
      rw [← v.pairs j (by omega)]
      rfl
    rw [decide_eq_false_iff_not, keycmp_le node j len, key_j]
    exact (above _ mem).not_ge
  · intro last
    rw [decide_eq_true_eq, keycmp_le node _ len]
    cases B with
    | nil =>
      have empty := v.val_past (m := A.length) (by simp) (by omega)
      have zero : bkey geo node A.length = zeroKey geo := congrArg Prod.fst empty
      rw [zero, zeroKey, ← len]
      exact zero_le_key key
    | cons e B =>
      rw [v.key_at]
      exact rest e List.mem_cons_self

theorem View.getfill (v : View geo node es) (live : ∀ e ∈ es, e.2 ≠ 0) {start : Nat}
    (le : start ≤ es.length) : getfill geo node start = es.length := by
  have room := v.room
  unfold Btree.getfill
  apply firstFrom_eq le (by omega)
  · intro j _ hj
    have val_j : bval geo node j = (es.getD j (emptyPair geo)).2 := by
      rw [← v.pairs j (by omega)]
      rfl
    rw [decide_eq_false_iff_not, val_j, List.getD_eq_getElem _ _ hj]
    exact live _ (List.getElem_mem hj)
  · intro last
    rw [decide_eq_true_eq]
    exact congrArg Prod.snd (v.val_past (le_refl _) (by omega))

/-! ### Changing one pair -/

theorem View.setkeyb (v : View geo node (A ++ e :: B)) (len : key.length = geo.keylen) :
    View geo (setkeyb geo node key A.length) (A ++ (key, e.2) :: B) where
  room := by simpa using v.room
  pairs m hm := by
    have room := v.room
    rw [List.length_append, List.length_cons] at room
    rw [pair_setkeyb node len (by omega), v.pairs m hm, v.val_at]
    simp only [getD_append, getD_cons]
    by_cases here : m = A.length
    · simp [here]
    · rw [if_neg here]
      by_cases inA : m < A.length
      · simp [inA]
      · rw [if_neg inA, if_neg inA, if_neg (by omega), if_neg (by omega)]

theorem View.setval (v : View geo node (A ++ e :: B)) (val : Nat) :
    View geo (setval geo node val A.length) (A ++ (e.1, val) :: B) where
  room := by simpa using v.room
  pairs m hm := by
    rw [pair_setval node hm, v.pairs m hm, v.key_at]
    simp only [getD_append, getD_cons]
    by_cases here : m = A.length
    · simp [here]
    · rw [if_neg here]
      by_cases inA : m < A.length
      · simp [inA]
      · rw [if_neg inA, if_neg inA, if_neg (by omega), if_neg (by omega)]

theorem View.insert (v : View geo node (A ++ B)) (free : (A ++ B).length < geo.noPairs)
    (len : e.1.length = geo.keylen) :
    View geo (Btree.setval geo (Btree.setkeyb geo
      (shiftUp geo node (A.length + 1) A.length B.length) e.1
      A.length) e.2 A.length) (A ++ e :: B) where
  room := by
    simp only [List.length_append, List.length_cons] at free ⊢
    omega
  pairs m hm := by
    rw [List.length_append] at free
    rw [pair_set _ len (by omega) hm, pair_shiftUp node (by omega) (by omega) hm]
    simp only [getD_append, getD_cons]
    by_cases here : m = A.length
    · simp [here]
    · rw [if_neg here]
      by_cases moved : A.length + 1 ≤ m ∧ m < A.length + 1 + B.length
      · rw [if_pos moved, v.pairs _ (by omega), getD_append, if_neg (by omega), if_neg (by omega),
          if_neg (by omega), show m - (A.length + 1) + A.length - A.length = m - A.length - 1 by omega]
      · rw [if_neg moved, v.pairs m hm, getD_append]
        by_cases inA : m < A.length
        · rw [if_pos inA, if_pos inA]
        · rw [if_neg inA, if_neg inA, if_neg
            (by omega), getD_past _ _ (by omega), getD_past _ _ (by omega)]

theorem View.remove (v : View geo node (A ++ e :: B)) :
    View geo (clearpair geo (shiftDown geo node A.length (A.length + 1) B.length)
      (A.length + B.length))
      (A ++ B) where
  room := by
    have room := v.room
    simp only [List.length_append, List.length_cons] at room ⊢
    omega
  pairs m hm := by
    have room := v.room
    rw [List.length_append, List.length_cons] at room
    rw [pair_clearpair _ (by omega) hm, pair_shiftDown node (by omega) (by omega) hm, getD_append]
    by_cases last : m = A.length + B.length
    · rw [if_pos last, if_neg (by omega), getD_past _ _ (by omega)]
    · rw [if_neg last]
      by_cases moved : A.length ≤ m ∧ m < A.length + B.length
      · rw [if_pos moved,
          v.pairs _ (by omega), getD_append, if_neg (by omega), getD_cons, if_neg (by omega),
          if_neg (by omega), show m - A.length + (A.length + 1) - A.length - 1 = m - A.length by omega]
      · rw [if_neg moved, v.pairs m hm, getD_append]
        by_cases inA : m < A.length
        · rw [if_pos inA, if_pos inA]
        · rw [if_neg inA, if_neg inA, getD_past _ _ (by simp; omega), getD_past _ _ (by omega)]

/-! ### Moving pairs between nodes -/

theorem View.copy (v : View geo l L) (w : View geo r (A ++ M ++ B))
    (room : (L ++ M).length ≤ geo.noPairs) :
    View geo (copyPairs geo l L.length r A.length M.length) (L ++ M) where
  room := room
  pairs m hm := by
    have roomR := w.room
    simp only [List.length_append] at room roomR
    rw [pair_copyPairs l r room hm, getD_append]
    by_cases moved : L.length ≤ m ∧ m < L.length + M.length
    · rw [if_pos moved,
        w.pairs _ (by omega), List.append_assoc, getD_append, if_neg (by omega), getD_append,
        if_pos (by omega), if_neg (by omega), Nat.add_sub_cancel]
    · rw [if_neg moved, v.pairs m hm]
      by_cases inL : m < L.length
      · rw [if_pos inL]
      · rw [if_neg inL, getD_past _ _ (by omega), getD_past _ _ (by omega)]

theorem View.prepend (v : View geo r R) (w : View geo l (L ++ M))
    (room : (M ++ R).length ≤ geo.noPairs)
    (some : M ≠ []) :
    View geo (copyPairs geo (shiftUp geo r M.length 0 R.length) 0 l L.length M.length)
      (M ++ R) where
  room := room
  pairs m hm := by
    have pos := List.length_pos_iff.mpr some
    have roomL := w.room
    simp only [List.length_append] at room roomL
    rw [pair_copyPairs _ l (by omega) hm, pair_shiftUp r pos room hm, getD_append]
    by_cases inM : m < M.length
    · rw [if_pos (by omega), if_pos inM, w.pairs _ (by omega), getD_append, if_neg (by omega),
        show m - 0 + L.length - L.length = m by omega]
    · rw [if_neg (by omega), if_neg inM]
      by_cases moved : m < M.length + R.length
      · rw [if_pos (by omega), v.pairs _ (by omega), Nat.add_zero]
      · rw [if_neg (by omega), v.pairs m hm, getD_past _ _ (by omega), getD_past _ _ (by omega)]

theorem View.dropRight (w : View geo l (L ++ M)) :
    View geo (clearPairs geo l L.length M.length) L where
  room := by
    have room := w.room
    rw [List.length_append] at room
    omega
  pairs m hm := by
    have room := w.room
    rw [List.length_append] at room
    rw [pair_clearPairs l room hm, w.pairs m hm, getD_append]
    by_cases inL : m < L.length
    · rw [if_neg (by omega), if_pos inL]
    · rw [getD_past L _ (by omega)]
      by_cases cleared : m < L.length + M.length
      · rw [if_pos (by omega)]
      · rw [if_neg (by omega), if_neg inL, getD_past _ _ (by omega)]

theorem View.dropLeft (v : View geo r (M ++ R)) (some : M ≠ []) :
    View geo (clearPairs geo (shiftDown geo r 0 M.length R.length) R.length M.length) R where
  room := by
    have room := v.room
    rw [List.length_append] at room
    omega
  pairs m hm := by
    have pos := List.length_pos_iff.mpr some
    have room := v.room
    rw [List.length_append] at room
    rw [pair_clearPairs _ (by omega) hm, pair_shiftDown r pos room hm]
    by_cases inR : m < R.length
    · rw [if_neg (by omega), if_pos (by omega), v.pairs _ (by omega), getD_append, if_neg (by omega),
        show m - 0 + M.length - M.length = m by omega]
    · rw [getD_past R _ (by omega)]
      by_cases cleared : m < R.length + M.length
      · rw [if_pos (by omega)]
      · rw [if_neg (by omega), if_neg (by omega), v.pairs m hm, getD_past _ _ (by simp; omega)]

/-! ### Splitting a full node -/

theorem View.splitNew (v : View geo node (L ++ M)) (fits : L.length + L.length ≤ geo.noPairs) :
    View geo (splitLoop geo L.length (fun _ => 0) node 0 L.length).1 L where
  room := by omega
  pairs m hm := by
    have zero : View geo (fun _ => 0) [] := view_zero
    rw [pair_splitLoop_new _ node (by omega) fits hm, v.pairs m hm, getD_append,
      zero.pairs m hm, getD_nil]
    by_cases inL : m < L.length
    · rw [if_pos (by omega), if_pos inL]
    · rw [if_neg (by omega), getD_past _ _ (by omega)]

def splitRest (geo : Geo) (old : Node) : Node :=
  if geo.noPairs % 2 = 1 then
    clearpair geo (copyPair geo old (geo.noPairs / 2) old (geo.noPairs - 1)) (geo.noPairs - 1)
  else old

theorem View.splitOld (v : View geo node (L ++ M)) (new : Node) (half : L.length = geo.noPairs / 2)
    (full : (L ++ M).length = geo.noPairs) :
    View geo (splitRest geo (splitLoop geo L.length new node 0 L.length).2) M where
  room := by
    have room := v.room
    rw [List.length_append] at room
    omega
  pairs m hm := by
    have four := geo.four
    rw [List.length_append] at full
    have loop : ∀ k < geo.noPairs, pair geo (splitLoop geo L.length new node 0 L.length).2 k =
        if k < L.length then M.getD k (emptyPair geo)
        else if k < L.length + L.length then emptyPair geo
        else M.getD (k - L.length) (emptyPair geo) := by
      intro k hk
      rw [pair_splitLoop_node new node (by omega) (by omega) hk]
      by_cases low : k < L.length
      · rw [if_pos (by omega), if_pos low, v.pairs _ (by omega), getD_append, if_neg (by omega),
          Nat.add_sub_cancel]
      · rw [if_neg (by omega), if_neg low]
        by_cases cleared : k < L.length + L.length
        · rw [if_pos (by omega), if_pos cleared]
        · rw [if_neg (by omega), if_neg cleared, v.pairs k hk, getD_append, if_neg low]
    unfold splitRest
    by_cases odd : geo.noPairs % 2 = 1
    · rw [if_pos odd, pair_clearpair _ (by omega) hm, pair_copyPair _ _ (by omega) hm,
        loop _ (by omega), loop m hm]
      by_cases last : m = geo.noPairs - 1
      · rw [if_pos last, getD_past _ _ (by omega)]
      · rw [if_neg last]
        by_cases middle : m = geo.noPairs / 2
        · rw [if_pos middle, if_neg (by omega), if_neg (by omega),
            show geo.noPairs - 1 - L.length = m by omega]
        · rw [if_neg middle]
          by_cases low : m < L.length
          · rw [if_pos low]
          · rw [if_neg low, if_pos (by omega), getD_past _ _ (by omega)]
    · rw [if_neg odd, loop m hm]
      by_cases low : m < L.length
      · rw [if_pos low]
      · rw [if_neg low, if_pos (by omega), getD_past _ _ (by omega)]

end View
end Btree
