import CommonLib.Btree.Operations
import Mathlib.Data.List.Lex
import Mathlib.Data.List.GetD
import Mathlib.Order.Basic
import Mathlib.Tactic.Ring

/- What the words of a node say, pair by pair: every statement and every loop of the
   code is a rewriting of pairs, and the pairs a node holds come before the empty ones. -/
namespace Btree

theorem longcmp_spec (a b : Key) (same : a.length = b.length) :
    (longcmp a b = 0 ↔ a = b) ∧ (longcmp a b < 0 ↔ a < b) := by
  induction a generalizing b with
  | nil =>
    cases b with
    | nil => simp [longcmp]
    | cons y b => simp at same
  | cons x a ih =>
    cases b with
    | nil => simp at same
    | cons y b =>
      have step := ih b (by simpa using same)
      unfold longcmp
      rcases Nat.lt_trichotomy x y with lt | rfl | gt
      · simp [lt, Nat.ne_of_lt lt, List.cons_lt_cons_iff]
      · simpa [List.cons_lt_cons_iff] using step
      · simp [gt, Nat.lt_asymm gt, (Nat.ne_of_lt gt).symm, List.cons_lt_cons_iff]

theorem zero_le_key (a : Key) : List.replicate a.length 0 ≤ a := by
  induction a with
  | nil => exact le_rfl
  | cons x a ih =>
    rw [List.length_cons, List.replicate_succ]
    rcases Nat.eq_zero_or_pos x with rfl | pos
    · exact List.cons_le_cons 0 ih
    · exact (List.cons_lt_cons_iff.mpr (.inl pos)).le

section Words
variable {geo : Geo}

@[simp] theorem bkey_length (node : Node) (n : Nat) : (bkey geo node n).length = geo.keylen := by
  simp [bkey]

@[simp] theorem zeroKey_length : (zeroKey geo).length = geo.keylen := by simp [zeroKey]

theorem keycmp_zero (node : Node) (n : Nat) {key : Key} (len : key.length = geo.keylen) :
    keycmp geo node n key = 0 ↔ bkey geo node n = key :=
  (longcmp_spec _ _ (by simp [len])).1

theorem keycmp_le (node : Node) (n : Nat) {key : Key} (len : key.length = geo.keylen) :
    keycmp geo node n key ≤ 0 ↔ bkey geo node n ≤ key := by
  obtain ⟨zero, neg⟩ := longcmp_spec (bkey geo node n) key (by simp [len])
  have order : bkey geo node n ≤ key ↔ bkey geo node n < key ∨ bkey geo node n = key :=
    le_iff_lt_or_eq
  unfold keycmp
  rw [order, ← zero, ← neg]
  omega

/-! ### One statement -/

theorem bkey_setkeyb (node : Node) (key : Key) (n m : Nat) (len : key.length = geo.keylen) :
    bkey geo (setkeyb geo node key n) m = if m = n then key else bkey geo node m := by
  have pos := geo.someKey
  by_cases same : m = n
  · subst same
    rw [if_pos rfl]
    apply List.ext_getElem
    · simp [len]
    · intro j h1 h2
      have hj : j < geo.keylen := by simpa [bkey] using h1
      simp only [bkey, setkeyb, List.getElem_map, List.getElem_range]
      rw [if_pos (by omega), Nat.add_sub_cancel_left]
      simp [h2]
  · rw [if_neg same]
    unfold bkey
    refine List.map_congr_left fun j hj => ?_
    have hj := List.mem_range.mp hj
    unfold setkeyb
    rw [if_neg]
    rintro ⟨low, high⟩
    rcases Nat.lt_or_gt_of_ne same with lt | gt
    · have := Nat.mul_le_mul_right geo.keylen (show m + 1 ≤ n by omega)
      rw [Nat.add_mul] at this
      omega
    · have := Nat.mul_le_mul_right geo.keylen (show n + 1 ≤ m by omega)
      rw [Nat.add_mul] at this
      omega

theorem key_below_vals {n : Nat} (hn : n < geo.noPairs) :
    n * geo.keylen + geo.keylen ≤ geo.noPairs * geo.keylen := by
  have := Nat.mul_le_mul_right geo.keylen (show n + 1 ≤ geo.noPairs by omega)
  rw [Nat.add_mul] at this
  omega

theorem bval_setkeyb (node : Node) (key : Key) {n : Nat} (hn : n < geo.noPairs) (m : Nat) :
    bval geo (setkeyb geo node key n) m = bval geo node m := by
  have := key_below_vals hn
  unfold bval setkeyb
  rw [if_neg (by omega)]

theorem bkey_setval (node : Node) (val n : Nat) {m : Nat} (hm : m < geo.noPairs) :
    bkey geo (setval geo node val n) m = bkey geo node m := by
  have := key_below_vals hm
  unfold bkey setval
  refine List.map_congr_left fun j hj => ?_
  have hj := List.mem_range.mp hj
  rw [Function.update_of_ne (by omega)]

theorem bval_setval (node : Node) (val n m : Nat) :
    bval geo (setval geo node val n) m = if m = n then val else bval geo node m := by
  unfold bval setval
  by_cases same : m = n
  · rw [same, if_pos rfl, Function.update_self]
  · rw [if_neg same, Function.update_of_ne (by omega)]

/-! ### Pairs -/

abbrev Entry := Key × Nat

def pair (geo : Geo) (node : Node) (n : Nat) : Entry := (bkey geo node n, bval geo node n)

def emptyPair (geo : Geo) : Entry := (zeroKey geo, 0)

theorem pair_setkeyb (node : Node) {key : Key} {n m : Nat} (len : key.length = geo.keylen)
    (hn : n < geo.noPairs) :
    pair geo (setkeyb geo node key n) m = if m =
        n then (key, bval geo node n) else pair geo node m := by
  unfold pair
  rw [bkey_setkeyb node key n m len, bval_setkeyb node key hn]
  by_cases same : m = n
  · simp [same]
  · simp [same]

theorem pair_setval (node : Node) {val n m : Nat} (hm : m < geo.noPairs) :
    pair geo (setval geo node val n) m = if m =
        n then (bkey geo node n, val) else pair geo node m := by
  unfold pair
  rw [bkey_setval node val n hm, bval_setval]
  by_cases same : m = n
  · simp [same]
  · simp [same]

theorem pair_set (node : Node) {key : Key} {val n m : Nat} (len : key.length = geo.keylen)
    (hn : n < geo.noPairs) (hm : m < geo.noPairs) :
    pair geo (setval geo (setkeyb geo node key n) val n) m = if m =
        n then (key, val) else pair geo node m := by
  rw [pair_setval _ hm, bkey_setkeyb node key n n len, pair_setkeyb node len hn]
  by_cases same : m = n
  · simp [same]
  · simp [same]

theorem pair_copyPair (dst src : Node) {i j m : Nat} (hi : i < geo.noPairs) (hm : m < geo.noPairs) :
    pair geo (copyPair geo dst i src j) m = if m = i then pair geo src j else pair geo dst m :=
  pair_set dst (bkey_length src j) hi hm

theorem pair_clearpair (node : Node) {n m : Nat} (hn : n < geo.noPairs) (hm : m < geo.noPairs) :
    pair geo (clearpair geo node n) m = if m = n then emptyPair geo else pair geo node m :=
  pair_set node zeroKey_length hn hm

/-! ### Loops -/

theorem pair_copyPairs (dst src : Node) {i j n m : Nat} (room : i + n ≤ geo.noPairs)
    (hm : m < geo.noPairs) :
    pair geo (copyPairs geo dst i src j n) m =
      if i ≤ m ∧ m < i + n then pair geo src (m - i + j) else pair geo dst m := by
  induction n generalizing dst i j with
  | zero => rw [copyPairs, if_neg (by omega)]
  | succ n ih =>
    rw [copyPairs, ih _ (by omega), pair_copyPair dst src (by omega) hm]
    by_cases here : m = i
    · rw [if_neg (by omega), if_pos here, if_pos (by omega), here, Nat.sub_self, Nat.zero_add]
    · rw [if_neg here]
      by_cases later : i + 1 ≤ m ∧ m < i + 1 + n
      · rw [if_pos later, if_pos (by omega), show m - (i + 1) + (j + 1) = m - i + j by omega]
      · rw [if_neg later, if_neg (by omega)]

theorem pair_shiftDown (node : Node) {i j n m : Nat} (apart : i < j) (room : j + n ≤ geo.noPairs)
    (hm : m < geo.noPairs) :
    pair geo (shiftDown geo node i j n) m =
      if i ≤ m ∧ m < i + n then pair geo node (m - i + j) else pair geo node m := by
  induction n generalizing node i j with
  | zero => rw [shiftDown, if_neg (by omega)]
  | succ n ih =>
    rw [shiftDown, ih _ (by omega) (by omega)]
    by_cases later : i + 1 ≤ m ∧ m < i + 1 + n
    · rw [if_pos later, pair_copyPair node node
        (by omega) (by omega), if_neg (by omega), if_pos (by omega),
        show m - (i + 1) + (j + 1) = m - i + j by omega]
    · rw [if_neg later, pair_copyPair node node (by omega) hm]
      by_cases here : m = i
      · rw [if_pos here, if_pos (by omega), here, Nat.sub_self, Nat.zero_add]
      · rw [if_neg here, if_neg (by omega)]

theorem pair_shiftUp (node : Node) {i j n m : Nat} (apart : j < i) (room : i + n ≤ geo.noPairs)
    (hm : m < geo.noPairs) :
    pair geo (shiftUp geo node i j n) m =
      if i ≤ m ∧ m < i + n then pair geo node (m - i + j) else pair geo node m := by
  induction n generalizing node with
  | zero => rw [shiftUp, if_neg (by omega)]
  | succ n ih =>
    rw [shiftUp, ih _ (by omega)]
    by_cases earlier : i ≤ m ∧ m < i + n
    · rw [if_pos earlier, pair_copyPair node node (by omega) (by omega), if_neg (by omega),
        if_pos (by omega)]
    · rw [if_neg earlier, pair_copyPair node node (by omega) hm]
      by_cases here : m = i + n
      · rw [if_pos here, if_pos (by omega), here, Nat.add_sub_cancel_left, Nat.add_comm]
      · rw [if_neg here, if_neg (by omega)]

theorem pair_clearPairs (node : Node) {i n m : Nat} (room : i + n ≤ geo.noPairs)
    (hm : m < geo.noPairs) :
    pair geo (clearPairs geo node i n) m =
      if i ≤ m ∧ m < i + n then emptyPair geo else pair geo node m := by
  induction n generalizing node i with
  | zero => rw [clearPairs, if_neg (by omega)]
  | succ n ih =>
    rw [clearPairs, ih _ (by omega), pair_clearpair node (by omega) hm]
    by_cases here : m = i
    · rw [if_neg (by omega), if_pos here, if_pos (by omega)]
    · rw [if_neg here]
      by_cases later : i + 1 ≤ m ∧ m < i + 1 + n
      · rw [if_pos later, if_pos (by omega)]
      · rw [if_neg later, if_neg (by omega)]

theorem pair_splitLoop_new (new node : Node) {half i n m : Nat} (room : i + n ≤ half)
    (fits : half + half ≤ geo.noPairs) (hm : m < geo.noPairs) :
    pair geo (splitLoop geo half new node i n).1 m =
      if i ≤ m ∧ m < i + n then pair geo node m else pair geo new m := by
  induction n generalizing new node i with
  | zero => rw [splitLoop, if_neg (by omega)]
  | succ n ih =>
    rw [splitLoop, ih _ _ (by omega)]
    by_cases later : i + 1 ≤ m ∧ m < i + 1 + n
    · rw [if_pos later, if_pos (by omega), pair_clearpair _ (by omega) hm, if_neg (by omega),
        pair_copyPair _ _ (by omega) hm, if_neg (by omega)]
    · rw [if_neg later, pair_copyPair _ _ (by omega) hm]
      by_cases here : m = i
      · rw [if_pos here, if_pos (by omega), here]
      · rw [if_neg here, if_neg (by omega)]

theorem pair_splitLoop_node (new node : Node) {half i n m : Nat} (room : i + n ≤ half)
    (fits : half + half ≤ geo.noPairs) (hm : m < geo.noPairs) :
    pair geo (splitLoop geo half new node i n).2 m =
      if i ≤ m ∧ m < i + n then pair geo node (m + half)
      else if i + half ≤ m ∧ m < i + half + n then emptyPair geo
      else pair geo node m := by
  induction n generalizing new node i with
  | zero => rw [splitLoop, if_neg (by omega), if_neg (by omega)]
  | succ n ih =>
    have step : ∀ k < geo.noPairs, pair geo
      (clearpair geo (copyPair geo node i node (i + half)) (i + half)) k =
        if k = i + half then emptyPair geo else if k =
            i then pair geo node (i + half) else pair geo node k := by
      intro k hk
      rw [pair_clearpair _ (by omega) hk, pair_copyPair _ _ (by omega) hk]
    rw [splitLoop, ih _ _ (by omega)]
    by_cases later : i + 1 ≤ m ∧ m < i + 1 + n
    · rw [if_pos later, step _ (by omega), if_neg (by omega), if_neg (by omega), if_pos (by omega)]
    · rw [if_neg later]
      by_cases cleared : i + 1 + half ≤ m ∧ m < i + 1 + half + n
      · rw [if_pos cleared, if_neg (by omega), if_pos (by omega)]
      · rw [if_neg cleared, step _ hm]
        by_cases atHalf : m = i + half
        · rw [if_pos atHalf, if_neg (by omega), if_pos (by omega)]
        · rw [if_neg atHalf]
          by_cases here : m = i
          · rw [if_pos here, if_pos (by omega), here]
          · rw [if_neg here, if_neg (by omega), if_neg (by omega)]

end Words
end Btree
