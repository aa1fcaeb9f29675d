import CommonLib.Rbtree.Runs

/- `ngx_rbtree_min` and `ngx_rbtree_next`: from the first node to the last, in order. -/
namespace Rbtree
open SearchTree

def firstAddr (cells : List Cell) : Nat := (cells.head?.map (addr ·)).getD 0

section Next
variable {t : Tree} {nil top : Nat} {path : Path Cell} {u l r : Shape} {x : Cell}

theorem climb_holds {fuel : Nat} (h : Holds t nil top path u) (there : u ≠ .nil)
    (enough : path.length < fuel) : climb t fuel (ptr nil u) = some (firstAddr (after path)) := by
  induction path generalizing u fuel with
  | nil =>
    obtain ⟨fuel, rfl⟩ : ∃ k, fuel = k + 1 := ⟨fuel - 1, by omega⟩
    simp [climb, h.parent there, h.at_root, after, firstAddr]
  | cons step path ih =>
    obtain ⟨s, x, rest⟩ := step
    rw [List.length_cons] at enough
    obtain ⟨fuel, rfl⟩ : ∃ k, fuel = k + 1 := ⟨fuel - 1, by omega⟩
    have below : ptr nil u ≠ t.root := fun same => absurd (h.at_root.mp same) (by simp)
    cases s with
    | left =>
      have links := child_eq h.above
      simp [climb, h.parent there, up, below, links, after, firstAddr]
    | right =>
      have links := child_eq h.above
      rw [Side.other] at links
      have other := h.ptr_ne (.inl there)
      have outer := ih (holds_up.mp h) (join_ne_nil _ _ _ _) (Nat.lt_of_succ_lt_succ enough)
      rw [ptr_join] at outer
      simp [climb, h.parent there, up, below, links, other, after, outer]

/-- The next node in order, or NULL behind the last. -/
theorem next_holds {fuel : Nat} (h : Holds t nil top path (.node x l r))
    (enough : (plug path (.node x l r)).height < fuel) :
    next fuel t (addr x) = some (firstAddr (inorder r ++ after path)) := by
  have high := length_le_height path (.node x l r)
  rw [BinaryTree.height] at high
  obtain ⟨_, atRight, _, isNil⟩ := h.children
  by_cases none : r = .nil
  · subst none
    have up := climb_holds h (by simp) (show path.length < fuel by omega)
    rw [ptr] at up
    simp [next, atRight, ptr, h.sentinel, up, inorder]
  · obtain ⟨z, a, b, rfl⟩ : ∃ z a b, r = .node z a b := by
      cases r with
      | nil => exact absurd rfl none
      | node z a b => exact ⟨z, a, b, rfl⟩
    have inner : Holds t nil top (⟨.right, x, l⟩ :: path) (.node z a b) := holds_up.mpr h
    obtain ⟨way, y, rest, same, leftmost, run⟩ :=
      min_holds inner (show (BinaryTree.node z a b).height ≤ fuel by omega)
    have other : addr z ≠ nil := fun wrong => none (isNil.mp wrong)
    rw [ptr] at atRight
    have first : firstAddr (inorder (.node z a b) ++ after path) = addr y := by
      rw [same, inorder_plug, before_leftmost leftmost]
      rfl
    simp [next, atRight, h.sentinel, other, run, first]

end Next

def visit (fuel : Nat) (t : Tree) : Nat → Nat → Option (List Nat)
  | 0, node => if node = 0 then some [] else none
  | n + 1, node =>
    if node = 0 then some []
    else do return node :: (← visit fuel t n (← next fuel t node))

section Visit
variable {t : Tree} {nil top fuel : Nat} {whole : Shape} {cells : List Cell}

theorem visit_holds {n : Nat} (h : Holds t nil top [] whole) (null : 0 ∉ addrs whole)
    (enough : whole.height < fuel) {front : List Cell} (split : inorder whole = front ++ cells)
    (many : cells.length ≤ n) :
    visit fuel t n (firstAddr cells) = some (cells.map (addr ·)) := by
  induction cells generalizing n front with
  | nil => cases n <;> rfl
  | cons x cells ih =>
    rw [List.length_cons] at many
    obtain ⟨n, rfl⟩ : ∃ k, n = k + 1 := ⟨n - 1, by omega⟩
    obtain ⟨path, l, r, rfl, behind⟩ := exists_place split
    have there : addr x ≠ 0 := by
      intro same
      refine null (same ▸ List.mem_map_of_mem ?_)
      rw [split]
      exact List.mem_append_right _ List.mem_cons_self
    have step := next_holds (holds_plug.mpr h) enough
    rw [behind] at step
    have split' : inorder (plug path (.node x l r)) = (front ++ [x]) ++ cells := by simpa using split
    have rest := ih split' (Nat.le_of_succ_le_succ many)
    rw [show firstAddr (x :: cells) = addr x from rfl, visit, if_neg there, step]
    simp [rest]

theorem min_root (h : Holds t nil top [] whole) (there : whole ≠ .nil)
    (enough : whole.height ≤ fuel) : min t fuel t.root = some (firstAddr (inorder whole)) := by
  have root := h.root
  cases whole with
  | nil => exact absurd rfl there
  | node x l r =>
    obtain ⟨way, y, rest, same, leftmost, run⟩ := min_holds h enough
    rw [root, plug, ptr, run, same, inorder_plug, before_leftmost leftmost]
    rfl

theorem applied_there {less : BitVec 64 → BitVec 64 → Bool} {mem : Mem} {s : Nat}
    {es : List Entry} {calls : List Call} (proper : Proper less mem s es calls)
    (there : ∀ e ∈ es, (mem e.addr).isSome) :
    (∀ e ∈ calls.foldl (apply less) es, (mem e.addr).isSome) ∧
      (calls.foldl (apply less) es).length ≤ es.length + calls.length := by
  induction calls generalizing es with
  | nil => exact ⟨there, Nat.le_refl _⟩
  | cons c calls ih =>
    obtain ⟨now, later⟩ := proper
    have there' : ∀ e ∈ apply less es c, (mem e.addr).isSome := by
      intro e member
      cases c with
      | insert q key =>
        rcases addr_apply member with same | old
        · rw [same]
          exact now.1
        · exact there e old
      | delete q => exact there e (List.mem_filter.mp member).1
    obtain ⟨all, short⟩ := ih later there'
    have grows := length_apply less es c
    refine ⟨all, ?_⟩
    rw [List.foldl_cons, List.length_cons]
    omega

/-- After a run with `ngx_rbtree_insert_value` that leaves a node in the tree, `ngx_rbtree_min` and
    then `ngx_rbtree_next` lead once through all the nodes, in the order of their keys, and to NULL.
    In an empty tree `ngx_rbtree_min` reads the left link of the sentinel, which nothing has set. -/
theorem visit_insertValue {mem : Mem} {s : Nat} {calls : List Call} (null : mem 0 = none)
    (sentinel : (mem s).isSome) (proper : Proper keyLess mem s [] calls)
    (enough : 2 * Nat.log 2 (calls.length + 1) < fuel)
    (nonempty : calls.foldl (apply keyLess) [] ≠ []) :
    ∃ t first, run insertValue fuel mem s calls = some t ∧ min t fuel t.root = some first ∧
      visit fuel t calls.length first =
        some ((calls.foldl (apply keyLess) []).map (·.addr)) := by
  obtain ⟨t, top, whole, step, holds, redBlack, same, _⟩ := run_insertValue sentinel proper enough
  obtain ⟨there, short⟩ := applied_there proper (by simp)
  have size : whole.numNodes = (calls.foldl (apply keyLess) []).length := by
    rw [← same, entries, List.length_map, length_inorder]
  have low : whole.height < fuel := by
    refine lt_of_le_of_lt redBlack.height (lt_of_le_of_lt (Nat.mul_le_mul_left 2
      (Nat.log_mono_right ?_)) enough)
    simp at short
    omega
  have filled : whole ≠ .nil := by
    rintro rfl
    exact nonempty same.symm
  have nowhere : 0 ∉ addrs whole := by
    rw [addrs_entries, same]
    intro member
    obtain ⟨e, inside, zero⟩ := List.mem_map.mp member
    have wrong := there e inside
    rw [zero, null] at wrong
    cases wrong
  refine ⟨t, _, step, min_root holds filled low.le, ?_⟩
  have many : (inorder whole).length ≤ calls.length := by
    rw [length_inorder, size]
    simpa using short
  rw [visit_holds holds nowhere low (List.nil_append _).symm many, ← same]
  simp [entries, addr_eq]

theorem visit_insertValue_sample : ∃ t first,
    run insertValue 9 sampleMem 9 sampleCalls = some t ∧ min t 9 t.root = some first ∧
      visit 9 t 5 first = some [1, 3, 2] :=
  visit_insertValue rfl (by decide) sample_proper sample_fuel (by decide)

end Visit

end Rbtree
