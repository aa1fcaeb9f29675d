import CommonLib.Rbtree.Moves

/- `ngx_rbtree_insert`: the way down, the leaf, and the loop that repairs the colours. -/
namespace Rbtree
open SearchTree

section Rebalance
variable {t : Tree} {nil top n : Nat} {path : Path Cell} {s s' : Side} {v a b c u : Shape}
  {p g x : Cell}

theorem rebalanceStep_red (h : Holds t nil top (⟨s, p, a⟩ :: ⟨s', g, u⟩ :: path) v)
    (there : v ≠ .nil) (red : redRoot u = true) :
    ∃ t', rebalanceStep s' t (ptr nil v) = some (t', addr g) ∧
      Becomes t (plug (⟨s, p, a⟩ :: ⟨s', g, u⟩ :: path) v) t' nil top path
        (join s' (join s v ⟨false, p.item⟩ a) ⟨true, g.item⟩ (paint false u)) := by
  have uncle : u ≠ .nil := by
    rintro rfl
    cases red
  have atParent := holds_up.mp h
  obtain ⟨t1, step1, b1⟩ := setRed_above h false
  obtain ⟨t2, step2, b2⟩ := setRed_beside (holds_up.mp b1.holds) uncle false
  obtain ⟨t3, step3, b3⟩ := setRed_above b2.holds true
  have b12 := b1.trans b2
  have b123 := b12.trans b3
  have h2 := holds_up.mpr b2.holds
  have h3 := holds_up.mpr b3.holds
  have run : rebalanceStep s' t (ptr nil v) = some (t3, addr g) := by
    simp [rebalanceStep, h.parent there, up, parent_eq h.above, child_eq atParent.above,
      atParent.beside.isRed, red, step1, step2, h2.parent there, parent_eq (p := addr p) h2.above,
      step3, h3.parent there, parent_eq (p := addr p) h3.above]
  exact ⟨t3, run, becomes_up.mp b123⟩

theorem straighten_inner
    (h : Holds t nil top (⟨s.other, p, a⟩ :: ⟨s, g, u⟩ :: path) (join s b x c)) :
    ∃ t', straighten s t (addr x) = some (t', addr p) ∧
      Becomes t (plug (⟨s.other, p, a⟩ :: ⟨s, g, u⟩ :: path) (join s b x c)) t' nil top
        (⟨s, x, c⟩ :: ⟨s, g, u⟩ :: path) (join s a p b) := by
  have atParent := holds_up.mp h
  rw [join_other] at atParent
  obtain ⟨t', step, becomes⟩ := rotate_holds atParent
  refine ⟨t', ?_, ?_⟩
  · have above := child_eq h.above
    simp [straighten, parent_eq h.cell, up, above, step]
  · rw [plug, join_other]
    exact becomes_up.mpr becomes

theorem straighten_outer (h : Holds t nil top (⟨s, p, a⟩ :: ⟨s, g, u⟩ :: path) v)
    (there : v ≠ .nil) : straighten s t (ptr nil v) = some (t, ptr nil v) := by
  simp [straighten, h.parent there, up, child_eq h.above, h.ptr_ne (.inl there)]

theorem rotateGrand_eq (h : Holds t nil top (⟨s, p, a⟩ :: ⟨s, g, u⟩ :: path) v)
    (there : v ≠ .nil) :
    ∃ t', rotateGrand s t (ptr nil v) = some t' ∧
      Becomes t (plug (⟨s, p, a⟩ :: ⟨s, g, u⟩ :: path) v) t' nil top path
        (join s v ⟨false, p.item⟩ (join s a ⟨true, g.item⟩ u)) := by
  obtain ⟨t1, step1, b1⟩ := setRed_above h false
  obtain ⟨t2, step2, b2⟩ := setRed_above (holds_up.mp b1.holds) true
  have h1 := b1.holds
  have h1' := holds_up.mp h1
  have h2 := holds_up.mpr b2.holds
  have h2' := holds_up.mp b2.holds
  have turned : Holds t2 nil top path (join s.other u ⟨true, g.item⟩
      (join s.other a ⟨false, p.item⟩ v)) := by
    rw [join_other, join_other]
    exact h2'
  obtain ⟨t3, step3, b3⟩ := rotate_holds turned
  have b12 := b1.trans b2
  rw [join_other, join_other, join_other, join_other] at b3
  have b123 := b12.trans b3
  refine ⟨t3, ?_, b123⟩
  rw [addr_repaint] at step3
  simp [rotateGrand, h.parent there, up, step1, h1.parent there, parent_eq (p := addr p) h1.above,
    step2, h2.parent there, parent_eq (p := addr p) h2.above, step3]

theorem rebalanceStep_black {e : Entry}
    (h : Holds t nil top (⟨s', ⟨true, e⟩, a⟩ :: ⟨s, g, u⟩ :: path) v)
    (raised : Raised n (⟨s', ⟨true, e⟩, a⟩ :: ⟨s, g, u⟩ :: path) v) (black : redRoot u = false) :
    ∃ t' v' e' w, rebalanceStep s t (ptr nil v) = some (t', ptr nil v') ∧ v' ≠ .nil ∧
      Becomes t (plug (⟨s', ⟨true, e⟩, a⟩ :: ⟨s, g, u⟩ :: path) v) t' nil top
        (⟨s, ⟨false, e'⟩, w⟩ :: path) v' ∧
      RedBlack (plug (⟨s, ⟨false, e'⟩, w⟩ :: path) v') := by
  have there : v ≠ .nil := by
    rintro rfl
    exact nomatch raised.red
  have atParent := holds_up.mp h
  have run : rebalanceStep s t (ptr nil v) =
      (straighten s t (ptr nil v)).bind fun r => (rotateGrand s r.1 r.2).map fun t => (t, r.2) := by
    simp [rebalanceStep, h.parent there, up, parent_eq h.above, child_eq atParent.above,
      atParent.beside.isRed, black, Option.map_eq_bind]
  by_cases side : s' = s
  · subst side
    obtain ⟨t', step, becomes⟩ := rotateGrand_eq h there
    refine ⟨t', v, e, _, ?_, there, becomes_up.mpr becomes, raised.top black⟩
    simp [run, straighten_outer h there, step]
  · have opposite : s' = s.other := by
      cases s <;> cases s' <;> simp_all [Side.other]
    subst opposite
    obtain ⟨⟨red, i⟩, l, r, rfl⟩ : ∃ x l r, v = .node x l r := by
      cases v with
      | nil => exact absurd rfl there
      | node x l r => exact ⟨x, l, r, rfl⟩
    cases (raised.red : red = true)
    obtain ⟨b, c, same⟩ := exists_join s ⟨true, i⟩ l r
    rw [same] at h raised run ⊢
    obtain ⟨t1, step1, b1⟩ := straighten_inner h
    obtain ⟨t2, step2, b2⟩ := rotateGrand_eq b1.holds (join_ne_nil _ _ _ _)
    refine ⟨t2, _, i, _, ?_, join_ne_nil _ _ _ _, becomes_up.mpr (b1.trans b2),
      raised.turn.top black⟩
    rw [ptr_join] at step2
    rw [run, ptr_join, ptr_join, step1]
    simp [step2]

theorem rebalance_below_black {e : Entry} {w : Shape} {fuel : Nat}
    (h : Holds t nil top (⟨s, ⟨false, e⟩, w⟩ :: path) v) (there : v ≠ .nil) :
    rebalance t (fuel + 1) (ptr nil v) = some t := by
  have below : ptr nil v ≠ t.root := fun same => absurd (h.at_root.mp same) (by simp)
  simp [rebalance, below, h.parent there, up, isRed_eq h.above]

/-- The loop ends with a red-black tree of the same entries, but for the colour of the root. -/
theorem rebalance_holds (fuel : Nat) (h : Holds t nil top path v) (raised : Raised n path v)
    (enough : path.length < fuel) :
    ∃ t' whole, rebalance t fuel (ptr nil v) = some t' ∧
      Becomes t (plug path v) t' nil top [] whole ∧ RedBlack (paint false whole) := by
  induction fuel generalizing t path v n with
  | zero => exact absurd enough (Nat.not_lt_zero _)
  | succ fuel ih =>
    have there : v ≠ .nil := by
      rintro rfl
      exact nomatch raised.red
    match path with
    | [] =>
      refine ⟨t, v, ?_, Becomes.refl h, raised.at_top⟩
      simp [rebalance, h.at_root]
    | ⟨s, ⟨false, e⟩, a⟩ :: path =>
      refine ⟨t, _, rebalance_below_black h there, ⟨holds_plug.mp h, rfl, Kept.refl _ t⟩, ?_⟩
      rw [paint_black raised.below_black.1]
      exact raised.below_black
    | ⟨s, ⟨true, e⟩, a⟩ :: path =>
      obtain ⟨_, _, s', i, u, above, rfl, _, _⟩ := raised.grand
      have below : ptr nil v ≠ t.root := fun same => absurd (h.at_root.mp same) (by simp)
      have atParent := holds_up.mp h
      obtain ⟨left, atLeft, side⟩ := atParent.side (.inl (join_ne_nil _ _ _ _))
      rw [ptr_join] at side
      have pass : rebalance t (fuel + 1) (ptr nil v) =
          (rebalanceStep s' t (ptr nil v)).bind fun r => rebalance r.1 fuel r.2 := by
        simp [rebalance, below, h.parent there, up, isRed_eq h.above, parent_eq h.above, atLeft,
          side]
      cases red : redRoot u with
      | true =>
        obtain ⟨t1, step, b1⟩ := rebalanceStep_red h there red
        have enough' : above.length < fuel := by
          simp only [List.length_cons] at enough
          omega
        obtain ⟨t2, whole, rest, b2, redBlack⟩ := ih b1.holds (raised.recolour red) enough'
        refine ⟨t2, whole, ?_, b1.trans b2, redBlack⟩
        rw [ptr_join] at rest
        rw [pass, step]
        exact rest
      | false =>
        obtain ⟨t1, v', e', w, step, there', b1, redBlack⟩ := rebalanceStep_black h raised red
        obtain ⟨fuel, rfl⟩ : ∃ k, fuel = k + 1 := ⟨fuel - 1, by simp at enough; omega⟩
        refine ⟨t1, _, ?_, ⟨holds_plug.mp b1.holds, b1.entries, b1.kept⟩, ?_⟩
        · rw [pass, step]
          exact rebalance_below_black b1.holds there'
        · rw [paint_black redBlack.1]
          exact redBlack

end Rebalance

section Leaf
variable {t : Tree} {nil top q : Nat} {path : Path Cell} {s : Side} {u rest : Shape} {x : Cell}
  {node : Node} {less : BitVec 64 → BitVec 64 → Bool}

theorem descend_pass {fuel p : Nat} {cell : Node} (here : t.get q = some node)
    (there : t.get p = some cell)
    (side : (if less node.key cell.key then Side.left else Side.right) = s) :
    descend less t q (fuel + 1) p =
      if cell.child s = t.sentinel then some (p, s) else descend less t q fuel (cell.child s) := by
  simp [descend, here, there, side, Tree.child]

theorem descend_holds (less : BitVec 64 → BitVec 64 → Bool) {fuel : Nat} (h : Holds t nil top path u) (there : u ≠ .nil)
    (here : t.get q = some node) (enough : u.height ≤ fuel) :
    ∃ s x rest above,
      SearchTree.descend (fun c => less node.key c.item.key) u path = ⟨s, x, rest⟩ :: above ∧
        descend less t q fuel (ptr nil u) = some (addr x, s) := by
  induction u generalizing path fuel with
  | nil => exact absurd rfl there
  | node x l r hl hr =>
    rw [BinaryTree.height] at enough
    obtain ⟨fuel, rfl⟩ : ∃ k, fuel = k + 1 := ⟨fuel - 1, by omega⟩
    have cell : t.get (addr x) = some (seen .left x (ptr nil l) (ptr nil r) (up top path)) :=
      h.inner.1
    have left : Holds t nil top (⟨.left, x, r⟩ :: path) l := holds_up.mpr h
    have right : Holds t nil top (⟨.right, x, l⟩ :: path) r := holds_up.mpr h
    have nilL := ptr_eq_nil (t := l) fun member => left.out (List.mem_append_left _ member)
    have nilR := ptr_eq_nil (t := r) fun member => right.out (List.mem_append_left _ member)
    rw [SearchTree.descend, ptr]
    cases side : less node.key x.item.key with
    | true =>
      rw [descend_pass (s := .left) here cell (by simp [side]), seen_child, h.sentinel, if_pos rfl]
      by_cases none : l = .nil
      · rw [if_pos (nilL.mpr none), none]
        exact ⟨.left, x, r, path, rfl, rfl⟩
      · rw [if_neg fun same => none (nilL.mp same)]
        exact hl left none (by omega)
    | false =>
      rw [descend_pass (s := .right) here cell (by simp [side]), h.sentinel,
        if_neg Bool.false_ne_true]
      have far : (seen .left x (ptr nil l) (ptr nil r) (up top path)).child .right = ptr nil r :=
        seen_child_other ..
      rw [far]
      by_cases none : r = .nil
      · rw [if_pos (nilR.mpr none), none]
        exact ⟨.right, x, l, path, rfl, rfl⟩
      · rw [if_neg fun same => none (nilR.mp same)]
        exact hr right none (by omega)

def leaf (q : Nat) (key : BitVec 64) : Shape := .node ⟨true, ⟨q, key⟩⟩ .nil .nil

theorem addrs_leaf (q : Nat) (key : BitVec 64) : addrs (leaf q key) = [q] := rfl

theorem hangLeaf_holds (h : Holds t nil top (⟨s, x, rest⟩ :: path) .nil) (here : t.get q = some node)
    (fresh : q ∉ addrs (plug (⟨s, x, rest⟩ :: path) .nil)) (out : q ≠ nil) :
    ∃ t', hangLeaf s t (addr x) q = some t' ∧
      Holds t' nil top (⟨s, x, rest⟩ :: path) (leaf q node.key) ∧
      Kept (q :: addrs (plug (⟨s, x, rest⟩ :: path) .nil)) t t' := by
  rw [← places_plug.mem_iff, addrs_nil, List.nil_append, addrsAround_cons] at fresh
  have apart := h.apart
  have nilOut := h.out
  rw [addrs_nil, List.nil_append, addrsAround_cons] at apart nilOut
  obtain ⟨xFresh, inside⟩ := List.nodup_cons.mp apart
  simp only [List.mem_cons, List.mem_append, not_or] at fresh xFresh nilOut
  obtain ⟨t1, step1, X1⟩ := setChild_near h.above q
  have Q1 := (X1.other q (by grind)).trans here
  obtain ⟨t2, step2, Q2⟩ := setParent_wrote Q1 (addr x)
  obtain ⟨t3, step3, Q3⟩ := setChild_wrote Q2.here .left nil
  obtain ⟨t4, step4, Q4⟩ := setChild_wrote Q3.here .right nil
  obtain ⟨t5, step5, Q5⟩ := setRed_wrote Q4.here true
  have untouched : ∀ p, p ≠ q → p ≠ addr x → t5.mem p = t.mem p := by
    intro p notQ notX
    rw [Q5.other p notQ, Q4.other p notQ, Q3.other p notQ, Q2.other p notQ, X1.other p notX]
  have X5 : t5.mem (addr x) = some (seen s x q (ptr nil rest) (up top path)) := by
    rw [Q5.other _ (by grind), Q4.other _ (by grind), Q3.other _ (by grind),
      Q2.other _ (by grind), X1.here]
  have same3 : t3.sentinel = nil :=
    Q3.sentinel.trans (Q2.sentinel.trans (X1.sentinel.trans h.sentinel))
  have same2 : t2.sentinel = nil := Q2.sentinel.trans (X1.sentinel.trans h.sentinel)
  have run : hangLeaf s t (addr x) q = some t5 := by
    simp [hangLeaf, step1, step2, same2, step3, same3, step4, step5]
  obtain ⟨_, beside, outer⟩ := h.ctx
  refine ⟨t5, run, ⟨⟨?_, ⟨?_, ?_, ?_⟩, ?_, ?_⟩, ?_, ?_, ?_⟩, ?_⟩
  · exact ⟨Q5.here, trivial, trivial⟩
  · exact X5
  · exact beside.congr fun p member => untouched p (by grind) (by grind)
  · exact outer.congr fun p member => untouched p (by grind) (by grind)
  · rw [addrs_leaf, List.singleton_append, List.nodup_cons, addrsAround_cons]
    exact ⟨by simp only [List.mem_cons, List.mem_append, not_or]; grind, apart⟩
  · rw [addrs_leaf, List.singleton_append, addrsAround_cons]
    simp only [List.mem_cons, List.mem_append, not_or]
    grind
  · rw [Q5.sentinel, Q4.sentinel, same3]
  · rw [Q5.root, Q4.root, Q3.root, Q2.root, X1.root, h.root]
    exact ptr_plug (by simp) _ _
  · rw [Tree.isRed, Tree.get, untouched _ (by grind) (by grind)]
    exact h.black
  · intro p outside
    rw [List.mem_cons, ← places_plug.mem_iff, addrs_nil, List.nil_append, addrsAround_cons,
      not_or] at outside
    exact untouched p outside.1 (by grind)

theorem insert_empty {insertAt : Nat → Tree → Nat → Nat → Option Tree} {fuel : Nat}
    (h : Holds t nil top [] .nil) (here : t.get q = some node) (out : q ≠ nil) :
    ∃ t' top' whole', insert insertAt fuel t q = some t' ∧ Holds t' nil top' [] whole' ∧
      RedBlack whole' ∧ entries whole' = entries (leaf q node.key) ∧ Kept [q] t t' := by
  obtain ⟨t1, step1, Q1⟩ := setParent_wrote here 0
  obtain ⟨t2, step2, Q2⟩ := setChild_wrote Q1.here .left nil
  obtain ⟨t3, step3, Q3⟩ := setChild_wrote Q2.here .right nil
  obtain ⟨t4, step4, Q4⟩ := setRed_wrote Q3.here false
  have same1 : t1.sentinel = nil := Q1.sentinel.trans h.sentinel
  have same2 : t2.sentinel = nil := Q2.sentinel.trans same1
  have untouched : ∀ p, p ≠ q → t4.mem p = t.mem p := by
    intro p notQ
    rw [Q4.other p notQ, Q3.other p notQ, Q2.other p notQ, Q1.other p notQ]
  have empty : t.root = t.sentinel := by rw [h.root, h.sentinel, plug, ptr]
  refine ⟨{ t4 with root := q }, 0, .node ⟨false, ⟨q, node.key⟩⟩ .nil .nil, ?_,
    ⟨⟨⟨Q4.here, trivial, trivial⟩, trivial, ?_, ?_⟩, ?_, rfl, ?_⟩, ⟨rfl, 1, .black .nil .nil⟩, rfl, ?_⟩
  · simp [insert, empty, step1, same1, step2, same2, step3, step4]
  · exact List.nodup_singleton q
  · simpa [addrs, inorder, addrsAround, around, addr_item] using out.symm
  · exact Q4.sentinel.trans (Q3.sentinel.trans same2)
  · rw [Tree.isRed, Tree.get, untouched _ out.symm]
    exact h.black
  · exact fun p outside => untouched p fun same => outside (by simp [same])

/-- A node is put where the comparison leads to, and the colours are right again. -/
theorem insert_holds (less : BitVec 64 → BitVec 64 → Bool) {whole : Shape} {fuel : Nat} (h : Holds t nil top [] whole)
    (redBlack : RedBlack whole) (here : t.get q = some node) (fresh : q ∉ addrs whole)
    (out : q ≠ nil) (enough : 2 * Nat.log 2 (whole.numNodes + 1) < fuel) :
    ∃ t' top' whole', insert (insertBy less) fuel t q = some t' ∧ Holds t' nil top' [] whole' ∧
      RedBlack whole' ∧
      entries whole' = entries (plug (SearchTree.descend (fun c => less node.key c.item.key) whole [])
        (leaf q node.key)) ∧
      Kept (q :: addrs whole) t t' := by
  by_cases none : whole = .nil
  · subst none
    exact insert_empty h here out
  · obtain ⟨s, x, rest, above, place, way⟩ := descend_holds less h none here
      (redBlack.height.trans enough.le)
    have same : plug (⟨s, x, rest⟩ :: above) .nil = whole := by
      rw [← place, plug_descend, plug]
    subst same
    have hPlace : Holds t nil top (⟨s, x, rest⟩ :: above) .nil := holds_plug.mpr h
    obtain ⟨t1, step1, h1, kept1⟩ := hangLeaf_holds hPlace here fresh out
    have raised : Raised 0 (⟨s, x, rest⟩ :: above) (leaf q node.key) := by
      obtain ⟨n, balanced, admits⟩ := redBlack.at
      cases balanced
      exact ⟨.red .nil rfl .nil rfl, rfl, admits⟩
    have short := length_le_height (⟨s, x, rest⟩ :: above) (.nil : Shape)
    have high := redBlack.height
    obtain ⟨t2, whole, step2, b2, black⟩ := rebalance_holds fuel h1 raised (by omega)
    have leaf_places : (addrs (plug (⟨s, x, rest⟩ :: above) (leaf q node.key))).Perm
        (q :: addrs (plug (⟨s, x, rest⟩ :: above) .nil)) :=
      places_plug.symm.trans (places_plug.cons q)
    have there : whole ≠ .nil := by
      rintro rfl
      have order := congrArg (List.map (·.addr)) b2.entries
      rw [← addrs_entries, ← addrs_entries] at order
      have member : q ∈ addrs (plug [] .nil : Shape) := by
        rw [order, leaf_places.mem_iff]
        exact List.mem_cons_self
      simp [plug, addrs, inorder] at member
    obtain ⟨t3, step3, b3⟩ := setRed_holds b2.holds there false
    have b23 := b2.trans b3
    have rooted : t.root ≠ t.sentinel := by
      rw [h.root, h.sentinel, plug]
      exact fun wrong => none ((ptr_eq_nil fun member => h.out (List.mem_append_left _ member)).mp
        wrong)
    have root2 : t2.root = ptr nil whole := b2.holds.root
    have root : ptr nil (plug (⟨s, x, rest⟩ :: above) .nil) = t.root := h.root.symm
    rw [root] at way
    refine ⟨t3, top, paint false whole, ?_, b23.holds, black, ?_, ?_⟩
    · rw [show ptr nil (leaf q node.key) = q from rfl] at step2
      simp [insert, rooted, insertBy, way, step1, step2, root2, step3]
    · rw [place]
      exact b23.entries
    · refine kept1.trans (b23.kept.mono fun p member => ?_)
      rwa [← leaf_places.mem_iff]

end Leaf

end Rbtree
