import CommonLib.Rbtree.Moves

/- The loop after a removal, which brings the missing black node back. -/
namespace Rbtree
open SearchTree

section Refill
variable {t : Tree} {nil top q : Nat} {path : Path Cell} {s : Side} {v w near far a b : Shape}
  {p x : Cell}

theorem Becomes.parent {t' : Tree} {whole : Shape} (becomes : Becomes t whole t' nil top path v)
    (out : nil ∉ addrs whole) (above : t.parent (ptr nil v) = some q) (same : up top path = q) :
    t'.parent (ptr nil v) = some q := by
  by_cases none : v = .nil
  · subst none
    rw [Tree.parent, Tree.get, ptr, becomes.kept nil out]
    exact above
  · rw [becomes.holds.parent none, same]

theorem blackSibling_red {e : Entry}
    (h : Holds t nil top (⟨s, p, join s near ⟨true, e⟩ far⟩ :: path) v)
    (above : t.parent (ptr nil v) = some (addr p)) :
    ∃ t', blackSibling s t (ptr nil v) e.addr = some (t', ptr nil near) ∧
      Becomes t (plug (⟨s, p, join s near ⟨true, e⟩ far⟩ :: path) v) t' nil top
        (⟨s, ⟨true, p.item⟩, near⟩ :: ⟨s, ⟨false, e⟩, far⟩ :: path) v := by
  obtain ⟨t1, step1, b1⟩ := setRed_beside h (join_ne_nil _ _ _ _) false
  rw [paint_join] at b1
  obtain ⟨t2, step2, b2⟩ := setRed_above b1.holds true
  obtain ⟨t3, step3, b3⟩ := rotate_holds (holds_up.mp b2.holds)
  have b12 := b1.trans b2
  have b123 := b12.trans b3
  have focus : Becomes t (plug (⟨s, p, join s near ⟨true, e⟩ far⟩ :: path) v) t3 nil top
      (⟨s, ⟨true, p.item⟩, near⟩ :: ⟨s, ⟨false, e⟩, far⟩ :: path) v :=
    becomes_up.mpr (becomes_up.mpr b123)
  have red := h.beside.isRed
  rw [redRoot_join, ptr_join, addr_item] at red
  rw [ptr_join, addr_item] at step1
  have above1 := b1.parent h.out_plug above rfl
  have above2 := b12.parent h.out_plug above rfl
  have above3 := focus.parent h.out_plug above rfl
  rw [addr_repaint] at step3
  refine ⟨t3, ?_, focus⟩
  simp [blackSibling, red, step1, above1, step2, above2, step3, above3,
    child_eq (p := addr p) focus.holds.above]

theorem blackSibling_black (h : Holds t nil top (⟨s, p, w⟩ :: path) v) (black : redRoot w = false) :
    blackSibling s t (ptr nil v) (ptr nil w) = some (t, ptr nil w) := by
  simp [blackSibling, h.beside.isRed, black]

theorem blackChildren_eq (h : Holds t nil top path (join s near x far)) :
    blackChildren t (addr x) = some (!redRoot near && !redRoot far) := by
  have links := child_eq h.cell
  have inner : Holds t nil top (⟨s, x, far⟩ :: path) near := holds_up.mpr h
  have nearRed := inner.isRed
  have farRed := inner.beside.isRed
  cases s with
  | left =>
    rw [Side.other] at links
    simp only [blackChildren, links, nearRed, farRed, Option.bind_eq_bind, Option.bind_some]
    cases redRoot near <;> rfl
  | right =>
    rw [Side.other] at links
    simp only [blackChildren, links, nearRed, farRed, Option.bind_eq_bind, Option.bind_some]
    cases redRoot near <;> cases redRoot far <;> rfl

theorem redNephew_near {e : Entry} {red : Bool}
    (h : Holds t nil top (⟨s, p, join s (join s a ⟨red, e⟩ b) x far⟩ :: path) v)
    (above : t.parent (ptr nil v) = some (addr p)) (black : redRoot far = false) :
    ∃ t', redNephew s t (ptr nil v) (addr x) = some (t', e.addr) ∧
      Becomes t (plug (⟨s, p, join s (join s a ⟨red, e⟩ b) x far⟩ :: path) v) t' nil top
        (⟨s, p, join s a ⟨false, e⟩ (join s b ⟨true, x.item⟩ far)⟩ :: path) v := by
  have sibling := h.beside
  have inner : Holds t nil top (⟨s, x, far⟩ :: ⟨s.other, p, v⟩ :: path) (join s a ⟨red, e⟩ b) :=
    holds_up.mpr sibling
  obtain ⟨t1, step1, b1⟩ := setRed_holds inner (join_ne_nil _ _ _ _) false
  rw [paint_join] at b1
  obtain ⟨t2, step2, b2⟩ := setRed_above b1.holds true
  have turned : Holds t2 nil top (⟨s.other, p, v⟩ :: path)
      (join s.other far ⟨true, x.item⟩ (join s.other b ⟨false, e⟩ a)) := by
    rw [join_other, join_other]
    exact holds_up.mp b2.holds
  obtain ⟨t3, step3, b3⟩ := rotate_holds turned
  rw [join_other, join_other, join_other, join_other] at b3
  have b123 := (b1.trans b2).trans b3
  rw [plug, plug_beside] at b123
  have focus := b123.beside
  have above3 := focus.parent h.out_plug above rfl
  have cell : t.mem (addr x) = some (seen s x e.addr (ptr nil far) (addr p)) := by
    simpa [up, addr_item] using sibling.cell
  have farRed := inner.beside.isRed
  rw [ptr_join, addr_item] at step1
  rw [addr_repaint] at step3
  refine ⟨t3, ?_, focus⟩
  simp [redNephew, child_eq cell, farRed, black, step1, step2, step3, above3,
    child_eq focus.holds.above, addr_item]

theorem redNephew_far (h : Holds t nil top (⟨s, p, join s near x far⟩ :: path) v)
    (red : redRoot far = true) :
    redNephew s t (ptr nil v) (addr x) = some (t, addr x) := by
  have inner : Holds t nil top (⟨s, x, far⟩ :: ⟨s.other, p, v⟩ :: path) near :=
    holds_up.mpr h.beside
  simp [redNephew, child_eq inner.above, inner.beside.isRed, red]

theorem rotateParent_eq (h : Holds t nil top (⟨s, p, join s near x far⟩ :: path) v)
    (above : t.parent (ptr nil v) = some (addr p)) (red : redRoot far = true) :
    ∃ t', rotateParent s t (ptr nil v) (addr x) = some t' ∧
      Becomes t (plug (⟨s, p, join s near x far⟩ :: path) v) t' nil top path
        (join s (join s v ⟨false, p.item⟩ near) ⟨p.red, x.item⟩ (paint false far)) := by
  have there : far ≠ .nil := by
    rintro rfl
    cases red
  obtain ⟨t1, step1, b1⟩ := setRed_beside h (join_ne_nil _ _ _ _) p.red
  rw [paint_join] at b1
  rw [ptr_join] at step1
  obtain ⟨t2, step2, b2⟩ := setRed_above b1.holds false
  have b12 := b1.trans b2
  have inner : Holds t2 nil top (⟨s, ⟨p.red, x.item⟩, far⟩ ::
      ⟨s.other, ⟨false, p.item⟩, v⟩ :: path) near := holds_up.mpr b2.holds.beside
  obtain ⟨t3, step3, b3⟩ := setRed_beside inner there false
  have b3' := becomes_up.mp b3
  rw [plug, plug_beside] at b3'
  have b123 := b12.trans b3'.beside
  obtain ⟨t4, step4, b4⟩ := rotate_holds (holds_up.mp b123.holds)
  have above1 := b1.parent h.out_plug above rfl
  have above3 := b123.parent h.out_plug above rfl
  rw [addr_repaint] at step4
  refine ⟨t4, ?_, b123.trans b4⟩
  simp [rotateParent, Tree.copyColor, above, isRed_eq h.above, step1, above1, step2,
    child_eq (p := addr x) inner.above, step3, above3, step4]

theorem refillBlack_holds (h : Holds t nil top (⟨s, p, w⟩ :: path) v)
    (above : t.parent (ptr nil v) = some (addr p)) (lacking : Lacking (⟨s, p, w⟩ :: path) v)
    (black : redRoot v = false) (blackW : redRoot w = false) :
    ∃ t' path' v', refillBlack s t (ptr nil v) (ptr nil w) = some (t', ptr nil v') ∧ v' ≠ .nil ∧
      Becomes t (plug (⟨s, p, w⟩ :: path) v) t' nil top path' v' ∧ Lacking path' v' ∧
      (path' = [] ∨ path' = path ∧ redRoot v' = p.red) := by
  obtain ⟨_, near, ⟨red, e⟩, far, rfl, _⟩ := lacking.sibling black
  obtain rfl : red = false := (redRoot_join s near far ⟨red, e⟩).symm.trans blackW
  have children := blackChildren_eq h.beside
  rw [addr_item] at children
  rw [ptr_join, addr_item]
  by_cases both : redRoot near = false ∧ redRoot far = false
  · obtain ⟨nearBlack, farBlack⟩ := both
    obtain ⟨t1, step1, b1⟩ := setRed_beside h (join_ne_nil _ _ _ _) true
    rw [paint_join] at b1
    rw [ptr_join, addr_item] at step1
    have above1 := b1.parent h.out_plug above rfl
    refine ⟨t1, path, _, ?_, join_ne_nil _ _ _ _, becomes_up.mp b1,
      lacking.blackNephews black nearBlack farBlack, .inr ⟨rfl, redRoot_join ..⟩⟩
    simp [refillBlack, children, nearBlack, farBlack, step1, above1]
  · have one : (!redRoot near && !redRoot far) = false := by
      cases nearRed : redRoot near <;> cases farRed : redRoot far <;> simp_all
    have run : refillBlack s t (ptr nil v) e.addr =
        (redNephew s t (ptr nil v) e.addr).bind fun r =>
          (rotateParent s r.1 (ptr nil v) r.2).map fun t => (t, t.root) := by
      simp [refillBlack, children, one, Option.map_eq_bind]
    -- the rotation of the parent ends the repair
    have last : ∀ {t1 : Tree} {a b : Shape} {e' : Entry},
        redNephew s t (ptr nil v) e.addr = some (t1, e'.addr) →
        Becomes t (plug (⟨s, p, join s near ⟨false, e⟩ far⟩ :: path) v) t1 nil top
          (⟨s, p, join s a ⟨false, e'⟩ b⟩ :: path) v →
        Lacking (⟨s, p, join s a ⟨false, e'⟩ b⟩ :: path) v → redRoot b = true →
        ∃ t' path' v', refillBlack s t (ptr nil v) e.addr = some (t', ptr nil v') ∧ v' ≠ .nil ∧
          Becomes t (plug (⟨s, p, join s near ⟨false, e⟩ far⟩ :: path) v) t' nil top path' v' ∧
          Lacking path' v' ∧ (path' = [] ∨ path' = path ∧ redRoot v' = p.red) := by
      intro t1 a b e' step1 b1 lacking1 red
      have above1 := b1.parent h.out_plug above rfl
      obtain ⟨t2, step2, b2⟩ := rotateParent_eq b1.holds above1 red
      have b12 := b1.trans b2
      have whole := holds_plug.mp b12.holds
      refine ⟨t2, [], _, ?_, ?_, ⟨whole, b12.entries, b12.kept⟩,
        (lacking1.farNephew black red).lacking, .inl rfl⟩
      · have root := whole.root
        rw [plug] at root
        rw [addr_item] at step2
        simp [run, step1, step2, root]
      · intro none
        have member := places_plug.mem_iff.mp (List.mem_append_left (addrsAround path)
          (ptr_mem nil (join_ne_nil s (join s v ⟨false, p.item⟩ a) ⟨p.red, e'⟩
            (paint false b))))
        rw [none] at member
        cases member
    cases farRed : redRoot far with
    | true => exact last (redNephew_far h farRed) (Becomes.refl h) lacking farRed
    | false =>
      have nearRed : redRoot near = true := by
        cases nearRed : redRoot near with
        | true => rfl
        | false => exact absurd ⟨nearRed, farRed⟩ both
      obtain ⟨⟨red, e'⟩, l, r, rfl⟩ : ∃ x l r, near = .node x l r := by
        cases near with
        | nil => cases nearRed
        | node x l r => exact ⟨x, l, r, rfl⟩
      obtain rfl : red = true := nearRed
      obtain ⟨a, b, same⟩ := exists_join s ⟨true, e'⟩ l r
      rw [same] at h lacking last ⊢
      obtain ⟨t1, step1, b1⟩ := redNephew_near h above farRed
      exact last step1 b1 (lacking.nearNephew black farRed) (redRoot_join ..)

theorem refillStep_holds (h : Holds t nil top (⟨s, p, w⟩ :: path) v)
    (above : t.parent (ptr nil v) = some (addr p)) (lacking : Lacking (⟨s, p, w⟩ :: path) v)
    (black : redRoot v = false) :
    ∃ t' path' v', refillStep s t (ptr nil v) = some (t', ptr nil v') ∧ v' ≠ .nil ∧
      Becomes t (plug (⟨s, p, w⟩ :: path) v) t' nil top path' v' ∧ Lacking path' v' ∧
      (path' = [] ∨ redRoot v' = true ∨ path' = path) := by
  have run : refillStep s t (ptr nil v) =
      (blackSibling s t (ptr nil v) (ptr nil w)).bind fun r =>
        refillBlack s r.1 (ptr nil v) r.2 := by
    simp [refillStep, above, child_eq h.above]
  cases blackW : redRoot w with
  | false =>
    obtain ⟨t', path', v', step, there, becomes, lacking', last⟩ :=
      refillBlack_holds h above lacking black blackW
    refine ⟨t', path', v', ?_, there, becomes, lacking', last.imp id fun same => .inr same.1⟩
    rw [run, blackSibling_black h blackW]
    exact step
  | true =>
    obtain ⟨_, near, ⟨red, e⟩, far, rfl, _⟩ := lacking.sibling black
    obtain rfl : red = true := (redRoot_join s near far ⟨red, e⟩).symm.trans blackW
    obtain ⟨t1, step1, b1⟩ := blackSibling_red h above
    have above1 := b1.parent h.out_plug above rfl
    have lacking1 := lacking.redSibling black
    obtain ⟨_, _, z, _, same, _, _, redCase, _⟩ := lacking1.sibling black
    have nearBlack : redRoot near = false := by
      rw [same, redRoot_join]
      exact (redCase rfl).1
    obtain ⟨t2, path', v', step2, there, b2, lacking2, last⟩ :=
      refillBlack_holds b1.holds above1 lacking1 black nearBlack
    refine ⟨t2, path', v', ?_, there, b1.trans b2, lacking2, ?_⟩
    · rw [run, ptr_join, addr_item, step1]
      exact step2
    · exact last.imp id fun done => .inl done.2

/-- The loop ends with a red-black tree of the same entries. -/
theorem refill_holds (fuel : Nat) (h : Holds t nil top path v)
    (above : t.parent (ptr nil v) = some (up top path)) (there : v ≠ .nil ∨ path ≠ [])
    (lacking : Lacking path v) (enough : (if redRoot v then 0 else path.length) < fuel) :
    ∃ t' whole, refill t fuel (ptr nil v) = some t' ∧
      Becomes t (plug path v) t' nil top [] whole ∧ RedBlack whole := by
  induction fuel generalizing t path v with
  | zero => exact absurd enough (Nat.not_lt_zero _)
  | succ fuel ih =>
    have last : v ≠ .nil → refill t (fuel + 1) (ptr nil v) = t.setRed (ptr nil v) false →
        (path = [] ∨ redRoot v = true) →
        ∃ t' whole, refill t (fuel + 1) (ptr nil v) = some t' ∧
          Becomes t (plug path v) t' nil top [] whole ∧ RedBlack whole := by
      intro inside run stop
      obtain ⟨t', step, b⟩ := setRed_holds h inside false
      exact ⟨t', _, run.trans step, ⟨holds_plug.mp b.holds, b.entries, b.kept⟩, lacking.done stop⟩
    match path with
    | [] =>
      refine last (there.resolve_right (by simp)) ?_ (.inl rfl)
      simp [refill, h.at_root]
    | ⟨s, p, w⟩ :: path =>
      have below : ptr nil v ≠ t.root := fun same => absurd (h.at_root.mp same) (by simp)
      cases red : redRoot v with
      | true =>
        refine last ?_ ?_ (.inr red)
        · rintro rfl
          cases red
        · simp [refill, below, h.isRed, red]
      | false =>
        have sibling : w ≠ .nil := by
          obtain ⟨_, near, z, far, rfl, _⟩ := lacking.sibling red
          exact join_ne_nil _ _ _ _
        obtain ⟨left, atLeft, side⟩ := h.side (.inr sibling)
        obtain ⟨t1, path', v', step, there', b1, lacking1, next⟩ :=
          refillStep_holds h above lacking red
        have pass : refill t (fuel + 1) (ptr nil v) = refill t1 fuel (ptr nil v') := by
          rw [up] at above
          simp [refill, below, h.isRed, red, above, atLeft, side, step]
        have enough' : (if redRoot v' then 0 else path'.length) < fuel := by
          rw [red, if_neg Bool.false_ne_true, List.length_cons] at enough
          rcases next with rfl | red' | rfl
          · simp only [List.length_nil, ite_self]
            omega
          · rw [red', if_pos rfl]
            omega
          · split <;> omega
        obtain ⟨t2, whole, run, b2, redBlack⟩ :=
          ih b1.holds (b1.holds.parent there') (.inl there') lacking1 enough'
        exact ⟨t2, whole, pass.trans run, b1.trans b2, redBlack⟩

end Refill

end Rbtree
