import CommonLib.Rbtree.Shape

/- What one write, a new link and a rotation do to a tree in memory. -/
namespace Rbtree
open SearchTree

structure Wrote (t : Tree) (p : Nat) (node : Node) (t' : Tree) : Prop where
  here : t'.mem p = some node
  root : t'.root = t.root
  sentinel : t'.sentinel = t.sentinel
  other : ∀ q, q ≠ p → t'.mem q = t.mem q

theorem Wrote.kept {t t' : Tree} {p : Nat} {node : Node} (wrote : Wrote t p node t') :
    Kept [p] t t' :=
  fun q outside => wrote.other q fun same => outside (by simp [same])

section Writes
variable {t : Tree} {p parent near far : Nat} {s : Side} {x : Cell} {node : Node}

theorem modify_wrote {f : Node → Node} (here : t.mem p = some node) :
    ∃ t', t.modify p f = some t' ∧ Wrote t p (f node) t' := by
  refine ⟨t.put p (f node), ?_, Function.update_self .., rfl, rfl,
    fun q other => Function.update_of_ne other ..⟩
  rw [Tree.modify, Tree.get, here]
  rfl

theorem setChild_wrote (here : t.mem p = some node) (s : Side) (q : Nat) :
    ∃ t', t.setChild p s q = some t' ∧ Wrote t p (node.setChild s q) t' := modify_wrote here

theorem setParent_wrote (here : t.mem p = some node) (q : Nat) :
    ∃ t', t.setParent p q = some t' ∧ Wrote t p { node with parent := q } t' := modify_wrote here

theorem setRed_wrote (here : t.mem p = some node) (red : Bool) :
    ∃ t', t.setRed p red = some t' ∧ Wrote t p { node with red := red } t' := modify_wrote here

theorem setChild_near (here : t.mem p = some (seen s x near far parent)) (q : Nat) :
    ∃ t', t.setChild p s q = some t' ∧ Wrote t p (seen s x q far parent) t' := by
  cases s <;> exact modify_wrote here

theorem setChild_far (here : t.mem p = some (seen s x near far parent)) (q : Nat) :
    ∃ t', t.setChild p s.other q = some t' ∧ Wrote t p (seen s x near q parent) t' := by
  cases s <;> exact modify_wrote here

theorem setParent_eq (here : t.mem p = some (seen s x near far parent)) (q : Nat) :
    ∃ t', t.setParent p q = some t' ∧ Wrote t p (seen s x near far q) t' := by
  cases s <;> exact modify_wrote here

theorem setRed_eq (here : t.mem p = some (seen s x near far parent)) (red : Bool) :
    ∃ t', t.setRed p red = some t' ∧ Wrote t p (seen s (⟨red, x.item⟩ : Cell) near far parent) t' := by
  cases s <;> exact modify_wrote here

end Writes

section Links
variable {t : Tree} {nil top parent hole node : Nat} {s : Side} {u : Shape} {path : Path Cell}

theorem adopt_sub (same : t.sentinel = nil) (links : Sub t.mem nil parent u)
    (apart : (addrs u).Nodup) (out : nil ∉ addrs u) (node : Nat) :
    ∃ t', adopt t (ptr nil u) node = some t' ∧ t'.sentinel = nil ∧ Sub t'.mem nil node u ∧
      t'.root = t.root ∧ Kept (addrs u) t t' := by
  cases u with
  | nil => exact ⟨t, if_neg (by simp [ptr, same]), same, trivial, rfl, Kept.refl _ t⟩
  | node x l r =>
    obtain ⟨root, left, right⟩ := links
    have inside : addr x ∈ addrs (.node x l r) := ptr_mem 0 (by simp)
    have other : ptr nil (.node x l r) ≠ t.sentinel := by
      rintro wrong
      rw [same] at wrong
      exact out (by rw [← wrong]; exact inside)
    have below : addr x ∉ addrs l ++ addrs r :=
      (List.nodup_cons.mp ((addrs_join (s := .left)).nodup_iff.mp apart)).1
    obtain ⟨t', step, wrote⟩ := setParent_eq root node
    refine ⟨t', (if_pos other).trans step, wrote.sentinel.trans same, ⟨wrote.here, ?_, ?_⟩,
      wrote.root, wrote.kept.mono ?_⟩
    · exact left.congr fun a member => wrote.other a (by grind)
    · exact right.congr fun a member => wrote.other a (by grind)
    · simpa using inside

theorem relink_eq {s' : Side} {x : Cell} {p far : Nat}
    (here : t.mem p = some (seen s' x hole far parent)) (other : hole ≠ far) (new : Nat) :
    ∃ t', relink s t p hole new = some t' ∧ Wrote t p (seen s' x new far parent) t' := by
  obtain ⟨t', step, wrote⟩ := setChild_near here new
  refine ⟨t', ?_, wrote⟩
  by_cases side : s = s'
  · subst side
    simp [relink, child_eq here, step]
  · have opposite : s = s'.other := by
      cases s <;> cases s' <;> simp_all [Side.other]
    subst opposite
    simp [relink, child_eq here, other, step]

theorem relink_ctx {step : Step Cell} (links : Ctx t.mem nil top hole (step :: path))
    (apart : (hole :: addrsAround (step :: path)).Nodup) (out : hole ≠ nil) (new : Nat) :
    ∃ t', relink s t (addr step.root) hole new = some t' ∧ t'.sentinel = t.sentinel ∧
      Ctx t'.mem nil top new (step :: path) ∧ t'.root = t.root ∧
      Kept [(addr step.root)] t t' := by
  obtain ⟨s', x, rest⟩ := step
  obtain ⟨root, beside, outer⟩ := links
  obtain ⟨fresh, inside⟩ := List.nodup_cons.mp apart
  rw [addrsAround_cons] at fresh inside
  obtain ⟨above, _⟩ := List.nodup_cons.mp inside
  have other : hole ≠ ptr nil rest :=
    ptr_ne (fun member => fresh (List.mem_cons_of_mem _ (List.mem_append_left _ member))) out
  obtain ⟨t', run, wrote⟩ := relink_eq (s := s) root other new
  refine ⟨t', run, wrote.sentinel, ⟨wrote.here, ?_, ?_⟩, wrote.root, wrote.kept⟩
  · exact beside.congr fun q member => wrote.other q (by grind)
  · exact outer.congr fun q member => wrote.other q (by grind)

theorem hang_ctx (links : Ctx t.mem nil top hole path) (root : t.root = ptr nil (plug path u))
    (same : hole = ptr nil u) (above : t.parent hole = some (up top path))
    (apart : (hole :: addrsAround path).Nodup) (out : hole ≠ nil) (new : Nat) :
    ∃ t', hang s t hole new = some t' ∧ t'.sentinel = t.sentinel ∧ Ctx t'.mem nil top new path ∧
      t'.root = (if path = [] then new else t.root) ∧ Kept (addrsAround path) t t' := by
  cases path with
  | nil =>
    have atRoot : hole = t.root := same.trans root.symm
    exact ⟨{ t with root := new }, if_pos atRoot, rfl, trivial, rfl, fun _ _ => rfl⟩
  | cons step path =>
    have below : hole ≠ t.root := by
      intro wrong
      have member := root_mem (List.cons_ne_nil step path) nil u
      rw [← root, ← wrong] at member
      exact (List.nodup_cons.mp apart).1 member
    obtain ⟨t', run, same', links', root', kept⟩ := relink_ctx (s := s) links apart out new
    refine ⟨t', ?_, same', links', root'.trans (if_neg (by simp)).symm, kept.mono ?_⟩
    · rw [hang, if_neg below, above]
      exact run
    · rw [addrsAround_cons]
      simp

end Links

section Rotation
variable {t : Tree} {nil top : Nat} {path : Path Cell} {s : Side} {a b c : Shape} {x y : Cell}

theorem rotated_places : (addrs (join s a x (join s b y c)) ++ addrsAround path).Perm
    ((addr x) :: (addr y) :: (addrs a ++ (addrs b ++ (addrs c ++ addrsAround path)))) := by
  have inner := (addrs_join (s := s) (t := b) (x := y) (u := c)).append_left (addrs a)
  have outer := (addrs_join (s := s) (t := a) (x := x)).trans (inner.cons (addr x))
  refine (outer.append_right (addrsAround path)).trans ?_
  simp

theorem rotate_holds (h : Holds t nil top path (join s a x (join s b y c))) :
    ∃ t', rotate s t (addr x) = some t' ∧
      Becomes t (plug path (join s a x (join s b y c))) t' nil top path
        (join s (join s a x b) y c) := by
  obtain ⟨X, A, Y, B, C⟩ := by simpa only [sub_join, ptr_join] using h.inner
  have ctx := h.ctx
  rw [ptr_join] at ctx
  have apart := rotated_places.nodup_iff.mp h.apart
  have out := fun member => h.out (rotated_places.mem_iff.mpr member)
  obtain ⟨xFresh, yFresh, aApart, bckApart, aFresh⟩ := by
    simpa only [List.nodup_cons, List.nodup_append] using apart
  obtain ⟨bApart, ckApart, bFresh⟩ := bckApart
  obtain ⟨cApart, kApart, cFresh⟩ := ckApart
  simp only [List.mem_cons, List.mem_append, not_or] at *
  -- the writes, one after the other
  obtain ⟨t1, step1, X1⟩ := setChild_far X (ptr nil b)
  have Y1 := (X1.other (addr y) (by grind)).trans Y
  have B1 : Sub t1.mem nil (addr y) b := B.congr fun q member => X1.other q (by grind)
  obtain ⟨t2, step2, same2, B2, root2, kept2⟩ := adopt_sub (X1.sentinel.trans h.sentinel) B1
    bApart (by grind) (addr x)
  have X2 := (kept2 (addr x) (by grind)).trans X1.here
  have Y2 := (kept2 (addr y) (by grind)).trans Y1
  obtain ⟨t3, step3, Y3⟩ := setParent_eq Y2 (up top path)
  have X3 := (Y3.other (addr x) (by grind)).trans X2
  have ctx3 : Ctx t3.mem nil top (addr x) path := by
    refine ctx.congr fun q member => ?_
    rw [Y3.other q (by grind), kept2 q (by grind), X1.other q (by grind)]
  obtain ⟨t4, step4, same4, ctx4, root4, kept4⟩ := hang_ctx (s := s) ctx3
    (u := join s a x (join s b y c)) (by rw [Y3.root, root2, X1.root, h.root]) ptr_join.symm
    (parent_eq X3) (List.nodup_cons.mpr ⟨by grind, kApart⟩) (by grind) (addr y)
  have Y4 := (kept4 (addr y) (by grind)).trans Y3.here
  obtain ⟨t5, step5, Y5⟩ := setChild_near Y4 (addr x)
  have X5 := ((Y5.other (addr x) (by grind)).trans (kept4 _ (by grind))).trans X3
  obtain ⟨t6, step6, X6⟩ := setParent_eq X5 (addr y)
  have run : rotate s t (addr x) = some t6 := by
    simp [rotate, child_eq X, child_eq Y, step1, child_eq Y1, step2, parent_eq X2, step3, step4,
      step5, step6]
  -- the parts of the tree after them
  have untouched : ∀ q, q ≠ addr x → q ≠ addr y → q ∉ addrs b →
      q ∉ addrsAround path → t6.mem q = t.mem q := by
    intro q notX notY notB notK
    rw [X6.other q notX, Y5.other q notY, kept4 q notK, Y3.other q notY, kept2 q notB,
      X1.other q notX]
  have A6 : Sub t6.mem nil (addr x) a :=
    A.congr fun q member => untouched q (by grind) (by grind) (by grind) (by grind)
  have B6 : Sub t6.mem nil (addr x) b := by
    refine B2.congr fun q member => ?_
    rw [X6.other q (by grind), Y5.other q (by grind), kept4 q (by grind), Y3.other q (by grind)]
  have C6 : Sub t6.mem nil (addr y) c :=
    C.congr fun q member => untouched q (by grind) (by grind) (by grind) (by grind)
  have Y6 := (X6.other (addr y) (by grind)).trans Y5.here
  have ctx6 : Ctx t6.mem nil top (addr y) path := by
    refine ctx4.congr fun q member => ?_
    rw [X6.other q (by grind), Y5.other q (by grind)]
  have order : entries (join s (join s a x b) y c) = entries (join s a x (join s b y c)) := by
    rw [entries, inorder_rotated]
    rfl
  have places : addrs (join s (join s a x b) y c) = addrs (join s a x (join s b y c)) := by
    rw [addrs_entries, order, ← addrs_entries]
  refine ⟨t6, run, ⟨⟨?_, ?_, places ▸ h.apart, places ▸ h.out⟩, ?_, ?_, ?_⟩, entries_plug order,
    ?_⟩
  · rw [sub_join, sub_join, ptr_join]
    exact ⟨Y6, ⟨X6.here, A6, B6⟩, C6⟩
  · rw [ptr_join]
    exact ctx6
  · rw [X6.sentinel, Y5.sentinel, same4, Y3.sentinel, same2]
  · rw [X6.root, Y5.root, root4]
    split
    · rename_i none
      rw [none, plug, ptr_join]
    · rename_i above
      rw [Y3.root, root2, X1.root, h.root]
      exact ptr_plug above _ _
  · rw [Tree.isRed, Tree.get, untouched _ (by grind) (by grind) (by grind) (by grind)]
    exact h.black
  · intro q outside
    rw [← places_plug.mem_iff, rotated_places.mem_iff] at outside
    simp only [List.mem_cons, List.mem_append, not_or] at outside
    exact untouched q (by grind) (by grind) (by grind) (by grind)

end Rotation

section Paint
variable {t : Tree} {nil top : Nat} {path : Path Cell} {u : Shape} {s : Side} {x : Cell}
  {rest : Shape}

theorem entries_paint (red : Bool) (u : Shape) : entries (paint red u) = entries u := by
  cases u with
  | nil => rfl
  | node x l r => simp [entries, paint, inorder]

theorem setRed_holds (h : Holds t nil top path u) (there : u ≠ .nil) (red : Bool) :
    ∃ t', t.setRed (ptr nil u) red = some t' ∧
      Becomes t (plug path u) t' nil top path (paint red u) := by
  cases u with
  | nil => exact absurd rfl there
  | node x l r =>
    obtain ⟨root, left, right⟩ := h.inner
    have inside := (addrs_join (s := .left) (t := l) (x := x) (u := r)).append_right
      (addrsAround path)
    have apart := inside.nodup_iff.mp h.apart
    rw [List.cons_append] at apart inside
    obtain ⟨fresh, _⟩ := List.nodup_cons.mp apart
    simp only [List.mem_append, not_or] at fresh
    obtain ⟨t', step, wrote⟩ := setRed_eq root red
    have order := entries_paint red (.node x l r)
    have places : addrs (paint red (.node x l r)) = addrs (.node x l r) := by
      rw [addrs_entries, order, ← addrs_entries]
    have out : nil ≠ addr x := by
      intro wrong
      exact h.out (inside.mem_iff.mpr (by rw [wrong]; exact List.mem_cons_self))
    refine ⟨t', step, ⟨⟨?_, ?_, places ▸ h.apart, places ▸ h.out⟩, wrote.sentinel.trans h.sentinel,
      ?_, ?_⟩, entries_plug order, wrote.kept.mono ?_⟩
    · exact ⟨wrote.here, left.congr fun q member => wrote.other q (by grind),
        right.congr fun q member => wrote.other q (by grind)⟩
    · exact h.ctx.congr fun q member => wrote.other q (by grind)
    · rw [wrote.root, h.root]
      cases path with
      | nil => rfl
      | cons => exact ptr_plug (by simp) _ _
    · rw [Tree.isRed, Tree.get, wrote.other _ out]
      exact h.black
    · intro q member
      rw [List.mem_singleton.mp member, ← places_plug.mem_iff]
      exact List.mem_append_left _ (ptr_mem nil (by simp))

theorem setRed_above (h : Holds t nil top (⟨s, x, rest⟩ :: path) u) (red : Bool) :
    ∃ t', t.setRed (addr x) red = some t' ∧
      Becomes t (plug (⟨s, x, rest⟩ :: path) u) t' nil top (⟨s, ⟨red, x.item⟩, rest⟩ :: path)
        u := by
  obtain ⟨t', step, becomes⟩ := setRed_holds (holds_up.mp h) (join_ne_nil _ _ _ _) red
  rw [ptr_join] at step
  rw [paint_join] at becomes
  exact ⟨t', step, becomes_up.mpr becomes⟩

theorem setRed_beside (h : Holds t nil top (⟨s, x, rest⟩ :: path) u) (there : rest ≠ .nil)
    (red : Bool) :
    ∃ t', t.setRed (ptr nil rest) red = some t' ∧
      Becomes t (plug (⟨s, x, rest⟩ :: path) u) t' nil top (⟨s, x, paint red rest⟩ :: path) u := by
  obtain ⟨t', step, becomes⟩ := setRed_holds h.beside there red
  rw [plug_beside] at becomes
  exact ⟨t', step, becomes.beside⟩

end Paint

end Rbtree
