import CommonLib.Rbtree.Refill

/- `ngx_rbtree_delete`: the node that is unlinked, the one that takes its place, and the
   repair of the colours. -/
namespace Rbtree
open SearchTree

section Min
variable {t : Tree} {nil top : Nat} {path : Path Cell} {x : Cell} {l r : Shape}

theorem min_holds {fuel : Nat} (h : Holds t nil top path (.node x l r))
    (enough : (BinaryTree.node x l r).height ≤ fuel) :
    ∃ way y rest, BinaryTree.node x l r = plug way (.node y .nil rest) ∧
      (∀ step ∈ way, step.side = .left) ∧ min t fuel (addr x) = some (addr y) := by
  induction l generalizing path x r fuel with
  | nil =>
    rw [BinaryTree.height] at enough
    obtain ⟨fuel, rfl⟩ : ∃ k, fuel = k + 1 := ⟨fuel - 1, by omega⟩
    refine ⟨[], x, r, rfl, by simp, ?_⟩
    have here : t.child (addr x) .left = some nil := (child_eq (s := .left) h.inner.1).1
    simp [min, here, h.sentinel]
  | node y ll lr ih _ =>
    rw [BinaryTree.height] at enough
    obtain ⟨fuel, rfl⟩ : ∃ k, fuel = k + 1 := ⟨fuel - 1, by omega⟩
    have left : Holds t nil top (⟨.left, x, r⟩ :: path) (.node y ll lr) := holds_up.mpr h
    have enough' : (BinaryTree.node y ll lr).height ≤ fuel := by omega
    obtain ⟨way, z, rest, same, leftmost, run⟩ := ih left enough'
    refine ⟨way ++ [⟨.left, x, r⟩], z, rest, ?_, ?_, ?_⟩
    · rw [plug_append, ← same]
      rfl
    · intro step member
      rcases List.mem_append.mp member with lower | last
      · exact leftmost step lower
      · rw [List.mem_singleton.mp last]
    · have here : t.child (addr x) .left = some (addr y) :=
        (child_eq (s := .left) h.inner.1).1
      have inside : addr y ≠ nil := fun wrong =>
        left.out (List.mem_append_left _ (wrong ▸ ptr_mem nil (by simp)))
      simp [min, here, h.sentinel, inside, run]

end Min

section Unlink
variable {t : Tree} {nil top q : Nat} {path : Path Cell} {x y : Cell} {l r u : Shape}

theorem setParent_sub (links : Sub t.mem nil q u) (apart : (addrs u).Nodup) (out : nil ∉ addrs u)
    (black : t.isRed nil = some false) (new : Nat) :
    ∃ t', t.setParent (ptr nil u) new = some t' ∧ t'.sentinel = t.sentinel ∧
      t'.root = t.root ∧ Sub t'.mem nil new u ∧ t'.parent (ptr nil u) = some new ∧
      t'.isRed nil = some false ∧ Kept [ptr nil u] t t' := by
  cases u with
  | nil =>
    obtain ⟨node, here, colour⟩ := Option.map_eq_some_iff.mp black
    obtain ⟨t', step, wrote⟩ := setParent_wrote here new
    refine ⟨t', step, wrote.sentinel, wrote.root, trivial, ?_, ?_, wrote.kept⟩
    · simp [Tree.parent, Tree.get, ptr, wrote.here]
    · simp [Tree.isRed, Tree.get, wrote.here, colour]
  | node z a b =>
    obtain ⟨root, left, right⟩ := links
    obtain ⟨fresh, _⟩ := List.nodup_cons.mp ((addrs_join (s := .left)).nodup_iff.mp apart)
    have other : nil ≠ addr z := fun wrong => out (wrong ▸ ptr_mem nil (by simp))
    obtain ⟨t', step, wrote⟩ := setParent_eq root new
    refine ⟨t', step, wrote.sentinel, wrote.root, ⟨wrote.here, ?_, ?_⟩, parent_eq wrote.here, ?_,
      wrote.kept⟩
    · exact left.congr fun p member => wrote.other p (by grind)
    · exact right.congr fun p member => wrote.other p (by grind)
    · rw [Tree.isRed, Tree.get, wrote.other nil other]
      exact black

def Wiped (t : Tree) (q : Nat) : Prop := ∃ red, t.mem q = some ⟨0, 0, 0, 0, red⟩

theorem Wiped.kept {t' : Tree} {places : List Nat} (wiped : Wiped t q) (kept : Kept places t t')
    (outside : q ∉ places) : Wiped t' q :=
  wiped.imp fun _ here => (kept q outside).trans here

theorem wipe_holds {node : Node} (h : Holds t nil top path u) (here : t.mem q = some node)
    (fresh : q ∉ addrs u ++ addrsAround path) (out : q ≠ nil) :
    ∃ t', wipe t q = some t' ∧ Holds t' nil top path u ∧ Wiped t' q ∧
      t'.mem nil = t.mem nil ∧ Kept [q] t t' := by
  obtain ⟨t1, step1, w1⟩ := setChild_wrote here .left 0
  obtain ⟨t2, step2, w2⟩ := setChild_wrote w1.here .right 0
  obtain ⟨t3, step3, w3⟩ := setParent_wrote w2.here 0
  obtain ⟨t4, step4, w4⟩ : ∃ t4, t3.setKey q 0 = some t4 ∧ Wrote t3 q _ t4 := modify_wrote w3.here
  have untouched : ∀ p, p ≠ q → t4.mem p = t.mem p := by
    intro p notQ
    rw [w4.other p notQ, w3.other p notQ, w2.other p notQ, w1.other p notQ]
  have run : wipe t q = some t4 := by
    simp only [wipe, step1, step2, step3, Option.bind_eq_bind, Option.bind_some]
    exact step4
  refine ⟨t4, run, ?_, ⟨node.red, w4.here⟩, untouched nil out.symm,
    fun p outside => untouched p fun same => outside (by simp [same])⟩
  refine h.frame ?_ ?_ ?_ fun p member => untouched p fun same => fresh (same ▸ member)
  · rw [w4.root, w3.root, w2.root, w1.root]
  · rw [w4.sentinel, w3.sentinel, w2.sentinel, w1.sentinel]
  · rw [Tree.isRed, Tree.get, untouched nil out.symm]
    rfl

/-- The parent and the child of the node `y` are linked with each other, but that `q` is written
    where the child has its parent. -/
theorem unlink_ctx {s : Side} {step : Step Cell}
    (h : Holds t nil top (step :: path) (join s .nil y u)) (q : Nat) :
    ∃ t1 t2, relink .left t (addr step.root) (addr y) (ptr nil u) = some t1 ∧
      t1.mem (addr y) = t.mem (addr y) ∧ t1.setParent (ptr nil u) q = some t2 ∧
      t2.sentinel = nil ∧ t2.root = t.root ∧ Ctx t2.mem nil top (ptr nil u) (step :: path) ∧
      Sub t2.mem nil q u ∧ t2.parent (ptr nil u) = some q ∧ t2.isRed nil = some false ∧
      t2.mem (addr y) = t.mem (addr y) ∧
      Kept (nil :: (addrs u ++ addrsAround (step :: path))) t t2 := by
  have places := (addrs_join (s := s) (t := .nil) (x := y) (u := u)).append_right
    (addrsAround (step :: path))
  rw [addrs_nil, List.nil_append, List.cons_append] at places
  have apart := places.nodup_iff.mp h.apart
  have out := fun member => h.out (places.mem_iff.mpr member)
  obtain ⟨yFresh, inside⟩ := List.nodup_cons.mp apart
  obtain ⟨uApart, kApart, uFresh⟩ := List.nodup_append.mp inside
  have parentIn : (addr step.root) ∈ addrsAround (step :: path) := by
    rw [addrsAround_cons]
    exact List.mem_cons_self
  have child : ptr nil u ∈ nil :: addrs u := by
    by_cases none : u = .nil
    · rw [none]
      exact List.mem_cons_self
    · exact List.mem_cons_of_mem _ (ptr_mem nil none)
  simp only [List.mem_cons, List.mem_append, not_or] at yFresh out child
  obtain ⟨_, _, beside⟩ := sub_join.mp h.inner
  have ctx := h.ctx
  rw [ptr_join] at ctx
  obtain ⟨t1, step1, same1, ctx1, root1, kept1⟩ := relink_ctx (s := .left) ctx
    (List.nodup_cons.mpr ⟨by grind, kApart⟩) (by grind) (ptr nil u)
  have kept1' : ∀ p, p ≠ (addr step.root) → t1.mem p = t.mem p :=
    fun p other => kept1 p fun member => other (List.mem_singleton.mp member)
  have links : Sub t1.mem nil (addr y) u := beside.congr fun p member => kept1' p (by grind)
  have black : t1.isRed nil = some false := by
    rw [Tree.isRed, Tree.get, kept1' nil (by grind)]
    exact h.black
  obtain ⟨t2, step2, same2, root2, links2, above2, black2, kept2⟩ :=
    setParent_sub links uApart (by grind) black q
  have kept2' : ∀ p, p ≠ ptr nil u → t2.mem p = t1.mem p :=
    fun p other => kept2 p fun member => other (List.mem_singleton.mp member)
  refine ⟨t1, t2, step1, kept1' _ (by grind), step2, same2.trans (same1.trans h.sentinel),
    root2.trans root1, ?_, links2, above2, black2, ?_, fun p outside => ?_⟩
  · exact ctx1.congr fun p member => kept2' p (by grind)
  · rw [kept2' _ (by grind), kept1' _ (by grind)]
  · simp only [List.mem_cons, List.mem_append, not_or] at outside
    rw [kept2' p (by grind), kept1' p (by grind)]

structure Loose (t : Tree) (nil top : Nat) (path : Path Cell) (x : Cell) (l r : Shape) : Prop where
  sentinel : t.sentinel = nil
  here : t.mem (addr x) = some (seen .left x (ptr nil l) (ptr nil r) (up top path))
  left : Sub t.mem nil (addr x) l
  right : ∃ q, Sub t.mem nil q r
  ctx : Ctx t.mem nil top (addr x) path
  root : t.root = ptr nil (plug path (.node x l r))
  black : t.isRed nil = some false

theorem replace_holds {node : Node} {e : Entry} (loose : Loose t nil top path x l r)
    (apart : ((addr x) :: e.addr :: (addrs l ++ (addrs r ++ addrsAround path))).Nodup)
    (out : nil ∉ (addr x) :: e.addr :: (addrs l ++ (addrs r ++ addrsAround path)))
    (here : t.mem e.addr = some node) (key : node.key = e.key) :
    ∃ t', replace t (addr x) e.addr = some t' ∧
      Holds t' nil top path (.node ⟨x.red, e⟩ l r) ∧
      t'.mem (addr x) = t.mem (addr x) ∧ t'.mem nil = t.mem nil ∧
      Kept (e.addr :: (addrs l ++ (addrs r ++ addrsAround path))) t t' := by
  obtain ⟨q, right⟩ := loose.right
  have X := loose.here
  have placed := (node_places path ⟨x.red, e⟩ l r).symm
  have apart' := (List.nodup_cons.mp apart).2
  obtain ⟨xFresh, eFresh, lApart, rkApart, lFresh⟩ := by
    simpa only [List.nodup_cons, List.nodup_append] using apart
  obtain ⟨rApart, kApart, rFresh⟩ := rkApart
  simp only [List.mem_cons, List.mem_append, not_or] at xFresh eFresh lFresh rFresh out
  -- the writes, one after the other
  obtain ⟨t1, step1, w1⟩ := setChild_wrote here .left (ptr nil l)
  have X1 := (w1.other (addr x) (by grind)).trans X
  obtain ⟨t2, step2, w2⟩ := setChild_wrote w1.here .right (ptr nil r)
  have X2 := (w2.other (addr x) (by grind)).trans X1
  obtain ⟨t3, step3, w3⟩ := setParent_wrote w2.here (up top path)
  have X3 := (w3.other (addr x) (by grind)).trans X2
  obtain ⟨t4, step4, w4⟩ := setRed_wrote w3.here x.red
  have X4 := (w4.other (addr x) (by grind)).trans X3
  have kept4 : ∀ p, p ≠ e.addr → t4.mem p = t.mem p := by
    intro p notE
    rw [w4.other p notE, w3.other p notE, w2.other p notE, w1.other p notE]
  have root4 : t4.root = t.root := by rw [w4.root, w3.root, w2.root, w1.root]
  have same4 : t4.sentinel = nil := by
    rw [w4.sentinel, w3.sentinel, w2.sentinel, w1.sentinel, loose.sentinel]
  have E4 : t4.mem e.addr =
      some (seen .left (⟨x.red, e⟩ : Cell) (ptr nil l) (ptr nil r) (up top path)) := by
    rw [w4.here]
    simp only [Node.setChild, seen, key, Linked.cell]
  obtain ⟨t5, step5, same5, ctx5, root5, kept5⟩ := hang_ctx (s := .left)
    (loose.ctx.congr fun p member => kept4 p (by grind)) (root4.trans loose.root) rfl
    (parent_eq X4) (List.nodup_cons.mpr ⟨by grind, kApart⟩) (by grind) e.addr
  have E5 := (kept5 e.addr (by grind)).trans E4
  have left5 : Sub t5.mem nil (addr x) l := loose.left.congr fun p member => by
    rw [kept5 p (by grind), kept4 p (by grind)]
  obtain ⟨t6, step6, same6, left6, root6, kept6⟩ :=
    adopt_sub (same5.trans same4) left5 lApart (by grind) e.addr
  have E6 := (kept6 e.addr (by grind)).trans E5
  have right6 : Sub t6.mem nil q r := right.congr fun p member => by
    rw [kept6 p (by grind), kept5 p (by grind), kept4 p (by grind)]
  obtain ⟨t7, step7, same7, right7, root7, kept7⟩ :=
    adopt_sub same6 right6 rApart (by grind) e.addr
  have E7 := (kept7 e.addr (by grind)).trans E6
  have run : replace t (addr x) e.addr = some t7 := by
    have other : e.addr ≠ addr x := by grind
    have farX := (child_eq X1).2
    have farE := (child_eq E6).2
    rw [Side.other] at farX farE
    simp [replace, other, child_eq X, step1, farX, step2, parent_eq X2, step3, Tree.copyColor,
      isRed_eq X3, step4, step5, child_eq E5, step6, farE, step7]
  -- the parts of the tree after them
  have untouched : ∀ p, p ∉ e.addr :: (addrs l ++ (addrs r ++ addrsAround path)) →
      t7.mem p = t.mem p := by
    intro p outside
    simp only [List.mem_cons, List.mem_append, not_or] at outside
    rw [kept7 p (by grind), kept6 p (by grind), kept5 p (by grind), kept4 p (by grind)]
  have nilOut : nil ∉ e.addr :: (addrs l ++ (addrs r ++ addrsAround path)) := by
    simp only [List.mem_cons, List.mem_append, not_or]
    grind
  refine ⟨t7, run, ⟨⟨⟨E7, ?_, right7⟩, ?_, placed.nodup_iff.mp apart', ?_⟩, same7, ?_, ?_⟩, ?_,
    untouched nil nilOut, untouched⟩
  · exact left6.congr fun p member => kept7 p (by grind)
  · refine ctx5.congr fun p member => ?_
    rw [kept7 p (by grind), kept6 p (by grind)]
  · rwa [← placed.mem_iff]
  · rw [root7, root6, root5]
    split
    · rename_i none
      rw [none]
      rfl
    · rename_i above
      rw [root4, loose.root]
      exact ptr_plug above _ _
  · rw [Tree.isRed, Tree.get, untouched nil nilOut]
    exact loose.black
  · refine untouched _ ?_
    simp only [List.mem_cons, List.mem_append, not_or]
    grind

theorem unlink_one {s : Side} {step : Step Cell}
    (h : Holds t nil top (step :: path) (join s .nil x u)) :
    ∃ t', unlink t (addr x) (addr x) (ptr nil u) = some t' ∧
      Holds t' nil top (step :: path) u ∧ Wiped t' (addr x) ∧
      t'.parent (ptr nil u) = some (up top (step :: path)) ∧
      Kept (nil :: addrs (plug (step :: path) (join s .nil x u))) t t' := by
  have places := (addrs_join (s := s) (t := .nil) (x := x) (u := u)).append_right
    (addrsAround (step :: path))
  rw [addrs_nil, List.nil_append, List.cons_append] at places
  have apart := places.nodup_iff.mp h.apart
  have out := fun member => h.out (places.mem_iff.mpr member)
  obtain ⟨xFresh, inside⟩ := List.nodup_cons.mp apart
  obtain ⟨t1, t2, step1, X1, step2, same2, root2, ctx2, links2, above2, black2, X2, kept2⟩ :=
    unlink_ctx h (addr step.root)
  have h2 : Holds t2 nil top (step :: path) u :=
    ⟨⟨links2, ctx2, inside, fun member => out (List.mem_cons_of_mem _ member)⟩, same2,
      root2.trans (h.root.trans (ptr_plug (by simp) _ _)), black2⟩
  have other : addr x ≠ nil := fun wrong => out (by rw [wrong]; exact List.mem_cons_self)
  obtain ⟨t3, step3, h3, wiped, nil3, kept3⟩ := wipe_holds h2 (X2.trans h.cell) xFresh other
  have run : unlink t (addr x) (addr x) (ptr nil u) = some t3 := by
    simp [unlink, parent_eq h.cell, up, step1, adoptTemp, parent_eq (X1.trans h.cell), step2,
      replace, step3]
  refine ⟨t3, run, h3, wiped, ?_, fun p outside => ?_⟩
  · by_cases none : u = .nil
    · subst none
      rw [Tree.parent, Tree.get, ptr, nil3]
      exact above2
    · exact h3.parent none
  · rw [List.mem_cons, ← places_plug.mem_iff, places.mem_iff, List.mem_cons, not_or, not_or]
      at outside
    rw [kept3 p (by simpa using outside.2.1), kept2 p]
    rw [List.mem_cons, not_or]
    exact ⟨outside.1, outside.2.2⟩

theorem unlink_two {way : Path Cell}
    (h : Holds t nil top path (.node x l (plug way (.node y .nil u)))) :
    ∃ t', unlink t (addr x) (addr y) (ptr nil u) = some t' ∧
      Holds t' nil top (way ++ ⟨.right, ⟨x.red, y.item⟩, l⟩ :: path) u ∧
      Wiped t' (addr x) ∧
      t'.parent (ptr nil u) = some (up top (way ++ ⟨.right, ⟨x.red, y.item⟩, l⟩ :: path)) ∧
      Kept (nil :: addrs (plug path (.node x l (plug way (.node y .nil u))))) t t' := by
  have inner : Holds t nil top (way ++ ⟨.right, x, l⟩ :: path) (join .left .nil y u) :=
    holds_append.mpr (holds_up.mpr h)
  have places : (addrs (.node x l (plug way (.node y .nil u))) ++ addrsAround path).Perm
      ((addr x) :: (addr y) :: (addrs l ++ (addrs (plug way u) ++ addrsAround path))) := by
    have first : (addrs (plug way (.node y .nil u))).Perm ((addr y) :: addrs (plug way u)) := by
      refine places_plug.symm.trans (.trans ?_ (places_plug.cons (addr y)))
      exact (addrs_join (s := .left) (t := .nil)).append_right (addrsAround way)
    refine (node_places path x l _).trans (.cons _ ?_)
    refine ((first.append_right (addrsAround path)).append_left (addrs l)).trans ?_
    exact List.perm_middle
  have apart := places.nodup_iff.mp h.apart
  have out := fun member => h.out (places.mem_iff.mpr member)
  have other : addr y ≠ addr x := fun same => by simp [same] at apart
  obtain ⟨step, rest, split⟩ : ∃ step rest, way ++ ⟨.right, x, l⟩ :: path = step :: rest := by
    cases way <;> exact ⟨_, _, rfl⟩
  have above : up top (way ++ ⟨.right, x, l⟩ :: path) = addr step.root := by
    rw [split, up]
  have innerPlaces := inner.apart
  rw [split] at inner
  obtain ⟨t1, t2, step1, Y1, step2, same2, root2, ctx2, links2, above2, black2, Y2, kept2⟩ :=
    unlink_ctx inner (up (addr y) way)
  rw [← split] at ctx2
  obtain ⟨ctxWay, X2, left2, ctx2⟩ := ctx_append.mp ctx2
  have right2 : ∃ q, Sub t2.mem nil q (plug way u) := by
    by_cases none : way = []
    · subst none
      exact ⟨_, links2⟩
    · refine ⟨(addr x), sub_plug.mpr ⟨ctxWay, ?_⟩⟩
      rw [up_exchange none (addr x) (addr y)]
      exact links2
  have loose : Loose t2 nil top path x l (plug way u) := by
    refine ⟨same2, ?_, left2, right2, ctx2, ?_, black2⟩
    · rw [X2]
      rfl
    · rw [root2, h.root]
      cases path with
      | nil => rfl
      | cons => exact ptr_plug (by simp) _ _
  obtain ⟨t3, step3, h3, X3, nil3, kept3⟩ :=
    replace_holds loose apart out (Y2.trans inner.cell) (seen_key ..)
  rw [← addr_eq] at step3
  have fresh : addr x ∉ addrs (.node ⟨x.red, y.item⟩ l (plug way u)) ++ addrsAround path := by
    rw [(node_places path _ _ _).mem_iff]
    exact (List.nodup_cons.mp apart).1
  obtain ⟨t4, step4, h4, wiped, nil4, kept4⟩ := wipe_holds h3 (X3.trans loose.here) fresh
    (fun wrong => out (by rw [wrong]; exact List.mem_cons_self))
  have final : Holds t4 nil top (way ++ ⟨.right, ⟨x.red, y.item⟩, l⟩ :: path) u :=
    holds_append.mpr (holds_up.mpr h4)
  have run : unlink t (addr x) (addr y) (ptr nil u) = some t4 := by
    have parentY : t.parent (addr y) = some (addr step.root) := by
      rw [parent_eq inner.cell, up]
    have parentY1 : t1.parent (addr y) = some (addr step.root) := by
      rw [parent_eq (Y1.trans inner.cell), up]
    have adopted : adoptTemp t1 (addr x) (addr y) (ptr nil u) = some t2 := by
      by_cases none : way = []
      · subst none
        obtain ⟨rfl, _⟩ := List.cons.inj split
        simpa [adoptTemp, parentY1, other, up] using step2
      · have different : (addr step.root) ≠ addr x := by
          obtain ⟨low, way, rfl⟩ := List.exists_cons_of_ne_nil none
          obtain ⟨rfl, _⟩ := List.cons.inj split
          intro same
          refine (List.nodup_cons.mp apart).1 ?_
          rw [← same, List.mem_cons, List.mem_append, List.mem_append, ← places_plug.mem_iff,
            List.mem_append, addrsAround_cons]
          exact .inr (.inr (.inl (.inr List.mem_cons_self)))
        have same : up (addr y) way = addr step.root := by
          rw [up_exchange none (addr y) (up top (⟨.right, x, l⟩ :: path)), ← up_append, above]
        rw [same] at step2
        simpa [adoptTemp, parentY1, other, different] using step2
    simp [unlink, parentY, step1, adopted, step3, step4]
  refine ⟨t4, run, final, wiped, ?_, fun p outside => ?_⟩
  · by_cases none : u = .nil
    · subst none
      rw [Tree.parent, Tree.get, ptr, nil4, nil3, up_append]
      exact above2
    · exact final.parent none
  · obtain ⟨notNil, outside⟩ := not_or.mp (mt List.mem_cons.mpr outside)
    have whole : plug (way ++ ⟨.right, x, l⟩ :: path) (join .left .nil y u) =
        plug path (.node x l (plug way (.node y .nil u))) := plug_append _ _ _
    have parts := mt places_plug.mem_iff.mp outside
    rw [places.mem_iff, List.mem_cons, not_or] at parts
    rw [← whole, split, ← places_plug.mem_iff, List.mem_append, mem_addrs_join, not_or, not_or,
      not_or] at outside
    rw [kept4 p (by simpa using parts.1), kept3 p parts.2, kept2 p]
    simp [notNil, outside.1.2.2, outside.2]

end Unlink

section Delete
variable {t : Tree} {nil top fuel : Nat} {path : Path Cell} {s : Side} {x y : Cell}
  {l r u : Shape}

theorem Holds.children (h : Holds t nil top path (.node x l r)) :
    t.child (addr x) .left = some (ptr nil l) ∧
      t.child (addr x) .right = some (ptr nil r) ∧
      (ptr nil l = nil ↔ l = .nil) ∧ (ptr nil r = nil ↔ r = .nil) := by
  have here := child_eq (s := .left) h.inner.1
  have left : Holds t nil top (⟨.left, x, r⟩ :: path) l := holds_up.mpr h
  have right : Holds t nil top (⟨.right, x, l⟩ :: path) r := holds_up.mpr h
  exact ⟨here.1, here.2, ptr_eq_nil fun member => left.out (List.mem_append_left _ member),
    ptr_eq_nil fun member => right.out (List.mem_append_left _ member)⟩

theorem substitute_one (fuel : Nat) (h : Holds t nil top path (join s .nil x u)) :
    substitute fuel t (addr x) = some (addr x, ptr nil u) := by
  cases s with
  | left =>
    obtain ⟨left, right, _⟩ := Holds.children h
    simp [substitute, left, right, ptr, h.sentinel]
  | right =>
    obtain ⟨left, right, isNil, _⟩ := Holds.children h
    by_cases none : u = .nil
    · subst none
      simp [substitute, left, right, ptr, h.sentinel]
    · have other : ptr nil u ≠ nil := fun wrong => none (isNil.mp wrong)
      rw [ptr] at right
      simp [substitute, left, right, h.sentinel, other]

theorem substitute_two {fuel : Nat} (h : Holds t nil top path (.node x l r)) (left : l ≠ .nil)
    (right : r ≠ .nil) (enough : r.height ≤ fuel) :
    ∃ way y u, r = plug way (.node y .nil u) ∧ (∀ step ∈ way, step.side = .left) ∧
      substitute fuel t (addr x) = some (addr y, ptr nil u) := by
  obtain ⟨z, a, b, rfl⟩ : ∃ z a b, r = .node z a b := by
    cases r with
    | nil => exact absurd rfl right
    | node z a b => exact ⟨z, a, b, rfl⟩
  have inner : Holds t nil top (⟨.right, x, l⟩ :: path) (.node z a b) := holds_up.mpr h
  obtain ⟨way, y, u, same, leftmost, run⟩ := min_holds inner enough
  obtain ⟨atLeft, atRight, isNilL, isNilR⟩ := h.children
  have first : Holds t nil top (way ++ ⟨.right, x, l⟩ :: path) (.node y .nil u) :=
    holds_append.mpr (same ▸ inner)
  obtain ⟨leftY, rightY, _⟩ := first.children
  refine ⟨way, y, u, same, leftmost, ?_⟩
  have otherL : ptr nil l ≠ nil := fun wrong => left (isNilL.mp wrong)
  have otherR : addr z ≠ nil := fun wrong => right (isNilR.mp wrong)
  simp only [ptr] at atRight leftY
  simp [substitute, atLeft, atRight, h.sentinel, otherL, otherR, run, leftY, rightY]

theorem delete_end {q : Nat} {t1 : Tree} {whole : Shape} {red : Bool}
    (h : Holds t1 nil top path u) (above : t1.parent (ptr nil u) = some (up top path))
    (there : path ≠ []) (wiped : Wiped t1 q) (gone : q ∉ addrs (plug path u))
    (kept : Kept (nil :: addrs whole) t t1)
    (within : addrs (plug path u) ⊆ addrs whole)
    (right : red = true → RedBlack (plug path u)) (lacking : red = false → Lacking path u)
    (enough : path.length < fuel) :
    ∃ t' whole', (if red then some t1 else refill t1 fuel (ptr nil u)) = some t' ∧
      Holds t' nil top [] whole' ∧ RedBlack whole' ∧ Wiped t' q ∧
      entries whole' = entries (plug path u) ∧ Kept (nil :: addrs whole) t t' := by
  cases red with
  | true => exact ⟨t1, _, rfl, holds_plug.mp h, right rfl, wiped, rfl, kept⟩
  | false =>
    obtain ⟨t', whole', run, b, redBlack⟩ := refill_holds fuel h above (.inr there)
      (lacking rfl) (by split <;> omega)
    refine ⟨t', whole', run, b.holds, redBlack, wiped.kept b.kept gone, b.entries,
      kept.trans (b.kept.mono ?_)⟩
    exact fun p member => List.mem_cons_of_mem _ (within member)

theorem delete_root (fuel : Nat) (h : Holds t nil top [] (join s .nil x u))
    (redBlack : RedBlack (join s .nil x u)) :
    ∃ t' whole', delete fuel t (addr x) = some t' ∧ Holds t' nil (addr x) [] whole' ∧
      RedBlack whole' ∧ Wiped t' (addr x) ∧ entries whole' = entries u ∧
      Kept (nil :: addrs (join s .nil x u)) t t' := by
  have lacking : Lacking [] u := by
    obtain ⟨red, e⟩ := x
    obtain rfl : red = false := (redRoot_join s .nil u ⟨red, e⟩).symm.trans redBlack.1
    exact RedBlack.unlink_black redBlack
  have places := (addrs_join (s := s) (t := .nil) (x := x) (u := u))
  rw [addrs_nil, List.nil_append] at places
  have apart := h.apart
  have out := h.out
  simp only [addrsAround, around, List.map_nil, List.append_nil] at apart out
  obtain ⟨fresh, inside⟩ := List.nodup_cons.mp (places.nodup_iff.mp apart)
  rw [places.mem_iff, List.mem_cons, not_or] at out
  have h0 : Holds { t with root := ptr nil u } nil (addr x) [] u :=
    ⟨⟨(sub_join.mp h.inner).2.2, trivial, by simpa [addrsAround, around] using inside,
      by simpa [addrsAround, around] using out.2⟩, h.sentinel, rfl, h.black⟩
  obtain ⟨t1, step1, h1, kept1⟩ : ∃ t1, Tree.setRed { t with root := ptr nil u } (ptr nil u) false =
      some t1 ∧ Holds t1 nil (addr x) [] (paint false u) ∧ Kept (nil :: addrs u) t t1 := by
    by_cases none : u = .nil
    · subst none
      obtain ⟨node, here, colour⟩ := Option.map_eq_some_iff.mp h0.black
      obtain ⟨t1, step, wrote⟩ := setRed_wrote here false
      refine ⟨t1, step, ⟨⟨trivial, trivial, h0.apart, h0.out⟩, wrote.sentinel.trans h.sentinel,
        wrote.root, ?_⟩, wrote.kept⟩
      simp [Tree.isRed, Tree.get, wrote.here]
    · obtain ⟨t1, step, b⟩ := setRed_holds h0 none false
      exact ⟨t1, step, b.holds, b.kept.mono (List.subset_cons_self _ _)⟩
  have painted : addrs (paint false u) = addrs u := by
    rw [addrs_entries, entries_paint, ← addrs_entries]
  have X1 := (kept1 (addr x) (by simp [fresh, Ne.symm out.1])).trans h.cell
  obtain ⟨t2, step2, h2, wiped, _, kept2⟩ := wipe_holds h1 X1
    (by simpa [painted, addrsAround, around] using fresh) (Ne.symm out.1)
  have atRoot : (addr x) = t.root := by
    rw [h.root, plug, ptr_join]
  refine ⟨t2, paint false u, ?_, h2, lacking.done (.inl rfl), wiped, entries_paint false u,
    fun p outside => ?_⟩
  · have substituted := substitute_one fuel h
    simp only [delete, substituted, Option.bind_eq_bind, Option.bind_some, if_pos atRoot, step1,
      step2]
  · rw [List.mem_cons, places.mem_iff, List.mem_cons, not_or, not_or] at outside
    rw [kept2 p (by simpa using outside.2.1), kept1 p (by simp [outside.1, outside.2.2])]

theorem delete_one {step : Step Cell} (h : Holds t nil top (step :: path) (join s .nil x u))
    (redBlack : RedBlack (plug (step :: path) (join s .nil x u)))
    (enough : (step :: path).length < fuel) :
    ∃ t' whole', delete fuel t (addr x) = some t' ∧ Holds t' nil top [] whole' ∧
      RedBlack whole' ∧ Wiped t' (addr x) ∧ entries whole' = entries (plug (step :: path) u) ∧
      Kept (nil :: addrs (plug (step :: path) (join s .nil x u))) t t' := by
  obtain ⟨t1, step1, h1, wiped, above1, kept1⟩ := unlink_one h
  have below : addr x ≠ t.root := by
    intro same
    refine absurd (h.at_root.mp ?_) (by simp)
    rw [ptr_join]
    exact same
  have run : delete fuel t (addr x) =
      if x.red then some t1 else refill t1 fuel (ptr nil u) := by
    simp [delete, substitute_one fuel h, below, isRed_eq h.cell, step1]
  have within : addrs (plug (step :: path) u) ⊆ addrs (plug (step :: path) (join s .nil x u)) := by
    intro p member
    rw [← places_plug.mem_iff, List.mem_append] at member ⊢
    exact member.imp (fun inside => mem_addrs_join.mpr (.inr (.inr inside))) id
  have gone : addr x ∉ addrs (plug (step :: path) u) := by
    have places := (addrs_join (s := s) (t := .nil) (x := x) (u := u)).append_right
      (addrsAround (step :: path))
    rw [← places_plug.mem_iff]
    exact (List.nodup_cons.mp (places.nodup_iff.mp h.apart)).1
  rw [run]
  obtain ⟨red, e⟩ := x
  refine delete_end h1 above1 (by simp) wiped gone kept1 within ?_ ?_ enough
  · rintro rfl
    exact redBlack.unlink_red
  · rintro rfl
    exact redBlack.unlink_black

theorem delete_two (h : Holds t nil top path (.node x l r)) (left : l ≠ .nil) (right : r ≠ .nil)
    (redBlack : RedBlack (plug path (.node x l r)))
    (enough : (plug path (.node x l r)).height < fuel) :
    ∃ t' whole', delete fuel t (addr x) = some t' ∧ Holds t' nil top [] whole' ∧
      RedBlack whole' ∧ Wiped t' (addr x) ∧
      entries whole' = (before path ++ (inorder l ++ inorder r) ++ after path).map (·.item) ∧
      Kept (nil :: addrs (plug path (.node x l r))) t t' := by
  have high := length_le_height path (.node x l r)
  have enough' : r.height ≤ fuel := by
    rw [BinaryTree.height] at high
    omega
  obtain ⟨way, y, u, rfl, leftmost, substituted⟩ := substitute_two h left right enough'
  obtain ⟨t1, step1, h1, wiped, above1, kept1⟩ := unlink_two h
  have first : Holds t nil top (way ++ ⟨.right, x, l⟩ :: path) (join .left .nil y u) :=
    holds_append.mpr (holds_up.mpr h)
  have whole : plug (way ++ ⟨.right, x, l⟩ :: path) (join .left .nil y u) =
      plug path (.node x l (plug way (.node y .nil u))) := plug_append _ _ _
  have below : addr y ≠ t.root := by
    intro same
    refine absurd (first.at_root.mp ?_) (by simp)
    rw [ptr_join]
    exact same
  have run : delete fuel t (addr x) =
      if y.red then some t1 else refill t1 fuel (ptr nil u) := by
    simp [delete, substituted, below, isRed_eq first.cell, step1]
  have order : entries (plug (way ++ ⟨.right, ⟨x.red, y.item⟩, l⟩ :: path) u) =
      (before path ++ (inorder l ++ inorder (plug way (.node y .nil u))) ++ after path).map
        (·.item) := by
    simp [entries, inorder_plug, before_append, after_append, before_leftmost leftmost, before,
      after, inorder]
  have within : addrs (plug (way ++ ⟨.right, ⟨x.red, y.item⟩, l⟩ :: path) u) ⊆
      addrs (plug path (.node x l (plug way (.node y .nil u)))) := by
    intro p member
    rw [addrs_entries, order] at member
    simp only [addrs, inorder_plug, inorder, List.map_append, List.map_cons, List.map_map,
      List.mem_append, List.mem_cons, Function.comp_def] at member ⊢
    tauto
  have coloured : RedBlack (plug (way ++ ⟨.right, ⟨x.red, y.item⟩, l⟩ :: path)
      (join .left .nil y u)) := by
    rw [← whole] at redBlack
    exact redBlack.item
  have gone : addr x ∉ addrs (plug (way ++ ⟨.right, ⟨x.red, y.item⟩, l⟩ :: path) u) := by
    have apart := places_plug.nodup_iff.mp h.apart
    rw [addrs_entries, entries, inorder_plug] at apart
    rw [addr_eq]
    intro member
    rw [addrs_entries, order] at member
    simp only [inorder, List.map_append, List.map_cons, List.nodup_append, List.mem_append,
      List.nodup_cons, List.map_map, Function.comp_def] at apart member
    grind
  have short := length_le_height (way ++ ⟨.right, x, l⟩ :: path) (join .left .nil y u)
  rw [whole] at short
  rw [run, ← order]
  obtain ⟨red, e⟩ := y
  refine delete_end h1 above1 (by simp) wiped gone kept1 within ?_ ?_ ?_
  · rintro rfl
    exact coloured.unlink_red
  · rintro rfl
    exact coloured.unlink_black
  · simp only [List.length_append, List.length_cons] at short ⊢
    omega

/-- A node is taken out, and the colours are right again. -/
theorem delete_holds (h : Holds t nil top path (.node x l r))
    (redBlack : RedBlack (plug path (.node x l r)))
    (enough : 2 * Nat.log 2 ((plug path (.node x l r)).numNodes + 1) < fuel) :
    ∃ t' top' whole', delete fuel t (addr x) = some t' ∧ Holds t' nil top' [] whole' ∧
      RedBlack whole' ∧ Wiped t' (addr x) ∧
      entries whole' = (before path ++ (inorder l ++ inorder r) ++ after path).map (·.item) ∧
      Kept (nil :: addrs (plug path (.node x l r))) t t' := by
  have high := redBlack.height
  have one : ∀ {s : Side} {u : Shape}, BinaryTree.node x l r = join s .nil x u →
      inorder u = inorder l ++ inorder r →
      ∃ t' top' whole', delete fuel t (addr x) = some t' ∧ Holds t' nil top' [] whole' ∧
        RedBlack whole' ∧ Wiped t' (addr x) ∧
        entries whole' = (before path ++ (inorder l ++ inorder r) ++ after path).map (·.item) ∧
        Kept (nil :: addrs (plug path (.node x l r))) t t' := by
    intro s u same order
    rw [same] at h redBlack enough high ⊢
    rw [← order]
    cases path with
    | nil =>
      obtain ⟨t', whole', run, h', redBlack', wiped, entries', kept⟩ :=
        delete_root fuel h redBlack
      refine ⟨t', _, whole', run, h', redBlack', wiped, ?_, kept⟩
      rw [entries', entries]
      simp [before, after]
    | cons step path =>
      have short := length_le_height (step :: path) (join s .nil x u)
      obtain ⟨t', whole', run, h', redBlack', wiped, entries', kept⟩ :=
        delete_one h redBlack (show (step :: path).length < fuel by omega)
      refine ⟨t', top, whole', run, h', redBlack', wiped, ?_, kept⟩
      rw [entries', entries, inorder_plug]
  by_cases left : l = .nil
  · subst left
    exact one (s := .left) rfl (by simp [inorder])
  · by_cases right : r = .nil
    · subst right
      exact one (s := .right) rfl (by simp [inorder])
    · obtain ⟨t', whole', rest⟩ := delete_two h left right redBlack
        (show (plug path (.node x l r)).height < fuel by omega)
      exact ⟨t', top, whole', rest⟩

end Delete

end Rbtree
