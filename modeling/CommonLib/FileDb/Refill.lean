import CommonLib.FileDb.Root

/- Before `db_delete` enters a child the child gets a key to spare, from a sibling or
   by a merge with one. The in-order list stays, and what lies to the left and to the
   right of the child does not grow. -/
namespace FileDb
open OrderedTree

structure Turned (p : Shape) (s s' : Db) (h h' a c : Nat) (R : List Nat) (E : List Entry)
    (V F' : List Nat) (P Q : List Entry) : Prop where
  tree : TreeAt p s' h' a R E V F'
  same : flat s'.file.disk h' a = flat s.file.disk (h + 1) a
  frame : ∀ x ∈ R, s'.file.disk x = s.file.disk x
  sameV : ∀ v ∈ V, s'.file.disk v = s.file.disk v
  total : s'.db.keyTotal = s.db.keyTotal
  ctx : ∃ P' Q' side, Ctx s'.file.disk h c h' a P' Q' side ∧ P' <+: P ∧ Q' <:+ Q
  rich : ceil p.M ≤ (s'.file.disk c).num
  height : h' = h + 1 ∧ (s.file.disk a).num ≤ (s'.file.disk a).num + 1 ∨
    h' = h ∧ (s.file.disk a).num = 1

section Refill
variable {p : Shape} {s : Db} {h a i x y : Nat} {R V F : List Nat} {E : List Entry}

/-! ### Two neighbouring children -/

structure Pair (disk : Nat → BtreeNode) (a i x y : Nat) : Prop where
  lt : i < (disk a).num
  left : ((disk a).slot i).child = x
  right : ((disk a).slot (i + 1)).child = y

theorem Pair.seg {disk : Nat → BtreeNode} (pair : Pair disk a i x y) :
    Seg disk a ((disk a).ents 0 i) ((disk a).ents (i + 1) ((disk a).num - i - 1))
      ((disk a).chs 0 i) ((disk a).chs (i + 2) ((disk a).num - i - 1)) [x, y]
      (entries (disk x) ++ ((disk a).slot i).entry :: entries (disk y))
      (kids (disk x) ++ kids (disk y)) := by
  refine .two x y _ (entries_focus _ pair.lt) ?_
  rw [kids_focus_pair _ pair.lt, pair.left, pair.right]

def pairRest (disk : Nat → BtreeNode) (h a i x y : Nat) : List Nat :=
  blocksOf disk h (kids (disk x) ++ kids (disk y)) ++
    blocksOf disk (h + 1) ((disk a).chs 0 i ++ (disk a).chs (i + 2) ((disk a).num - i - 1))

theorem TreeAt.pair_part (t : TreeAt p s (h + 1) a R E V F) (pair : Pair s.file.disk a i x y) :
    Part p s (a :: ([x, y] ++ pairRest s.file.disk h a i x y) ++ R) V F :=
  t.part.permK (pair.seg.blocks.append_right R)

theorem TreeAt.apart (t : TreeAt p s (h + 1) a R E V F) (pair : Pair s.file.disk a i x y) :
    Apart a x y (pairRest s.file.disk h a i x y ++ R ++ V) :=
  (t.pair_part pair).apart

theorem TreeAt.pair_ok (t : TreeAt p s (h + 1) a R E V F) (pair : Pair s.file.disk a i x y) :
    ChildOk p.M s.file.disk h x ∧ ChildOk p.M s.file.disk h y := by
  have nodes := (pair.seg.children.mp t.children).1
  exact ⟨nodes x (by simp), nodes y (by simp)⟩

def leftOf (disk : Nat → BtreeNode) (h a i : Nat) : List Entry :=
  before ((disk a).ents 0 i) (((disk a).chs 0 i).map (flat disk h))

def rightOf (disk : Nat → BtreeNode) (h a i : Nat) : List Entry :=
  after ((disk a).ents (i + 1) ((disk a).num - i - 1))
    (((disk a).chs (i + 2) ((disk a).num - i - 1)).map (flat disk h))

/-! ### Borrowing -/

structure Moved (p : Shape) (disk : Nat → BtreeNode) (a i x y : Nat) (A X Y : BtreeNode)
    (u : Entry) : Prop where
  ents : entries A = (disk a).ents 0 i ++ u :: (disk a).ents (i + 1) ((disk a).num - i - 1)
  chs : kids A = kids (disk a)
  num : A.num = (disk a).num
  leaf : A.leaf = (disk a).leaf
  whole : entries X ++ u :: entries Y =
    entries (disk x) ++ ((disk a).slot i).entry :: entries (disk y)
  wholeKids : kids X ++ kids Y = kids (disk x) ++ kids (disk y)
  leafX : X.leaf = (disk x).leaf
  leafY : Y.leaf = (disk y).leaf
  boundX : ceil p.M - 1 ≤ X.num ∧ X.num ≤ p.M
  boundY : ceil p.M - 1 ≤ Y.num ∧ Y.num ≤ p.M

theorem TreeAt.move (t : TreeAt p s (h + 1) a R E V F) (pair : Pair s.file.disk a i x y) {s' : Db}
    {A X Y : BtreeNode} {u : Entry}
    (part : Part p s' (a :: ([x, y] ++ pairRest s.file.disk h a i x y) ++ R) V F)
    (wrote : Wrote s s' a x y A X Y) (moved : Moved p s.file.disk a i x y A X Y u) :
    (TreeAt p s' (h + 1) a R E V F ∧ flat s'.file.disk (h + 1) a = flat s.file.disk (h + 1) a ∧
      (∀ z ∈ R, s'.file.disk z = s.file.disk z) ∧ ∀ v ∈ V, s'.file.disk v = s.file.disk v) ∧
      (∃ side, Ctx s'.file.disk h x (h + 1) a (leftOf s.file.disk h a i)
        (u :: flat s'.file.disk h y ++ rightOf s.file.disk h a i) side) ∧
      ∃ side, Ctx s'.file.disk h y (h + 1) a
        (leftOf s.file.disk h a i ++ flat s'.file.disk h x ++ [u])
            (rightOf s.file.disk h a i) side := by
  have apart := t.apart pair
  obtain ⟨okX, okY⟩ := t.pair_ok pair
  have lt := pair.lt
  obtain ⟨atA, atX, atY, away1, db⟩ := wrote
  have away : ∀ z ∈ pairRest s.file.disk h a i x y ++ R ++ V, s'.file.disk z = s.file.disk z :=
    fun z hz => away1 z (apart.rest z hz).1 (apart.rest z hz).2.1 (apart.rest z hz).2.2
  have awayRest : ∀ z ∈ pairRest s.file.disk h a i x y, s'.file.disk z = s.file.disk z :=
    fun z hz => away z (List.mem_append_left _ (List.mem_append_left _ hz))
  have chs : kids (s'.file.disk a) = (s.file.disk a).chs 0 i ++
      x :: y :: (s.file.disk a).chs (i + 2) ((s.file.disk a).num - i - 1) := by
    rw [atA, moved.chs, kids_focus_pair _ lt, pair.left, pair.right]
  have ents : entries (s'.file.disk a) = (s.file.disk a).ents 0 i ++
      u :: (s.file.disk a).ents (i + 1) ((s.file.disk a).num - i - 1) := by
    rw [atA, moved.ents]
  have seg' : Seg s'.file.disk a ((s.file.disk a).ents 0 i)
      ((s.file.disk a).ents (i + 1) ((s.file.disk a).num - i - 1)) ((s.file.disk a).chs 0 i)
      ((s.file.disk a).chs (i + 2) ((s.file.disk a).num - i - 1)) [x, y]
      (entries (s.file.disk x) ++ ((s.file.disk a).slot i).entry :: entries (s.file.disk y))
      (kids (s.file.disk x) ++ kids (s.file.disk y)) := by
    rw [← moved.whole, ← moved.wholeKids, ← atX, ← atY]
    exact .two x y u ents chs
  have numA : (s'.file.disk a).num = (s.file.disk a).num := by rw [atA, moved.num]
  have upper := t.num
  have sameV : ∀ v ∈ V, s'.file.disk v = s.file.disk v := fun v hv =>
    away v (List.mem_append_right _ hv)
  have both : ∀ z ∈ blocksOf s.file.disk (h + 1) ((s.file.disk a).chs 0 i ++
      (s.file.disk a).chs (i + 2) ((s.file.disk a).num - i - 1)), s'.file.disk z = s.file.disk z :=
    fun z hz => awayRest z (List.mem_append_right _ hz)
  rw [blocksOf_append] at both
  have left : before ((s.file.disk a).ents 0 i)
    (((s.file.disk a).chs 0 i).map (flat s'.file.disk h)) =
      leftOf s.file.disk h a i := by
    rw [flats_congr _ fun z hz => both z (List.mem_append_left _ hz)]
    rfl
  have right : after ((s.file.disk a).ents (i + 1) ((s.file.disk a).num - i - 1))
      (((s.file.disk a).chs (i + 2) ((s.file.disk a).num - i - 1)).map (flat s'.file.disk h)) =
      rightOf s.file.disk h a i := by
    rw [flats_congr _ fun z hz => both z (List.mem_append_right _ hz)]
    rfl
  obtain ⟨tree, same⟩ := t.reshape (by simp [BtreeNode.ents, BtreeNode.chs]) pair.seg seg' awayRest
    sameV part (by rw [atA, moved.leaf]; simpa using t.leaf) (by omega) (by omega) (by
      intro c hc
      simp only [List.mem_cons, List.not_mem_nil, or_false] at hc
      rcases hc with rfl | rfl
      · rw [← atX] at moved
        exact ⟨moved.leafX.trans okX.leaf, moved.boundX.1, moved.boundX.2⟩
      · rw [← atY] at moved
        exact ⟨moved.leafY.trans okY.leaf, moved.boundY.1, moved.boundY.2⟩)
  refine ⟨⟨tree, same, fun z hz => away z (List.mem_append_left _ (List.mem_append_right _ hz)),
    sameV⟩, ?_, ?_⟩
  · have ctx : Ctx s'.file.disk h x (h + 1) a _ _ _ :=
      .child _ _ _ _ ents chs (by simp [BtreeNode.ents, BtreeNode.chs])
    rw [left] at ctx
    simp only [List.map_cons, after, right, List.cons_append] at ctx
    exact ⟨_, ctx⟩
  · have ctx : Ctx s'.file.disk h y (h + 1) a _ _ _ :=
      .child ((s.file.disk a).ents 0 i ++ [u])
        ((s.file.disk a).ents (i + 1) ((s.file.disk a).num - i - 1))
        ((s.file.disk a).chs 0 i ++ [x])
        ((s.file.disk a).chs (i + 2) ((s.file.disk a).num - i - 1)) (by rw [ents]; simp)
        (by rw [chs, List.append_assoc]; rfl)
        (by simp [BtreeNode.ents, BtreeNode.chs])
    rw [List.map_append, List.map_cons, List.map_nil,
      before_last _ _ _ _ (by simp [BtreeNode.ents, BtreeNode.chs]), left, right] at ctx
    exact ⟨_, ctx⟩

theorem TreeAt.borrowRight (t : TreeAt p s (h + 1) a R E V F) (pair : Pair s.file.disk a i x y)
    (poor : (s.file.disk x).num ≤ ceil p.M) (rich : ceil p.M < (s.file.disk y).num) :
    ∃ s', borrowFromRight s (s.file.disk a) i (s.file.disk x) (s.file.disk y) =
        .ok (s', s'.file.disk a, s'.file.disk x) ∧
      Turned p s s' h (h + 1) a x R E V F (leftOf s.file.disk h a i)
        (((s.file.disk a).slot i).entry :: flat s.file.disk h y ++ rightOf s.file.disk h a i) := by
  have bounds := ceil_bounds p
  obtain ⟨okX, okY⟩ := t.pair_ok pair
  have lt := pair.lt
  have upper := t.num
  have upperY := okY.upper
  have lowerX := okX.lower
  have apart := t.apart pair
  have part := t.pair_part pair
  have run := borrowFromRight_ok s (s.file.disk a) (s.file.disk x) (s.file.disk y) i
    (t.fits (by omega)) (t.fits (by omega)) (by omega) (t.fits (by omega))
  obtain ⟨part', wrote⟩ := part.flush_three
    (A := replaceEntry (s.file.disk a) i ((s.file.disk y).slot 0))
    (X := pushLast (s.file.disk x) ((s.file.disk a).slot i) ((s.file.disk y).slot 0).child)
    (Y := dropFirst (s.file.disk y))
    (by have k := part.keyNode (k := a) (by simp); exact ⟨k.self, k.use, k.type⟩)
    (by have k := part.keyNode (k := x) (by simp); exact ⟨k.self, k.use, k.type⟩)
    (by have k := part.keyNode (k := y) (by simp); exact ⟨k.self, k.use, k.type⟩)
    (by simp) (by simp) (by simp) apart.ax apart.ay apart.xy
  simp only at run
  generalize nodeFlush (nodeFlush (nodeFlush s (replaceEntry (s.file.disk a) i
    ((s.file.disk y).slot 0))) (pushLast (s.file.disk x) ((s.file.disk a).slot i)
      ((s.file.disk y).slot 0).child)) (dropFirst (s.file.disk y)) = s' at run part' wrote
  -- the first entry and the first child of the sibling
  have firstE : entries (s.file.disk y) =
      ((s.file.disk y).slot 0).entry :: entries (dropFirst (s.file.disk y)) := by
    rw [dropFirst_entries]
    exact entries_focus (s.file.disk y) (show 0 < (s.file.disk y).num by omega)
  have firstK : kids (s.file.disk y) =
      ((s.file.disk y).slot 0).child :: kids (dropFirst (s.file.disk y)) := by
    rw [dropFirst_kids _ (by omega)]
    exact kids_focus (s.file.disk y) (Nat.zero_le _)
  have moved : Moved p s.file.disk a i x y
      (replaceEntry (s.file.disk a) i ((s.file.disk y).slot 0))
      (pushLast (s.file.disk x) ((s.file.disk a).slot i) ((s.file.disk y).slot 0).child)
      (dropFirst (s.file.disk y)) ((s.file.disk y).slot 0).entry :=
    { ents := replaceEntry_entries _ _ lt
      chs := replaceEntry_kids _ _ _
      num := rfl
      leaf := rfl
      whole := by rw [pushLast_entries, firstE]; simp
      wholeKids := by rw [pushLast_kids, firstK]; simp
      leafX := rfl
      leafY := rfl
      boundX := by simp only [pushLast]; omega
      boundY := by simp only [dropFirst]; omega }
  obtain ⟨⟨tree, same, frame, sameV⟩, ⟨side, ctx⟩, _⟩ := t.move pair part' wrote moved
  have flatY : flat s.file.disk h y = flatOf s.file.disk h [] [((s.file.disk y).slot 0).child] ++
      ((s.file.disk y).slot 0).entry :: flat s'.file.disk h y := by
    have below : ∀ z ∈ blocksOf s.file.disk h (kids (dropFirst (s.file.disk y))),
        s'.file.disk z = s.file.disk z := by
      intro z hz
      have mem : z ∈ pairRest s.file.disk h a i x y ++ R ++ V := by
        refine List.mem_append_left _ (List.mem_append_left _ (List.mem_append_left _ ?_))
        rw [blocksOf_append, firstK]
        refine List.mem_append_right _ ?_
        rw [← List.singleton_append, blocksOf_append]
        exact List.mem_append_right _ hz
      exact wrote.away z (apart.rest z mem).1 (apart.rest z mem).2.1 (apart.rest z mem).2.2
    rw [flat, flat, wrote.atY, flatOf_congr _ _ below, firstE, firstK]
    exact flatOf_append [] _ _ [_] _ rfl
  refine ⟨s', by rw [wrote.atA, wrote.atX]; exact run, tree, same, frame, sameV,
    by rw [wrote.db], ⟨_, _, side, ctx, List.prefix_refl _, ?_⟩, ?_, .inl ⟨rfl, ?_⟩⟩
  · rw [flatY]
    exact ⟨((s.file.disk a).slot i).entry :: flatOf s.file.disk h []
      [((s.file.disk y).slot 0).child], by simp⟩
  · rw [wrote.atX]
    simp only [pushLast]
    omega
  · rw [wrote.atA]
    simp only [replaceEntry]
    omega

theorem TreeAt.borrowLeft (t : TreeAt p s (h + 1) a R E V F) (pair : Pair s.file.disk a i x y)
    (rich : ceil p.M < (s.file.disk x).num) (poor : (s.file.disk y).num ≤ ceil p.M) :
    ∃ s', borrowFromLeft s (s.file.disk a) (i + 1) (s.file.disk x) (s.file.disk y) =
        .ok (s', s'.file.disk a, s'.file.disk y) ∧
      Turned p s s' h (h + 1) a y R E V F
        (leftOf s.file.disk h a i ++ flat s.file.disk h x ++ [((s.file.disk a).slot i).entry])
        (rightOf s.file.disk h a i) := by
  have bounds := ceil_bounds p
  obtain ⟨okX, okY⟩ := t.pair_ok pair
  have lt := pair.lt
  have upper := t.num
  have upperX := okX.upper
  have lowerY := okY.lower
  have apart := t.apart pair
  have part := t.pair_part pair
  have run := borrowFromLeft_ok s (s.file.disk a) (s.file.disk x) (s.file.disk y) (i + 1)
    (t.fits (by omega)) (t.fits (by omega)) (t.fits (by omega))
  generalize hw : (s.file.disk x).slot ((s.file.disk x).num - 1) = w at run
  generalize hk : ((s.file.disk x).slot (s.file.disk x).num).child = k at run
  simp only [Nat.add_sub_cancel] at run
  obtain ⟨part', wrote⟩ := part.flush_three (A := replaceEntry (s.file.disk a) i w)
    (X := pushFirst (s.file.disk y) ((s.file.disk a).slot i) k) (Y := dropLast (s.file.disk x))
    (by have k := part.keyNode (k := a) (by simp); exact ⟨k.self, k.use, k.type⟩)
    (by have k := part.keyNode (k := y) (by simp); exact ⟨k.self, k.use, k.type⟩)
    (by have k := part.keyNode (k := x) (by simp); exact ⟨k.self, k.use, k.type⟩)
    (by simp) (by simp) (by simp) apart.ay apart.ax apart.xy.symm
  generalize nodeFlush (nodeFlush (nodeFlush s (replaceEntry (s.file.disk a) i w))
    (pushFirst (s.file.disk y) ((s.file.disk a).slot i) k)) (dropLast (s.file.disk x)) = s'
    at run part' wrote
  have wrote' : Wrote s s' a x y _ _ _ :=
    ⟨wrote.atA, wrote.atY, wrote.atX, fun z za zx zy => wrote.away z za zy zx, wrote.db⟩
  obtain ⟨m, hm⟩ : ∃ m, (s.file.disk x).num = m + 1 := ⟨(s.file.disk x).num - 1, by omega⟩
  -- the last entry and the last child of the sibling
  have lastE : entries (s.file.disk x) = entries (dropLast (s.file.disk x)) ++ [w.entry] := by
    rw [dropLast_entries, ← hw, hm, Nat.add_sub_cancel]
    simp only [entries, BtreeNode.ents, hm]
    rw [slice_last, Nat.zero_add]
  have lastK : kids (s.file.disk x) = kids (dropLast (s.file.disk x)) ++ [k] := by
    rw [dropLast_kids _ (by omega), ← hk]
    simp only [kids, BtreeNode.chs]
    rw [slice_last, Nat.zero_add]
  have moved : Moved p s.file.disk a i x y (replaceEntry (s.file.disk a) i w)
      (dropLast (s.file.disk x)) (pushFirst (s.file.disk y) ((s.file.disk a).slot i) k) w.entry :=
    { ents := replaceEntry_entries _ _ lt
      chs := replaceEntry_kids _ _ _
      num := rfl
      leaf := rfl
      whole := by rw [pushFirst_entries, lastE]; simp
      wholeKids := by rw [pushFirst_kids, lastK]; simp
      leafX := rfl
      leafY := rfl
      boundX := by simp only [dropLast]; omega
      boundY := by simp only [pushFirst]; omega }
  obtain ⟨⟨tree, same, frame, sameV⟩, _, ⟨side, ctx⟩⟩ := t.move pair part' wrote' moved
  have flatX : flat s.file.disk h x =
      flat s'.file.disk h x ++ w.entry :: flatOf s.file.disk h [] [k] := by
    have below : ∀ z ∈ blocksOf s.file.disk h (kids (dropLast (s.file.disk x))),
        s'.file.disk z = s.file.disk z := by
      intro z hz
      have mem : z ∈ pairRest s.file.disk h a i x y ++ R ++ V := by
        refine List.mem_append_left _ (List.mem_append_left _ (List.mem_append_left _ ?_))
        rw [blocksOf_append, lastK, blocksOf_append]
        exact List.mem_append_left _ (List.mem_append_left _ hz)
      exact wrote'.away z (apart.rest z mem).1 (apart.rest z mem).2.1 (apart.rest z mem).2.2
    rw [flat, flat, wrote'.atX, flatOf_congr _ _ below, lastE, lastK]
    exact flatOf_append _ [] _ _ [k] (by simp)
  refine ⟨s', by rw [wrote'.atA, wrote'.atY]; exact run, tree, same, frame, sameV,
    by rw [wrote.db], ⟨_, _, side, ctx, ?_, List.suffix_refl _⟩, ?_, .inl ⟨rfl, ?_⟩⟩
  · rw [flatX]
    exact ⟨flatOf s.file.disk h [] [k] ++ [((s.file.disk a).slot i).entry], by simp⟩
  · rw [wrote'.atY]
    simp only [pushFirst]
    omega
  · rw [wrote'.atA]
    simp only [replaceEntry]
    omega

/-! ### Merging -/

theorem mergedNode_key {X Y : BtreeNode} {up : BtreeKey} (key : KeyNode X x) :
    KeyNode (mergedNode X up Y) x := ⟨key.self, key.use, key.type⟩

theorem TreeAt.mergeInner (t : TreeAt p s (h + 1) a R E V F) (pair : Pair s.file.disk a i x y)
    (poorX : (s.file.disk x).num ≤ ceil p.M) (poorY : (s.file.disk y).num ≤ ceil p.M)
    (more : (s.file.disk a).num ≠ 1) :
    ∃ s' F', btreeMerge s (s.file.disk a) i (s.file.disk x) (s.file.disk y) =
        .ok (s', s'.file.disk a, s'.file.disk x, false) ∧
      Turned p s s' h (h + 1) a x R E V F' (leftOf s.file.disk h a i)
          (rightOf s.file.disk h a i) := by
  have bounds := ceil_bounds p
  obtain ⟨okX, okY⟩ := t.pair_ok pair
  have lt := pair.lt
  have upper := t.num
  have lowerX := okX.lower
  have lowerY := okY.lower
  obtain ⟨ax, ay, xy, awayOf⟩ := t.apart pair
  have part := t.pair_part pair
  have keyA := part.keyNode (k := a) (by simp)
  have keyX := part.keyNode (k := x) (by simp)
  have keyY := part.keyNode (k := y) (by simp)
  have run := btreeMerge_ok s (s.file.disk a) (s.file.disk x) (s.file.disk y) i lt
    (t.fits (by omega)) (t.fits (by omega))
  simp only [keyX.self] at run
  generalize hnode : mergeParent (s.file.disk a) i x = node at run
  generalize hsub : mergedNode (s.file.disk x) ((s.file.disk a).slot i) (s.file.disk y) = sub at run
  have numN : node.num = (s.file.disk a).num - 1 := by rw [← hnode]; rfl
  rw [if_pos (by omega)] at run
  have keyN : KeyNode node a := by rw [← hnode]; exact ⟨keyA.self, keyA.use, keyA.type⟩
  have keyS : KeyNode sub x := hsub ▸ mergedNode_key keyX
  have roles : (a :: ([x, y] ++ pairRest s.file.disk h a i x y) ++ R).Perm
      ((s.file.disk y).self :: (a :: ([x] ++ pairRest s.file.disk h a i x y) ++ R)) := by
    rw [keyY.self, List.perm_iff_count]
    intro z
    simp only [List.count_append, List.count_cons, List.count_nil]
    omega
  obtain ⟨part1, disk1, total1⟩ := nodeDestroy_key part roles keyY.type
  have part2 := (part1.flush_key keyS (by simp)).flush_key keyN (by simp)
  generalize hs' : nodeFlush (nodeFlush (nodeDestroy s (s.file.disk y)) sub) node = s' at run part2
  have disk' : s'.file.disk = Function.update (Function.update (Function.update s.file.disk y
      (freedNode s.db (s.file.disk y))) x sub) a node := by
    rw [← hs', flush_disk, flush_disk, disk1, keyY.self, keyS.self, keyN.self]
  have atA : s'.file.disk a = node := by rw [disk', Function.update_self]
  have atX : s'.file.disk x = sub := by
    rw [disk', Function.update_of_ne ax.symm, Function.update_self]
  have away : ∀ z ∈ pairRest s.file.disk h a i x y ++ R ++ V, s'.file.disk z = s.file.disk z := by
    intro z hz
    obtain ⟨za, zx, zy⟩ := awayOf z hz
    rw [disk', Function.update_of_ne za, Function.update_of_ne zx, Function.update_of_ne zy]
  have awayRest : ∀ z ∈ pairRest s.file.disk h a i x y, s'.file.disk z = s.file.disk z :=
    fun z hz => away z (List.mem_append_left _ (List.mem_append_left _ hz))
  have sameV : ∀ v ∈ V, s'.file.disk v = s.file.disk v := fun v hv =>
    away v (List.mem_append_right _ hv)
  have ents : entries (s'.file.disk a) = (s.file.disk a).ents 0 i ++
      (s.file.disk a).ents (i + 1) ((s.file.disk a).num - i - 1) := by
    rw [atA, ← hnode]; exact mergeParent_entries _ _ lt
  have chs : kids (s'.file.disk a) = (s.file.disk a).chs 0 i ++
      x :: (s.file.disk a).chs (i + 2) ((s.file.disk a).num - i - 1) := by
    rw [atA, ← hnode]; exact mergeParent_kids _ _ lt
  have seg' : Seg s'.file.disk a ((s.file.disk a).ents 0 i)
      ((s.file.disk a).ents (i + 1) ((s.file.disk a).num - i - 1)) ((s.file.disk a).chs 0 i)
      ((s.file.disk a).chs (i + 2) ((s.file.disk a).num - i - 1)) [x]
      (entries (s.file.disk x) ++ ((s.file.disk a).slot i).entry :: entries (s.file.disk y))
      (kids (s.file.disk x) ++ kids (s.file.disk y)) := by
    rw [← mergedNode_entries, ← mergedNode_kids _ _ ((s.file.disk a).slot i), hsub, ← atX]
    exact .one x ents chs
  have numX : (s'.file.disk x).num = (s.file.disk x).num + (1 + (s.file.disk y).num) := by
    rw [atX, ← hsub]; rfl
  have len : ((s.file.disk a).chs 0 i).length = ((s.file.disk a).ents 0 i).length := by
    simp [BtreeNode.ents, BtreeNode.chs]
  obtain ⟨tree, same⟩ := t.reshape len pair.seg seg' awayRest sameV part2
    (by
      have leaf : (s.file.disk a).leaf = false := by simpa using t.leaf
      rw [atA, ← hnode]
      exact leaf)
    (by rw [atA, numN]; omega) (by rw [atA, numN]; omega) (by
      intro c hc
      rw [List.mem_singleton.mp hc]
      refine ⟨?_, by omega, by omega⟩
      rw [atX, ← hsub]
      exact okX.leaf)
  have both : ∀ z ∈ blocksOf s.file.disk (h + 1) ((s.file.disk a).chs 0 i ++
      (s.file.disk a).chs (i + 2) ((s.file.disk a).num - i - 1)), s'.file.disk z = s.file.disk z :=
    fun z hz => awayRest z (List.mem_append_right _ hz)
  rw [blocksOf_append] at both
  have ctx : Ctx s'.file.disk h x (h + 1) a _ _ _ := .child _ _ _ _ ents chs len
  rw [flats_congr _ fun z hz => both z (List.mem_append_left _ hz),
    flats_congr _ fun z hz => both z (List.mem_append_right _ hz)] at ctx
  refine ⟨s', _, by rw [atA, atX]; exact run, tree, same,
    fun z hz => away z (List.mem_append_left _ (List.mem_append_right _ hz)), sameV, ?_,
    ⟨_, _, _, ctx, List.prefix_refl _, List.suffix_refl _⟩, by omega, .inl ⟨rfl, ?_⟩⟩
  · rw [← hs']; exact total1
  · rw [atA, numN]; omega

theorem TreeAt.mergeRoot (t : TreeAt p s (h + 1) a R E V F) (pair : Pair s.file.disk a i x y)
    (poorX : (s.file.disk x).num ≤ ceil p.M) (poorY : (s.file.disk y).num ≤ ceil p.M)
    (single : (s.file.disk a).num = 1) :
    ∃ s' F' sub, btreeMerge s (s.file.disk a) i (s.file.disk x) (s.file.disk y) =
        .ok (s', s'.file.disk a, sub, true) ∧
      Turned p s s' h h a a R E V F' (leftOf s.file.disk h a i) (rightOf s.file.disk h a i) := by
  have bounds := ceil_bounds p
  obtain ⟨okX, okY⟩ := t.pair_ok pair
  have lt := pair.lt
  have lowerX := okX.lower
  have lowerY := okY.lower
  have upperX := okX.upper
  obtain ⟨ax, ay, xy, awayOf⟩ := t.apart pair
  have part := t.pair_part pair
  have keyA := part.keyNode (k := a) (by simp)
  have keyX := part.keyNode (k := x) (by simp)
  have keyY := part.keyNode (k := y) (by simp)
  have run := btreeMerge_ok s (s.file.disk a) (s.file.disk x) (s.file.disk y) i lt
    (t.fits (by omega)) (t.fits (by omega))
  simp only [keyX.self] at run
  generalize hnode : mergeParent (s.file.disk a) i x = node at run
  generalize hsub : mergedNode (s.file.disk x) ((s.file.disk a).slot i) (s.file.disk y) = sub at run
  have numN : node.num = 0 := by
    have : node.num = (s.file.disk a).num - 1 := by rw [← hnode]; rfl
    omega
  rw [if_neg (by omega)] at run
  have keyS : KeyNode sub x := hsub ▸ mergedNode_key keyX
  have keyN : KeyNode (rootFrom node sub) a := by
    rw [← hnode]
    exact ⟨keyA.self, keyA.use, keyA.type⟩
  have roles : (a :: ([x, y] ++ pairRest s.file.disk h a i x y) ++ R).Perm
      ((s.file.disk y).self :: x :: (a :: pairRest s.file.disk h a i x y ++ R)) := by
    rw [keyY.self, List.perm_iff_count]
    intro z
    simp only [List.count_append, List.count_cons, List.count_nil]
    omega
  obtain ⟨part1, disk1, total1⟩ := nodeDestroy_key part roles keyY.type
  have roles2 : (x :: (a :: pairRest s.file.disk h a i x y ++ R)).Perm
      (sub.self :: (a :: pairRest s.file.disk h a i x y ++ R)) := by rw [keyS.self]
  obtain ⟨part2, disk2, total2⟩ := nodeDestroy_key part1 roles2 keyS.type
  have part3 := part2.flush_key keyN (by simp)
  generalize hs' : nodeFlush (nodeDestroy (nodeDestroy s (s.file.disk y)) sub) (rootFrom node sub) =
    s'
    at run part3
  have disk' : ∀ z, z ≠ x → z ≠ y → z ≠ a → s'.file.disk z = s.file.disk z := by
    intro z zx zy za
    rw [← hs', flush_disk, disk2, disk1, keyY.self, keyS.self, keyN.self, Function.update_of_ne za,
      Function.update_of_ne zx, Function.update_of_ne zy]
  have atA : s'.file.disk a = rootFrom node sub := by
    rw [← hs', flush_disk, keyN.self, Function.update_self]
  have away : ∀ z ∈ pairRest s.file.disk h a i x y ++ R ++ V, s'.file.disk z = s.file.disk z :=
    fun z hz => disk' z (awayOf z hz).2.1 (awayOf z hz).2.2 (awayOf z hz).1
  have sameV : ∀ v ∈ V, s'.file.disk v = s.file.disk v := fun v hv =>
    away v (List.mem_append_right _ hv)
  have i0 : i = 0 := by omega
  have rest : pairRest s.file.disk h a i x y =
      blocksOf s.file.disk h (kids (s.file.disk x) ++ kids (s.file.disk y)) := by
    simp [pairRest, i0, single, BtreeNode.chs, blocksOf_succ]
  have below : ∀ z ∈ blocksOf s.file.disk h (kids (s.file.disk x) ++ kids (s.file.disk y)),
      s'.file.disk z = s.file.disk z := fun z hz =>
    away z (List.mem_append_left _ (List.mem_append_left _ (rest ▸ hz)))
  have ents : entries (s'.file.disk a) =
      entries (s.file.disk x) ++ ((s.file.disk a).slot i).entry :: entries (s.file.disk y) := by
    rw [atA, ← mergedNode_entries, hsub]
    rfl
  have chs : kids (s'.file.disk a) = kids (s.file.disk x) ++ kids (s.file.disk y) := by
    rw [atA, ← mergedNode_kids _ _ ((s.file.disk a).slot i), hsub]
    rfl
  have numA : (s'.file.disk a).num = (s.file.disk x).num + (1 + (s.file.disk y).num) := by
    rw [atA, ← hsub]; rfl
  have same : flat s'.file.disk h a = flat s.file.disk (h + 1) a := by
    have len : ((s.file.disk a).chs 0 i).length = ((s.file.disk a).ents 0 i).length := by
      simp [BtreeNode.ents, BtreeNode.chs]
    rw [pair.seg.flat len, flat, ents, chs, flatOf_congr _ _ below]
    simp [i0, single, BtreeNode.ents, BtreeNode.chs, before, after]
  have old := (pair.seg.children.mp t.children).2.1
  refine ⟨s', sub.self :: (s.file.disk y).self :: F, sub, by rw [atA]; exact run,
    ⟨⟨?_, ?_, ?_, by omega, fun _ => by omega, ?_⟩, same,
      fun z hz => away z (List.mem_append_left _ (List.mem_append_right _ hz)), sameV, ?_,
      ⟨[], [], [], .here, List.nil_prefix, List.nil_suffix⟩, by omega, .inr ⟨rfl, single⟩⟩⟩
  · rw [blocks, chs, blocksOf_congr _ below, ← rest]
    exact part3
  · rw [same]
    exact t.values.congr sameV
  · rw [atA, ← hsub]
    exact okX.leaf
  · rw [chs]
    exact old.congr below
  · rw [← hs']
    exact total2.trans total1

theorem TreeAt.merge (t : TreeAt p s (h + 1) a R E V F) (pair : Pair s.file.disk a i x y)
    (poorX : (s.file.disk x).num ≤ ceil p.M) (poorY : (s.file.disk y).num ≤ ceil p.M) :
    ∃ s' F' sub root c h', btreeMerge s (s.file.disk a) i (s.file.disk x) (s.file.disk y) =
        .ok (s', s'.file.disk a, sub, root) ∧
      (if root = true then s'.file.disk a else sub) = s'.file.disk c ∧
      Turned p s s' h h' a c R E V F' (leftOf s.file.disk h a i) (rightOf s.file.disk h a i) := by
  by_cases single : (s.file.disk a).num = 1
  · obtain ⟨s', F', sub, run, turned⟩ := t.mergeRoot pair poorX poorY single
    exact ⟨s', F', sub, true, a, h, run, rfl, turned⟩
  · obtain ⟨s', F', run, turned⟩ := t.mergeInner pair poorX poorY single
    exact ⟨s', F', _, false, x, h + 1, run, rfl, turned⟩

end Refill

end FileDb
