import CommonLib.FileDb.Insert

/- The root: growing the tree by one level, and `db_insert` as a whole. -/
namespace FileDb
open OrderedTree

section Height
variable {disk : Nat → BtreeNode}

theorem height_lt_blocks (disk : Nat → BtreeNode) (h a : Nat) : h < (blocks disk h a).length := by
  have below : ∀ h ks, ks ≠ [] → h ≤ (blocksOf disk h ks).length := by
    intro h
    induction h with
    | zero => intro ks _; omega
    | succ h ih =>
      intro ks some
      cases ks with
      | nil => exact absurd rfl some
      | cons c ks =>
        have kidsSome : kids (disk c) ≠ [] := by
          intro none
          have := kids_length (disk c)
          simp [none] at this
        have := ih _ kidsSome
        rw [blocksOf_cons, List.length_append, blocks, List.length_cons]
        omega
  have kidsSome : kids (disk a) ≠ [] := by
    intro none
    have := kids_length (disk a)
    simp [none] at this
  have := below h _ kidsSome
  rw [blocks, List.length_cons]
  omega

end Height

section Grow
variable {p : Shape} {s : Db} {h a : Nat} {R V F : List Nat} {E : List Entry}

/-- Every level has a block of its own, so the fuel of the loops is enough. -/
theorem TreeAt.height_lt (t : TreeAt p s h a R E V F) : h + 1 < s.file.size := by
  have tall := height_lt_blocks s.file.disk h a
  have count := t.part.blocks.length_eq
  simp only [List.length_append, offsets, List.length_map, List.length_range] at count
  simp only [headSize, blockSize] at count
  omega

structure GrowDone (p : Shape) (s s' : Db) (h a : Nat) (R : List Nat) (E : List Entry)
    (V F' : List Nat) : Prop where
  tree : TreeAt p s' (h + 1) a R E V F'
  same : flat s'.file.disk (h + 1) a = flat s.file.disk h a
  sameV : ∀ v ∈ V, s'.file.disk v = s.file.disk v
  total : s'.db.keyTotal = s.db.keyTotal
  num : (s'.file.disk a).num = 1

def emptyRoot (node : BtreeNode) (x : Nat) : BtreeNode :=
  { node with
    num := 0
    leaf := false
    slot := Function.update node.slot 0 { node.slot 0 with child := x } }

theorem TreeAt.grow (t : TreeAt p s h a R E V F) (full : p.M - 1 ≤ (s.file.disk a).num)
    {s1 : Db} {x y : Nat} {F1 : List Nat}
    (part1 : Part p s1 (y :: x :: (blocks s.file.disk h a ++ R)) V F1)
    (other : ∀ z, z ≠ x → z ≠ y → s1.file.disk z = s.file.disk z)
    (total : s1.db.keyTotal = s.db.keyTotal) {X Y : BtreeNode} (keyX : KeyNode X x)
    (keyY : KeyNode Y y) (num : X.num = (s.file.disk a).num) (slot : X.slot = (s.file.disk a).slot)
    (leafX : X.leaf = (s.file.disk a).leaf) (leafY : Y.leaf = (s.file.disk a).leaf) :
    ∃ s2 X' Y', btreeSplitChild s1 (emptyRoot (s.file.disk a) x) 0 X Y =
        .ok (s2, s2.file.disk a, X', Y') ∧ GrowDone p s s2 h a R E V F1 := by
  have bounds := ceil_bounds p
  have has := part1.has
  have M1 : s1.db.M = p.M := has.M
  have upper := t.num
  have inA : a ∈ blocks s.file.disk h a ++ R := by simp [blocks]
  generalize hroot : emptyRoot (s.file.disk a) x = root
  have rootNum : root.num = 0 := by rw [← hroot]; rfl
  have run := btreeSplitChild_ok s1 root X Y 0 (by omega) (by rw [M1]; omega)
    (has.fits_slot (by omega)) (has.fits_slot (by omega))
  simp only [keyX.self, keyY.self, M1] at run
  have part2 : Part p s1 (a :: ([x, y] ++ blocksOf s.file.disk h (kids (s.file.disk a))) ++
      R) V F1 := by
    refine part1.permK ?_
    rw [blocks, List.perm_iff_count]
    intro z
    simp only [List.count_append, List.count_cons, List.count_nil]
    omega
  obtain ⟨ax, ay, xy, awayOf⟩ := part2.apart
  generalize hup : X.slot (ceil p.M) = up at run
  generalize hnode : splitParent root 0 up x y = node at run
  obtain ⟨part3, wrote⟩ := part2.flush_three (A := node) (X := splitLeft X (ceil p.M))
    (Y := splitRight X Y (ceil p.M))
    (by
      have key := t.part.keyNode inA
      rw [← hnode, ← hroot]
      exact ⟨key.self, key.use, key.type⟩)
    ⟨keyX.self, keyX.use, keyX.type⟩ ⟨keyY.self, keyY.use, keyY.type⟩
    (by simp) (by simp) (by simp) ax ay xy
  generalize nodeFlush (nodeFlush (nodeFlush s1 node) (splitLeft X (ceil p.M)))
    (splitRight X Y (ceil p.M)) = s2 at run part3 wrote
  obtain ⟨atA, atX, atY, away1, db2⟩ := wrote
  have away : ∀ z, z ≠ a → z ≠ x → z ≠ y → s2.file.disk z = s.file.disk z := fun z za zx zy =>
    (away1 z za zx zy).trans (other z zx zy)
  have kept : ∀ z ∈ blocksOf s.file.disk h (kids (s.file.disk a)) ++ R ++ V,
      s2.file.disk z = s.file.disk z := fun z hz =>
    away z (awayOf z hz).1 (awayOf z hz).2.1 (awayOf z hz).2.2
  have bound : ceil p.M < X.num := by omega
  have sameEnts : ∀ i n, X.ents i n = (s.file.disk a).ents i n := fun i n => by
    rw [BtreeNode.ents, BtreeNode.ents, slot]
  have sameChs : ∀ i n, X.chs i n = (s.file.disk a).chs i n := fun i n => by
    rw [BtreeNode.chs, BtreeNode.chs, slot]
  have whole : entries (s.file.disk a) =
      entries (s2.file.disk x) ++ up.entry :: entries (s2.file.disk y) := by
    rw [atX, atY, splitLeft_entries, splitRight_entries, ← hup, sameEnts, sameEnts, slot, num]
    exact entries_focus _ (by omega)
  have wholeKids : kids (s.file.disk a) = kids (s2.file.disk x) ++ kids (s2.file.disk y) := by
    rw [atX, atY, splitLeft_kids, splitRight_kids _ _ bound, sameChs, sameChs, num]
    exact kids_halves _ (num ▸ bound)
  have ents : entries (s2.file.disk a) = [] ++ up.entry :: [] := by
    rw [atA, ← hnode, splitParent_entries _ _ _ _ (by omega), rootNum]
    rfl
  have chs : kids (s2.file.disk a) = [] ++ x :: y :: [] := by
    rw [atA, ← hnode, splitParent_kids _ _ _ _ (by omega), rootNum]
    rfl
  have seg : Seg s2.file.disk a [] [] [] [] [x,
      y] (entries (s.file.disk a)) (kids (s.file.disk a)) := by
    rw [whole, wholeKids]
    exact .two x y up.entry ents chs
  have numA : (s2.file.disk a).num = 1 := by
    rw [atA, ← hnode]
    simp only [splitParent, rootNum]
  have numX : (s2.file.disk x).num = ceil p.M := by rw [atX]; rfl
  have numY : (s2.file.disk y).num = X.num - ceil p.M - 1 := by rw [atY]; rfl
  have sameK : ∀ z ∈ blocksOf s.file.disk h (kids (s.file.disk a)),
    s2.file.disk z = s.file.disk z :=
    fun z hz => kept z (List.mem_append_left _ (List.mem_append_left _ hz))
  have sameV : ∀ v ∈ V, s2.file.disk v = s.file.disk v := fun v hv =>
    kept v (List.mem_append_right _ hv)
  have same : flat s2.file.disk (h + 1) a = flat s.file.disk h a := by
    rw [seg.flat rfl, flatOf_congr _ _ sameK]
    simp [before, after, flat]
  refine ⟨s2, _, _, by rw [atA]; exact run, ⟨?_, ?_, ?_, by omega, fun _ => by omega, ?_⟩, same, sameV,
    by rw [db2]; exact total, numA⟩
  · refine part3.permK ?_
    have perm := seg.blocks (h := h)
    rw [blocksOf_congr _ sameK] at perm
    simpa [blocksOf_succ] using perm.symm.append_right R
  · rw [same]
    exact t.values.congr sameV
  · rw [atA, ← hnode, ← hroot]
    rfl
  · refine seg.children.mpr ⟨?_, t.children.congr sameK, by simp [ChildrenOk]⟩
    intro c hc
    simp only [List.mem_cons, List.not_mem_nil, or_false] at hc
    rcases hc with rfl | rfl
    · refine ⟨?_, by omega, by omega⟩
      rw [atX]
      exact leafX.trans t.leaf
    · refine ⟨?_, by omega, by omega⟩
      rw [atY]
      exact leafY.trans t.leaf

end Grow

/-! ### The whole database -/

section Stands
variable {κ : Type} [LinearOrder κ] {p : Shape} {O : KeyOrder κ p.keyType p.keySize}
  {grow : Nat → Bool} {key value : Bytes} {s s' : Db} {h : Nat} {R V F : List Nat}

/-- `R` holds the blocks in use that the tree has lost. -/
structure Stands (O : KeyOrder κ p.keyType p.keySize) (s : Db) (h : Nat)
    (R V F : List Nat) : Prop where
  tree : TreeAt p s h headSize R [] V F
  sorted : Sorted O (flat s.file.disk h headSize)
  total : s.db.keyTotal = (flat s.file.disk h headSize).length

def OneBlockLeft (grow : Nat → Bool) (s : Db) : Prop :=
  if s.db.free = 0 then grow s.file.size = true ∧ grow (s.file.size + blockSize) = false
  else (s.file.disk s.db.free).free = 0 ∧ grow s.file.size = false

/-- The root is full, and of the two blocks its split needs only one can be had. -/
def Leaks (grow : Nat → Bool) (s : Db) : Prop :=
  s.db.M - 1 ≤ (s.file.disk headSize).num ∧ OneBlockLeft grow s

theorem FreeChain.zero_iff {disk : Nat → BtreeNode} {off : Nat} {F : List Nat}
    (chain : FreeChain disk off F) (pos : ∀ f ∈ F, f ≠ 0) : off = 0 ↔ F = [] := by
  cases F with
  | nil => simpa [FreeChain] using chain
  | cons f fs =>
    have := pos f List.mem_cons_self
    simp [chain.1, this]

theorem oneBlockLeft_iff {K F1 : List Nat} {s1 : Db} {x : Nat} (part : Part p s K V F)
    (source : Source grow s s1 x F F1) :
    OneBlockLeft grow s ↔ F1 = [] ∧ grow s1.file.size = false := by
  have pos : ∀ f ∈ F, f ≠ 0 := by
    intro f hf
    have := (offsets_bounds (part.mem.mpr (.inr (.inr hf)))).1
    simp only [headSize] at this
    omega
  have first := part.chain.zero_iff pos
  rcases source with ⟨rfl, size⟩ | ⟨rfl, rfl, rfl, can, size⟩
  · have chain := part.chain
    have rest := chain.2.zero_iff fun f hf => pos f (List.mem_cons_of_mem _ hf)
    have some : s.db.free ≠ 0 := fun zero => by simp [zero] at first
    rw [OneBlockLeft, if_neg some, chain.1, rest, size]
  · rw [OneBlockLeft, if_pos (first.mpr rfl), size]
    simp [can]

theorem Inserted.sorted {es es' : List Entry} {r : Except Errno Int}
    (ins : Inserted O grow key value s s' es es' r) (sorted : Sorted O es) : Sorted O es' := by
  cases ins with
  | present e mem rank same total => exact same ▸ sorted
  | full same m stuck total => exact same ▸ sorted
  | added P Q e old new below above image rank stored total =>
    rw [old] at sorted
    rw [new]
    refine ⟨?_, ordered_insert sorted.ordered ?_ ?_⟩
    · intro f hf
      rcases List.mem_append.mp hf with hf | hf
      · exact sorted.image f (List.mem_append_left _ hf)
      · rcases List.mem_cons.mp hf with rfl | hf
        · exact image
        · exact sorted.image f (List.mem_append_right _ hf)
    · exact fun f hf => (below f hf).trans_eq rank.symm
    · exact fun f hf => rank.trans_lt (above f hf)

theorem Inserted.total {es es' : List Entry} {r : Except Errno Int}
    (ins : Inserted O grow key value s s' es es' r) (total : s.db.keyTotal = es.length) :
    s'.db.keyTotal = es'.length := by
  cases ins with
  | present e mem rank same tot => rw [tot, same, total]
  | full same m stuck tot => rw [tot, same, total]
  | added P Q e old new below above image rank stored tot =>
    rw [tot, new, total, old]
    simp only [List.length_append, List.length_cons]
    omega

theorem freshNode_key (d : DbT) (x : Nat) (leaf : Bool) : KeyNode (freshNode d x leaf .key) x :=
  ⟨rfl, rfl, rfl⟩

abbrev TooLong (d : DbT) (key : Bytes) : Prop := d.keyType = .stringKey ∧ d.keySize ≤ strlen key

theorem KeyOrder.not_long (O : KeyOrder κ p.keyType p.keySize) (has : s.db.Has p)
    (arg : O.arg key) :
    ¬ TooLong s.db key := by
  rintro ⟨type, long⟩
  have := O.short arg (has.keyType ▸ type)
  rw [has.keySize] at long
  omega

theorem dbInsert_open (grow : Nat → Bool) (t : TreeAt p s h headSize R [] V F)
    (short : ¬ TooLong s.db key)
    (acc : Accepted value) :
    dbInsert grow s key value =
      if p.M - 1 ≤ (s.file.disk headSize).num then
        match nodeCreate grow s (s.file.disk headSize).leaf .key with
        | none => .ok (s, .error .ENOMEM)
        | some (s1, X) =>
          match nodeCreate grow s1 (s.file.disk headSize).leaf .key with
          | none => .ok (s1, .error .ENOMEM)
          | some (s2, Y) => do
            let X := { X with
              num := (s.file.disk headSize).num
              slot := (s.file.disk headSize).slot
              bytes := (s.file.disk headSize).bytes }
            let node ← setChild s2.db { s.file.disk headSize with num := 0, leaf := false } 0 X.self
            let (s3, node, _, _) ← btreeSplitChild s2 node 0 X Y
            insertLoop grow key value s.file.size s3 node
      else insertLoop grow key value s.file.size s (s.file.disk headSize) := by
  have inRoot : headSize ∈ blocks s.file.disk h headSize ++ R := by simp [blocks]
  simp only [dbInsert]
  rw [t.seek inRoot, t.part.has.M]
  exact (if_neg short).trans (if_neg acc.fits)

inductive Started (grow : Nat → Bool) (key value : Bytes) (p : Shape) (s : Db) (h : Nat)
    (R V : List Nat) :
    Result (Db × Except Errno Int) → Prop where
  | loop (kept : ¬ Leaks grow s) (room : (s.file.disk headSize).num + 1 < p.M) :
      Started grow key value p s h R V (insertLoop grow key value s.file.size s
        (s.file.disk headSize))
  | grown (kept : ¬ Leaks grow s) (s2 : Db) (F2 : List Nat)
    (done : GrowDone p s s2 h headSize R [] V F2) :
      Started grow key value p s h R V (insertLoop grow key value s.file.size s2
        (s2.file.disk headSize))
  | full (kept : ¬ Leaks grow s) (m : Nat) (stuck : grow m = false) :
      Started grow key value p s h R V (.ok (s, .error .ENOMEM))
  | lost (leak : Leaks grow s) (s1 : Db) (x : Nat) (F1 : List Nat)
      (tree : TreeAt p s1 h headSize (x :: R) [] V F1)
      (same : flat s1.file.disk h headSize = flat s.file.disk h headSize)
      (values : ∀ v ∈ V, s1.file.disk v = s.file.disk v) (total : s1.db.keyTotal = s.db.keyTotal)
      (m : Nat) (stuck : grow m = false) :
      Started grow key value p s h R V (.ok (s1, .error .ENOMEM))

theorem dbInsert_started (grow : Nat → Bool) (t : TreeAt p s h headSize R [] V F)
    (short : ¬ TooLong s.db key) (acc : Accepted value) :
    Started grow key value p s h R V (dbInsert grow s key value) := by
  have M : s.db.M = p.M := t.part.has.M
  rw [dbInsert_open grow t short acc]
  by_cases full : p.M - 1 ≤ (s.file.disk headSize).num
  · rw [if_pos full]
    by_cases can : F ≠ [] ∨ grow s.file.size = true
    · obtain ⟨s1, x, F1, run1, part1, made1, source1, current1⟩ :=
        nodeCreate_key t.part (s.file.disk headSize).leaf can
      have leak := oneBlockLeft_iff t.part source1
      by_cases can1 : F1 ≠ [] ∨ grow s1.file.size = true
      · have keeps : ¬ Leaks grow s := by
          rintro ⟨_, one⟩
          obtain ⟨none, stuck⟩ := leak.mp one
          simp [none, stuck] at can1
        obtain ⟨s2, y, F2, run2, part2, made2, _, _⟩ :=
          nodeCreate_key part1 (s.file.disk headSize).leaf can1
        have other : ∀ z, z ≠ x → z ≠ y → s2.file.disk z = s.file.disk z := fun z zx zy =>
          (made2.other z zy).trans (made1.other z zx)
        obtain ⟨s3, X', Y', run3, done⟩ := t.grow full part2 other (made2.total.trans made1.total)
          (X := { freshNode s.db x (s.file.disk headSize).leaf .key with
            num := (s.file.disk headSize).num
            slot := (s.file.disk headSize).slot
            bytes := (s.file.disk headSize).bytes })
          ⟨rfl, rfl, rfl⟩ (freshNode_key s1.db y (s.file.disk headSize).leaf) rfl rfl rfl rfl
        have set : setChild s2.db { s.file.disk headSize with num := 0, leaf := false } 0
            (freshNode s.db x (s.file.disk headSize).leaf .key).self =
              .ok (emptyRoot (s.file.disk headSize) x) :=
          setSlot_ok (part2.has.fits_slot (Nat.zero_le _))
        simp only [run1, run2, set, bind, Except.bind, run3]
        exact .grown keeps s3 F2 done
      · simp only [ne_eq, not_or, Decidable.not_not, Bool.not_eq_true] at can1
        have fresh : x ∉ blocks s.file.disk h headSize ++ R ∧ x ∉ V := by
          have nd := part1.nodup
          simp only [List.cons_append, List.nodup_cons, List.mem_append, not_or] at nd
          exact ⟨by simpa using nd.1.1.1, nd.1.1.2⟩
        have same : ∀ y ∈ blocks s.file.disk h headSize, s1.file.disk y = s.file.disk y :=
          fun y hy =>
          made1.other y fun e => fresh.1 (e ▸ List.mem_append_left _ hy)
        have sameV : ∀ v ∈ V, s1.file.disk v = s.file.disk v := fun v hv =>
          made1.other v fun e => fresh.2 (e ▸ hv)
        obtain ⟨tree, sameFlat, _⟩ := t.transport (part1.permK List.perm_middle.symm)
          (t.values.congr sameV) same
        simp only [run1, nodeCreate_none part1 can1.1 can1.2]
        exact .lost ⟨M ▸ full, leak.mpr can1⟩ s1 x F1 tree sameFlat sameV made1.total _ can1.2
    · simp only [ne_eq, not_or, Decidable.not_not, Bool.not_eq_true] at can
      have keeps : ¬ Leaks grow s := by
        rintro ⟨_, one⟩
        have none : s.db.free = 0 := by
          have := t.part.chain
          rwa [can.1] at this
        simp [OneBlockLeft, none, can.2] at one
      rw [nodeCreate_none t.part can.1 can.2]
      exact .full keeps _ can.2
  · rw [if_neg full]
    exact .loop (fun leak => full (M ▸ leak.1)) (by omega)

def InsertsRoot (O : KeyOrder κ p.keyType p.keySize) (grow : Nat → Bool) (key value : Bytes)
    (s : Db) (h : Nat) (lost : List Nat → Prop) (run : Result (Db × Except Errno Int)) : Prop :=
  ∃ s' r h' R' V' F', run = .ok (s', r) ∧ Stands O s' h' R' V' F' ∧ lost R' ∧
    (∀ e ∈ flat s.file.disk h headSize, valueAt s'.file.disk e.2 = valueAt s.file.disk e.2) ∧
    Inserted O grow key value s s' (flat s.file.disk h headSize) (flat s'.file.disk h' headSize) r

theorem Inserts.root {run : Result (Db × Except Errno Int)} (st : Stands O s h R V F)
    (ins : Inserts O grow key value s h headSize R [] run) :
    InsertsRoot O grow key value s h (· = R) run := by
  obtain ⟨s', r, V', F', hrun, kept, done⟩ := ins
  refine ⟨s', r, h, R, V', F', hrun,
    ⟨kept.tree, done.sorted st.sorted, done.total st.total⟩, rfl, ?_,
    done⟩
  exact fun e he => kept.same e (by simpa using he)

theorem insertGrown (st : Stands O s h R V F) (arg : O.arg key) (acc : Accepted value) {s2 : Db}
    {F2 : List Nat} (done : GrowDone p s s2 h headSize R [] V F2) :
    InsertsRoot O grow key value s h (· = R)
      (insertLoop grow key value s.file.size s2 (s2.file.disk headSize)) := by
  have tall := st.tree.height_lt
  have small := p.order.1
  have ins : Inserts O grow key value s2 (h + 1) headSize R [] _ :=
    insertLoop_spec (h + 1) s.file.size s2 headSize R [] V F2 (by omega) done.tree
      (done.same ▸ st.sorted) arg acc (by rw [done.num]; omega)
  obtain ⟨s', r, V', F', hrun, kept, ins⟩ := ins
  have sameValues : ∀ e ∈ flat s.file.disk h headSize,
      valueAt s'.file.disk e.2 = valueAt s.file.disk e.2 := by
    intro e he
    have inV := st.tree.values.block e (by simpa using he)
    rw [kept.same e (by rw [done.same]; simpa using he), valueAt_congr (done.sameV _ inV)]
  rw [done.same] at ins
  have ins' : Inserted O grow key value s s' (flat s.file.disk h headSize)
      (flat s'.file.disk (h + 1) headSize) r := by
    cases ins with
    | present e mem rank same total => exact .present e mem rank same (total.trans done.total)
    | added P Q e old new below above image rank stored total =>
      exact .added P Q e old new below above image rank stored (done.total ▸ total)
    | full same m stuck total => exact .full same m stuck (total.trans done.total)
  exact ⟨s', r, h + 1, R, V', F', hrun,
    ⟨kept.tree, ins'.sorted st.sorted, ins'.total st.total⟩, rfl,
    sameValues, ins'⟩

theorem dbInsert_spec (st : Stands O s h R V F) (arg : O.arg key) (acc : Accepted value) :
    (¬ Leaks grow s ∧ InsertsRoot O grow key value s h (· = R) (dbInsert grow s key value)) ∨
      Leaks grow s ∧ ∃ s' x F', dbInsert grow s key value = .ok (s', .error .ENOMEM) ∧
        Stands O s' h (x :: R) V F' ∧ flat s'.file.disk h headSize = flat s.file.disk h headSize ∧
        (∀ v ∈ V, s'.file.disk v = s.file.disk v) ∧ ∃ n, grow n = false := by
  have started := dbInsert_started grow st.tree (O.not_long st.tree.part.has arg) acc
  generalize dbInsert grow s key value = run at started ⊢
  cases started with
  | loop keeps room =>
    have tall := st.tree.height_lt
    exact .inl ⟨keeps, Inserts.root st
      (insertLoop_spec h _ s headSize R [] V F (by omega) st.tree st.sorted arg acc room)⟩
  | grown keeps s2 F2 done => exact .inl ⟨keeps, insertGrown st arg acc done⟩
  | full keeps m stuck => exact .inl ⟨keeps, s, _, h, R, V, F, rfl, st, rfl, fun _ _ => rfl,
    .full rfl m stuck rfl⟩
  | lost leak s1 x F1 tree same values total m stuck =>
    exact .inr ⟨leak, s1, x, F1, rfl, ⟨tree, same ▸ st.sorted,
      by rw [same, total]; exact st.total⟩, same, values,
      m, stuck⟩

end Stands

end FileDb
