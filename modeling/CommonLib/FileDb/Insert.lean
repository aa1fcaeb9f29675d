import CommonLib.FileDb.TreeAt

/- `db_insert`: the in-order list gains the key where it belongs, or nothing changes. -/
namespace FileDb
open OrderedTree
variable {κ : Type} [LinearOrder κ] {p : Shape}

structure Kept (p : Shape) (s s' : Db) (h a : Nat) (R : List Nat) (E : List Entry)
    (V' F' : List Nat) : Prop where
  tree : TreeAt p s' h a R E V' F'
  frame : ∀ x ∈ R, s'.file.disk x = s.file.disk x
  same : ∀ e ∈ flat s.file.disk h a ++ E, valueAt s'.file.disk e.2 = valueAt s.file.disk e.2
  num : (s.file.disk a).num ≤ (s'.file.disk a).num

inductive Inserted (O : KeyOrder κ p.keyType p.keySize) (grow : Nat → Bool) (key value : Bytes)
    (s s' : Db) (es es' : List Entry) : Except Errno Int → Prop where
  | present (e : Entry) (mem : e ∈ es) (rank : O.rank e.1 = O.rank key) (same : es' = es)
      (total : s'.db.keyTotal = s.db.keyTotal) :
      Inserted O grow key value s s' es es' (.ok 0)
  | added (P Q : List Entry) (e : Entry) (old : es = P ++ Q) (new : es' = P ++ e :: Q)
      (below : ∀ a ∈ P, O.rank a.1 < O.rank key) (above : ∀ b ∈ Q, O.rank key < O.rank b.1)
      (image : O.img e.1) (rank : O.rank e.1 = O.rank key)
      (stored : valueAt s'.file.disk e.2 = value) (total : s'.db.keyTotal = s.db.keyTotal + 1) :
      Inserted O grow key value s s' es es' (.ok 1)
  | full (same : es' = es) (m : Nat) (stuck : grow m = false)
      (total : s'.db.keyTotal = s.db.keyTotal) :
      Inserted O grow key value s s' es es' (.error .ENOMEM)

def Inserts (O : KeyOrder κ p.keyType p.keySize) (grow : Nat → Bool) (key value : Bytes) (s : Db)
    (h a : Nat) (R : List Nat) (E : List Entry) (run : Result (Db × Except Errno Int)) : Prop :=
  ∃ s' r V' F', run = .ok (s', r) ∧ Kept p s s' h a R E V' F' ∧
    Inserted O grow key value s s' (flat s.file.disk h a) (flat s'.file.disk h a) r

section Insert
variable {O : KeyOrder κ p.keyType p.keySize} {grow : Nat → Bool} {key value : Bytes} {s s' : Db}
  {h a : Nat} {R V F V' F' : List Nat} {E : List Entry}

theorem Kept.refl (t : TreeAt p s h a R E V F) : Kept p s s h a R E V F :=
  ⟨t, fun _ _ => rfl, fun _ _ => rfl, le_rfl⟩

theorem Inserts.after {run : Result (Db × Except Errno Int)} (kept : Kept p s s' h a R E V' F')
    (same : flat s'.file.disk h a = flat s.file.disk h a)
    (total : s'.db.keyTotal = s.db.keyTotal) (ins : Inserts O grow key value s' h a R E run) :
    Inserts O grow key value s h a R E run := by
  obtain ⟨s2, r, V2, F2, hrun, kept2, done⟩ := ins
  refine ⟨s2, r, V2, F2, hrun, ⟨kept2.tree, ?_, ?_, kept.num.trans kept2.num⟩, ?_⟩
  · intro x hx
    rw [kept2.frame x hx, kept.frame x hx]
  · intro e he
    rw [kept2.same e (same ▸ he), kept.same e he]
  · rw [same] at done
    cases done with
    | present e mem rank eq tot => exact .present e mem rank eq (tot.trans total)
    | added P Q e old new below above image rank stored tot =>
      exact .added P Q e old new below above image rank stored (total ▸ tot)
    | full eq m stuck tot => exact .full eq m stuck (tot.trans total)

/-! ### At a leaf -/

theorem insertLeaf_gap {node b : BtreeNode} {i : Nat} {s1 : Db}
    (search : keyBinarySearch s.db node key = .ok (-(i : Int) - 1)) (hi : i ≤ node.num)
    (acc : Accepted value) (run : chooseValueBlock grow s value.length = (s1, some b))
    (fit : b.last + valueRoom value.length ≤ blockSize) (fN : Fits s1.db (node.num + 1)) :
    let s2 := nodeFlush (nodeFlush s1 (withValue b value)) (insertEntry node i
      (fun old => keyWrite s1.db.keyType s1.db.keySize old key) (b.self + b.last))
    insertLeaf grow key value s node =
      .ok (headFlush { s2 with db := { s2.db with keyTotal := s2.db.keyTotal + 1 } }, .ok 1) := by
  intro s2
  have below : slotMove node.slot (i + 1) node.slot i (node.num - i + 1) i = node.slot i :=
    slotMove_below (by omega)
  have fits : Fits s1.db i := fN.mono (by omega)
  simp only [insertLeaf, search, bind, Except.bind]
  rw [if_neg (by omega), show (-(-(i : Int) - 1 + 1)).toNat = i by omega]
  simp only [run, storeValue_ok acc fit, flush_db, openSlot_ok hi fN, setSlot_ok fits, below]
  rfl

theorem TreeAt.enterLeaf (t : TreeAt p s 0 a R E V F) {s2 : Db} {i : Nat} (key' : Bytes → Bytes)
    {offset : Nat} (hi : i ≤ (s.file.disk a).num) (room : (s.file.disk a).num + 1 ≤ p.M)
    (part : Part p s2 (blocks s.file.disk 0 a ++ R) V' F')
    (values : Values s2.file.disk V' ((key' ((s.file.disk a).slot i).key, offset) ::
      (flat s.file.disk 0 a ++ E))) :
    let s3 := nodeFlush s2 (insertEntry (s.file.disk a) i key' offset)
    TreeAt p s3 0 a R E V' F' ∧
      flat s3.file.disk 0 a = (s.file.disk a).ents 0 i ++
        (key' ((s.file.disk a).slot i).key, offset) ::
          (s.file.disk a).ents i ((s.file.disk a).num - i) ∧
      s3.file.disk = Function.update s2.file.disk a
          (insertEntry (s.file.disk a) i key' offset) := by
  intro s3
  have inK : a ∈ blocks s.file.disk 0 a ++ R := by simp [blocks]
  have disk : s3.file.disk =
      Function.update s2.file.disk a (insertEntry (s.file.disk a) i key' offset) :=
    congrArg (fun x => Function.update s2.file.disk x _) t.self
  have here : s3.file.disk a = insertEntry (s.file.disk a) i key' offset := by
    rw [disk, Function.update_self]
  have flat3 : flat s3.file.disk 0 a = (s.file.disk a).ents 0 i ++
      (key' ((s.file.disk a).slot i).key, offset) ::
        (s.file.disk a).ents i ((s.file.disk a).num - i) := by
    rw [← insertEntry_entries _ _ _ hi, ← here]
    rfl
  refine ⟨⟨?_, ?_, ?_, ?_, fun h => absurd rfl h, ?_⟩, flat3, disk⟩
  · have old := t.part.keyNode inK
    exact part.flush_key ⟨old.self, old.use, old.type⟩ inK
  · have perm : (flat s3.file.disk 0 a ++ E).Perm
        ((key' ((s.file.disk a).slot i).key, offset) :: (flat s.file.disk 0 a ++ E)) := by
      have old : flat s.file.disk 0 a = _ := entries_split (s.file.disk a) hi
      rw [flat3, old, List.append_assoc, List.cons_append, List.append_assoc]
      exact List.perm_middle
    refine (values.perm perm.symm).congr fun v hv => ?_
    have away : v ≠ a := fun eq => (part.disjoint.1 a inK).1 (eq ▸ hv)
    rw [disk, Function.update_of_ne away]
  · rw [here]; exact t.leaf
  · rw [here]; exact room
  · intro c hc
    rw [here] at hc
    exact t.children c (insertEntry_kids _ _ _ hi c hc)

theorem TreeAt.total (t : TreeAt p s h a R E V F) (n : Nat) :
    TreeAt p (headFlush { s with db := { s.db with keyTotal := n } }) h a R E V F :=
  ⟨t.part.headFlush (t.part.has.congr rfl rfl rfl rfl) rfl rfl rfl t.part.current, t.values, t.leaf,
    t.num, t.inner, t.children⟩

theorem slice_below {b : BtreeNode} {i : Nat}
    (below : ∀ j < i, O.rank (b.slot j).key < O.rank key) :
    ∀ e ∈ b.ents 0 i, O.rank e.1 < O.rank key := by
  intro e he
  obtain ⟨j, hj, rfl⟩ := mem_slice.mp he
  rw [Nat.zero_add]
  exact below j hj

theorem slice_above {b : BtreeNode} {i : Nat}
    (above : ∀ j, i ≤ j → j < b.num → O.rank key < O.rank (b.slot j).key) :
    ∀ e ∈ b.ents i (b.num - i), O.rank key < O.rank e.1 := by
  intro e he
  obtain ⟨j, hj, rfl⟩ := mem_slice.mp he
  exact above (i + j) (by omega) (by omega)

structure Landed (value : Bytes) (s s' : Db) (V V' : List Nat) (b : BtreeNode) : Prop where
  mem : b.self ∈ V'
  old : b.self ∈ V → b = s.file.disk b.self
  start : b.self ∉ V → b.last = nodeHead
  new : s'.file.disk b.self = withValue b value
  room : b.last + valueRoom value.length ≤ blockSize

theorem Chosen.landed {K V1 F1 : List Nat} {s1 s2 : Db} {b : BtreeNode} (part : Part p s K V F)
    (part1 : Part p s1 K V1 F1) (chosen : Chosen s s1 V V1 b)
    (new : s2.file.disk b.self = withValue b value)
    (room : b.last + valueRoom value.length ≤ blockSize) :
    Landed value s s2 V V1 b := by
  cases chosen with
  | old v mem same disk =>
    have self := part.self v (part.value_mem mem)
    refine ⟨?_, ?_, ?_, new, room⟩
    · rw [self, same]
      exact mem
    · intro _
      rw [self]
    · intro out
      rw [self] at out
      exact absurd mem out
  | new x fresh block other =>
    refine ⟨fresh ▸ List.mem_cons_self, ?_, fun _ => rfl, new, room⟩
    intro mem
    have nodup : (x :: V).Nodup := fresh ▸ part1.value_nodup
    exact absurd mem (List.nodup_cons.mp nodup).1

/-- What an insertion makes of a leaf without the key: nothing where no value block could
    be had, else a new entry at slot `i`. -/
inductive LeafInserted (grow : Nat → Bool) (key value : Bytes) (p : Shape) (s s' : Db) (a i : Nat)
    (V V' : List Nat) : Except Errno Int → Prop where
  | full (same : flat s'.file.disk 0 a = flat s.file.disk 0 a) (m : Nat) (stuck : grow m = false)
      (total : s'.db.keyTotal = s.db.keyTotal) :
      LeafInserted grow key value p s s' a i V V' (.error .ENOMEM)
  | added (b : BtreeNode) (landed : Landed value s s' V V' b) (e : Entry)
      (new : flat s'.file.disk 0 a = (s.file.disk a).ents 0 i ++
        e :: (s.file.disk a).ents i ((s.file.disk a).num - i))
      (offset : e.2 = b.self + b.last)
      (image : e.1 = keyWrite p.keyType p.keySize ((s.file.disk a).slot i).key key)
      (stored : valueAt s'.file.disk e.2 = value) (total : s'.db.keyTotal = s.db.keyTotal + 1) :
      LeafInserted grow key value p s s' a i V V' (.ok 1)

theorem insertLeaf_at (t : TreeAt p s 0 a R E V F) (acc : Accepted value)
    (room : (s.file.disk a).num + 1 ≤ p.M) {i : Nat} (hi : i ≤ (s.file.disk a).num)
    (search : keyBinarySearch s.db (s.file.disk a) key = .ok (-(i : Int) - 1)) :
    ∃ s' r V' F', insertLeaf grow key value s (s.file.disk a) = .ok (s', r) ∧
      Kept p s s' 0 a R E V' F' ∧ LeafInserted grow key value p s s' a i V V' r := by
  rcases chooseValueBlock_spec t.part t.values grow acc with
    ⟨s1, run, _, stuck, part1, disk1, _, total1⟩ | ⟨s1, b, V1, F1, run, part1, chosen, fit, total1⟩
  · -- no value block: only `current` may have changed
    obtain ⟨tree, same, _⟩ := t.transport part1 (t.values.congr fun v _ => by rw [disk1])
      fun x _ => by rw [disk1]
    refine ⟨s1, .error .ENOMEM, V, F, ?_, ⟨tree, ?_, ?_, ?_⟩, .full same _ stuck total1⟩
    · simp only [insertLeaf, search, bind, Except.bind]
      rw [if_neg (by omega)]
      simp only [run]
      rfl
    · exact fun x _ => by rw [disk1]
    · exact fun e _ => by rw [disk1]
    · rw [disk1]
  · have has := part1.has
    obtain ⟨part2, values2, stored, same2, keys2⟩ :=
      placeValue t.part t.values part1 chosen acc fit
        (keyWrite s1.db.keyType s1.db.keySize ((s.file.disk a).slot i).key key)
    obtain ⟨tree, flat3, disk3⟩ := t.enterLeaf
      (fun old => keyWrite s1.db.keyType s1.db.keySize old key) hi room part2 values2
    have inK : a ∈ blocks s.file.disk 0 a ++ R := by simp [blocks]
    have sameV : ∀ v ∈ V1, (nodeFlush (nodeFlush s1 (withValue b value))
        (insertEntry (s.file.disk a) i (fun old => keyWrite s1.db.keyType s1.db.keySize old key)
          (b.self + b.last))).file.disk v = (nodeFlush s1 (withValue b value)).file.disk v := by
      intro v hv
      have away : v ≠ a := fun eq => (part2.disjoint.1 a inK).1 (eq ▸ hv)
      rw [disk3, Function.update_of_ne away]
    have wrote : (nodeFlush s1 (withValue b value)).file.disk b.self = withValue b value :=
      Function.update_self ..
    have landed := chosen.landed t.part part1 wrote fit
    refine ⟨_, .ok 1, V1, F1, insertLeaf_gap search hi acc run fit (has.fits_slot room),
      ⟨tree.total _, ?_, ?_, ?_⟩, .added b ?_ _ flat3 rfl ?_ ?_ (congrArg (· + 1) total1)⟩
    · intro x hx
      have inK : x ∈ blocks s.file.disk 0 a ++ R := List.mem_append_right _ hx
      have away : x ≠ a := by
        rintro rfl
        exact (List.nodup_cons.mp t.part.key_nodup).1 (List.mem_append_right _ hx)
      refine (congrFun disk3 x).trans ?_
      rw [Function.update_of_ne away, keys2 x inK]
    · intro e he
      have inV := values2.block e (List.mem_cons_of_mem _ he)
      exact (valueAt_congr (sameV _ inV)).trans (same2 e he)
    · refine (Nat.le_succ _).trans (le_of_eq ?_)
      exact (congrArg BtreeNode.num ((congrFun disk3 a).trans (Function.update_self ..))).symm
    · exact { landed with new := (sameV _ landed.mem).trans landed.new }
    · rw [← has.write]
    · exact (valueAt_congr (sameV _ (values2.block _ List.mem_cons_self))).trans stored

theorem insertLeaf_spec (t : TreeAt p s 0 a R E V F) (sorted : Sorted O (flat s.file.disk 0 a))
    (arg : O.arg key) (acc : Accepted value) (room : (s.file.disk a).num + 1 ≤ p.M) :
    Inserts O grow key value s 0 a R E (insertLeaf grow key value s (s.file.disk a)) := by
  obtain ⟨r, search, found⟩ := t.search O sorted arg
  cases found with
  | «at» i hi eq =>
    refine ⟨s, .ok 0, V, F, ?_, .refl t, .present _ (mem_entries hi) eq rfl rfl⟩
    simp only [insertLeaf, search, bind, Except.bind]
    rw [if_pos (by omega)]
    rfl
  | gap i hi below above =>
    obtain ⟨s', r, V', F', run, kept, done⟩ := insertLeaf_at t acc room hi search
    refine ⟨s', r, V', F', run, kept, ?_⟩
    cases done with
    | full same m stuck total => exact .full same m stuck total
    | added b landed e new offset image stored total =>
      refine .added _ _ e (entries_split _ hi) new (slice_below below)
        (slice_above above) ?_ ?_ stored total
      · exact image ▸ O.write_img _ arg
      · rw [image]
        exact O.write_rank _ arg

/-! ### Splitting a full child -/

structure SplitDone (p : Shape) (s s' : Db) (h a x y i : Nat) (R : List Nat) (E : List Entry)
    (V F' : List Nat) : Prop where
  kept : Kept p s s' h a R E V F'
  same : flat s'.file.disk h a = flat s.file.disk h a
  total : s'.db.keyTotal = s.db.keyTotal
  up : ((s'.file.disk a).slot i).entry ∈ flat s.file.disk h a
  num : (s'.file.disk a).num = (s.file.disk a).num + 1
  ents : entries (s'.file.disk a) = (s.file.disk a).ents 0 i ++ ((s'.file.disk a).slot i).entry ::
    (s.file.disk a).ents i ((s.file.disk a).num - i)
  chs : kids (s'.file.disk a) = (s.file.disk a).chs 0 i ++
    x :: y :: (s.file.disk a).chs (i + 1) ((s.file.disk a).num - i)
  left : (s'.file.disk x).num = ceil p.M
  right : (s'.file.disk y).num ≤ ceil p.M + 1

theorem TreeAt.split (t : TreeAt p s (h + 1) a R E V F) {i : Nat} (hi : i ≤ (s.file.disk a).num)
    (room : (s.file.disk a).num + 1 ≤ p.M) {x : Nat} (hx : ((s.file.disk a).slot i).child = x)
    (full : p.M - 1 ≤ (s.file.disk x).num) {s1 : Db} {y : Nat} {Y : BtreeNode} {F1 : List Nat}
    (part1 : Part p s1 (y :: (blocks s.file.disk (h + 1) a ++ R)) V F1) (made : Created s s1 y Y)
    (hY : Y = freshNode s.db y (s.file.disk x).leaf .key) :
    ∃ s2, btreeSplitChild s1 (s.file.disk a) i (s.file.disk x) Y =
        .ok (s2, s2.file.disk a, s2.file.disk x, s2.file.disk y) ∧
      SplitDone p s s2 (h + 1) a x y i R E V F1 := by
  have bounds := ceil_bounds p
  have child := t.child_ok hi
  rw [hx] at child
  have selfA := t.self
  have inX : x ∈ blocks s.file.disk (h + 1) a ++ R := hx ▸ child_mem hi
  have selfX : (s.file.disk x).self = x := t.part.self x (t.block_mem inX)
  have selfY : Y.self = y := by rw [hY]; rfl
  have has := part1.has
  have M1 : s1.db.M = p.M := has.M
  have upper := child.upper
  have run := btreeSplitChild_ok s1 (s.file.disk a) (s.file.disk x) Y i hi (by rw [M1]; omega)
    (has.fits_slot child.upper) (has.fits_slot room)
  simp only [selfX, selfY, M1] at run
  -- the child holds what the two halves hold
  have seg : Seg s.file.disk a _ _ _ _ [x] (entries (s.file.disk x)) (kids (s.file.disk x)) :=
    .one x (entries_split _ hi) (by rw [kids_focus _ hi, hx])
  obtain ⟨rest, hrest⟩ : ∃ rest, blocksOf s.file.disk h (kids (s.file.disk x)) ++
      blocksOf s.file.disk (h + 1) ((s.file.disk a).chs 0 i ++
        (s.file.disk a).chs (i + 1) ((s.file.disk a).num - i)) = rest := ⟨_, rfl⟩
  have perm := seg.blocks (h := h)
  rw [hrest] at perm
  have part2 : Part p s1 (a :: ([x, y] ++ rest) ++ R) V F1 := by
    refine part1.permK (((perm.append_right R).cons y).trans ?_)
    rw [List.perm_iff_count]
    intro z
    simp only [List.count_append, List.count_cons, List.count_nil]
    omega
  obtain ⟨ax, ay, xy, awayOf⟩ := part2.apart
  generalize hup : (s.file.disk x).slot (ceil p.M) = up at run
  generalize hnode : splitParent (s.file.disk a) i up x y = node at run
  obtain ⟨part3, wrote⟩ := part2.flush_three (A := node)
    (X := splitLeft (s.file.disk x) (ceil p.M)) (Y := splitRight (s.file.disk x) Y (ceil p.M))
    (by
      have key := t.part.keyNode (k := a) (by simp [blocks])
      rw [← hnode]
      exact ⟨key.self, key.use, key.type⟩)
    (by
      have key := t.part.keyNode inX
      exact ⟨key.self, key.use, key.type⟩)
    (by rw [hY]; exact ⟨rfl, rfl, rfl⟩) (by simp) (by simp) (by simp) ax ay xy
  generalize nodeFlush (nodeFlush (nodeFlush s1 node) (splitLeft (s.file.disk x) (ceil p.M)))
    (splitRight (s.file.disk x) Y (ceil p.M)) = s2 at run part3 wrote
  obtain ⟨atA, atX, atY, away1, db2⟩ := wrote
  have away : ∀ z, z ≠ a → z ≠ x → z ≠ y → s2.file.disk z = s.file.disk z := fun z za zx zy =>
    (away1 z za zx zy).trans (made.other z zy)
  have kept : ∀ z ∈ rest ++ R ++ V, s2.file.disk z = s.file.disk z := fun z hz =>
    away z (awayOf z hz).1 (awayOf z hz).2.1 (awayOf z hz).2.2
  have bound : ceil p.M < (s.file.disk x).num := by omega
  have whole : entries (s.file.disk x) =
      entries (s2.file.disk x) ++ up.entry :: entries (s2.file.disk y) := by
    rw [atX, atY, splitLeft_entries, splitRight_entries, ← hup]
    exact entries_focus _ bound
  have wholeKids : kids (s.file.disk x) = kids (s2.file.disk x) ++ kids (s2.file.disk y) := by
    rw [atX, atY, splitLeft_kids, splitRight_kids _ _ bound]
    exact kids_halves _ bound
  have upEq : ((s2.file.disk a).slot i).entry = up.entry := by
    rw [atA, ← hnode]
    simp [splitParent, BtreeKey.entry]
  have ents : entries (s2.file.disk a) = (s.file.disk a).ents 0 i ++ up.entry ::
      (s.file.disk a).ents i ((s.file.disk a).num - i) := by
    rw [atA, ← hnode]; exact splitParent_entries _ _ _ _ hi
  have chs : kids (s2.file.disk a) = (s.file.disk a).chs 0 i ++
      x :: y :: (s.file.disk a).chs (i + 1) ((s.file.disk a).num - i) := by
    rw [atA, ← hnode]; exact splitParent_kids _ _ _ _ hi
  have seg' : Seg s2.file.disk a ((s.file.disk a).ents 0 i)
      ((s.file.disk a).ents i ((s.file.disk a).num - i)) ((s.file.disk a).chs 0 i)
      ((s.file.disk a).chs (i + 1) ((s.file.disk a).num - i)) [x, y] (entries (s.file.disk x))
      (kids (s.file.disk x)) := by
    rw [whole, wholeKids]
    exact .two x y up.entry ents chs
  have numA : (s2.file.disk a).num = (s.file.disk a).num + 1 := by rw [atA, ← hnode]; rfl
  have numX : (s2.file.disk x).num = ceil p.M := by rw [atX]; rfl
  have numY : (s2.file.disk y).num = (s.file.disk x).num - ceil p.M - 1 := by rw [atY]; rfl
  have sameV : ∀ v ∈ V, s2.file.disk v = s.file.disk v := fun v hv =>
    kept v (List.mem_append_right _ hv)
  obtain ⟨tree, same⟩ := t.reshape (by simp [BtreeNode.ents, BtreeNode.chs])
    seg seg' (fun z hz => by
      rw [hrest] at hz
      exact kept z (List.mem_append_left _ (List.mem_append_left _ hz)))
    sameV (by rw [hrest]; exact part3) (by
      have leaf : (s.file.disk a).leaf = false := by simpa using t.leaf
      rw [atA, ← hnode]
      exact leaf)
    (by omega) (by omega) (by
      intro c hc
      have leafX : (s.file.disk x).leaf = decide (h = 0) := child.leaf
      simp only [List.mem_cons, List.not_mem_nil, or_false] at hc
      rcases hc with rfl | rfl
      · exact ⟨by rw [atX]; exact leafX, by omega, by omega⟩
      · exact ⟨by rw [atY, hY]; exact leafX, by omega, by omega⟩)
  refine ⟨s2, by rw [atA, atX, atY]; exact run, ⟨tree, ?_, ?_, by omega⟩, same, ?_, ?_, numA,
    by rw [upEq]; exact ents, chs, numX, by omega⟩
  · intro z hz
    exact kept z (List.mem_append_left _ (List.mem_append_right _ hz))
  · intro e he
    exact valueAt_congr (sameV _ (t.values.block e he))
  · rw [db2]; exact made.total
  · rw [upEq, ← same]
    refine (entries_sublist_flat (h + 1) a).subset ?_
    rw [ents]; simp

/-! ### The descent -/

theorem Inserts.widen {c h' : Nat} {P Q : List Entry} {side : List Nat}
    {run : Result (Db × Except Errno Int)} (t : TreeAt p s h' a R E V F)
    (ctx : Ctx s.file.disk h c h' a P Q side) (below : ∀ e ∈ P, O.rank e.1 < O.rank key)
    (above : ∀ e ∈ Q, O.rank key < O.rank e.1) (lower : h' = h ∨ ceil p.M - 1 ≤ (s.file.disk c).num)
    (ins : Inserts O grow key value s h c (side ++ R) (P ++ Q ++ E) run) :
    Inserts O grow key value s h' a R E run := by
  obtain ⟨s', r, V', F', hrun, kept, done⟩ := ins
  have side' : ∀ x ∈ side, s'.file.disk x = s.file.disk x := fun x hx =>
    kept.frame x (List.mem_append_left _ hx)
  obtain ⟨tree, flat'⟩ := t.unfocus ctx kept.tree side' (lower.imp_right fun l => l.trans kept.num)
  have flat := ctx.flat
  refine ⟨s', r, V', F', hrun, ⟨tree,
    fun x hx => kept.frame x (List.mem_append_right _ hx), ?_, ?_⟩,
    ?_⟩
  · intro e he
    refine kept.same e ?_
    rw [flat] at he
    simp only [List.mem_append] at he ⊢
    tauto
  · cases ctx with
    | here => exact kept.num
    | child E₁ E₂ A B ents chs len => rw [side' a List.mem_cons_self]
  · rw [flat, flat']
    cases done with
    | present e mem rank same total =>
      exact .present e (by simp [mem]) rank (by rw [same]) total
    | added P' Q' e old new below' above' image rank stored total =>
      refine .added (P ++ P') (Q' ++ Q) e
        (by simp [old]) (by simp [new]) ?_ ?_ image rank stored total
      · exact fun f hf => (List.mem_append.mp hf).elim (below f) (below' f)
      · exact fun f hf => (List.mem_append.mp hf).elim (above' f) (above f)
    | full same m stuck total => exact .full (by rw [same]) m stuck total

theorem Sorted.around {E₁ E₂ : List Entry} {A B : List Nat} {c : Nat} {disk : Nat → BtreeNode}
    (sorted : Sorted O (before E₁ (A.map (flat disk h)) ++ flat disk h c ++
      after E₂ (B.map (flat disk h))))
    (below : ∀ e ∈ E₁, O.rank e.1 < O.rank key) (above : ∀ e ∈ E₂, O.rank key < O.rank e.1) :
    (∀ e ∈ before E₁ (A.map (flat disk h)), O.rank e.1 < O.rank key) ∧
      ∀ e ∈ after E₂ (B.map (flat disk h)), O.rank key < O.rank e.1 :=
  ⟨before_lt sorted.left.left.ordered below, after_gt sorted.right.ordered above⟩

structure Rearranged (p : Shape) (s s1 : Db) (h a : Nat) (R : List Nat) (E : List Entry)
    (V F1 : List Nat) : Prop where
  kept : Kept p s s1 h a R E V F1
  same : flat s1.file.disk h a = flat s.file.disk h a
  values : ∀ v ∈ V, s1.file.disk v = s.file.disk v
  total : s1.db.keyTotal = s.db.keyTotal

/-- How a round of the descent ends that has not found the key in slot `i`: no block for
    the split, the key itself in the entry that went up, or the child to go on with. -/
inductive Entered (grow : Nat → Bool) (key value : Bytes) (p : Shape) (s s1 : Db)
    (h a i fuel : Nat) :
    Result (Db × Except Errno Int) → Prop where
  | full (m : Nat) (stuck : grow m = false) :
      Entered grow key value p s s1 h a i fuel (.ok (s1, .error .ENOMEM))
  | equal (e : Entry) (mem : e ∈ flat s.file.disk (h + 1) a)
      (zero : keyCmp p.keyType key e.1 p.keySize = 0) :
      Entered grow key value p s s1 h a i fuel (.ok (s1, .ok 0))
  | child (c : Nat) (E₁ E₂ : List Entry) (A B : List Nat)
    (ents : entries (s1.file.disk a) = E₁ ++ E₂)
      (chs : kids (s1.file.disk a) = A ++ c :: B) (len : A.length = E₁.length)
      (left : ∀ e ∈ E₁, e ∈ (s.file.disk a).ents 0 i ∨ 0 < keyCmp p.keyType key e.1 p.keySize)
      (right : ∀ e ∈ E₂, e ∈ (s.file.disk a).ents i ((s.file.disk a).num - i) ∨
        keyCmp p.keyType key e.1 p.keySize < 0)
      (notFull : (s1.file.disk c).num + 1 < p.M) :
      Entered grow key value p s s1 h a i fuel (insertLoop grow key value fuel s1 (s1.file.disk c))

theorem TreeAt.split_values (t : TreeAt p s (h + 1) a R E V F) {i : Nat}
    (hi : i ≤ (s.file.disk a).num)
    (room : (s.file.disk a).num + 1 ≤ p.M) {x : Nat} (hx : ((s.file.disk a).slot i).child = x)
    (full : p.M - 1 ≤ (s.file.disk x).num) {s1 s2 : Db} {y : Nat} {Y : BtreeNode} {F1 : List Nat}
    {r : BtreeNode × BtreeNode × BtreeNode}
    (part1 : Part p s1 (y :: (blocks s.file.disk (h + 1) a ++ R)) V F1) (made : Created s s1 y Y)
    (self : Y.self = y) (run : btreeSplitChild s1 (s.file.disk a) i (s.file.disk x) Y =
    .ok (s2, r)) :
    ∀ v ∈ V, s2.file.disk v = s.file.disk v := by
  intro v hv
  have bounds := ceil_bounds p
  have has := part1.has
  have M1 : s1.db.M = p.M := has.M
  have child := t.child_ok hi
  rw [hx] at child
  have inX : x ∈ blocks s.file.disk (h + 1) a ++ R := hx ▸ child_mem hi
  have selfX : (s.file.disk x).self = x := t.part.self x (t.block_mem inX)
  have notY : v ≠ y := fun eq => (part1.disjoint.1 y List.mem_cons_self).1 (eq ▸ hv)
  have notA : v ≠ a := fun eq => t.value_block (x := a) (by simp [blocks]) (eq ▸ hv)
  have notX : v ≠ x := fun eq => t.value_block inX (eq ▸ hv)
  rw [btreeSplitChild_away hi
    (by rw [M1]; omega) (has.fits_slot child.upper) (has.fits_slot room) run
    (by rw [t.self]; exact notA) (by rw [selfX]; exact notX) (by rw [self]; exact notY)]
  exact made.other v notY

theorem insertLoop_round (grow : Nat → Bool) (value : Bytes) (t : TreeAt p s (h + 1) a R E V F)
    (room : (s.file.disk a).num + 1 < p.M)
    {i : Nat} (hi : i ≤ (s.file.disk a).num)
    (search : keyBinarySearch s.db (s.file.disk a) key = .ok (-(i : Int) - 1)) (fuel : Nat) :
    ∃ s1 F1, Rearranged p s s1 (h + 1) a R E V F1 ∧ Entered grow key value p s s1 h a i fuel
      (insertLoop grow key value (fuel + 1) s (s.file.disk a)) := by
  have leaf : (s.file.disk a).leaf = false := by simpa using t.leaf
  have M : s.db.M = p.M := t.part.has.M
  have bounds := ceil_bounds p
  have stay : Rearranged p s s (h + 1) a R E V F := ⟨.refl t, rfl, fun _ _ => rfl, rfl⟩
  obtain ⟨x, hx⟩ : ∃ x, ((s.file.disk a).slot i).child = x := ⟨_, rfl⟩
  have inX : x ∈ blocks s.file.disk (h + 1) a ++ R := hx ▸ child_mem hi
  simp only [insertLoop, leaf, Bool.false_eq_true, ↓reduceIte, search, bind, Except.bind]
  rw [if_neg (by omega), show (-(-(i : Int) - 1 + 1)).toNat = i by omega,
    slotAt_ok (t.fits (by have := t.num; omega))]
  simp only [hx, t.seek inX, M]
  by_cases notFull : (s.file.disk x).num < p.M - 1
  · rw [if_pos notFull]
    exact ⟨s, F, stay, .child x _ _ _ _ (entries_split _ hi) (by rw [kids_focus _ hi, hx])
      (by simp [BtreeNode.ents, BtreeNode.chs]) (fun _ => .inl) (fun _ => .inl) (by omega)⟩
  rw [if_neg notFull]
  by_cases can : F ≠ [] ∨ grow s.file.size = true
  · obtain ⟨s1, y, F1, run, part1, made, _, _⟩ := nodeCreate_key t.part (s.file.disk x).leaf can
    obtain ⟨s2, split, done⟩ := t.split hi (by omega) hx (by omega) part1 made rfl
    have values := t.split_values hi (by omega) hx (by omega) part1 made rfl split
    have has2 := done.kept.tree.part.has
    have upEntry := done.kept.tree.fits (show i ≤ p.M by have := t.num; omega)
    refine ⟨s2, F1, ⟨done.kept, done.same, values, done.total⟩, ?_⟩
    simp only [run, split, slotAt_ok upEntry, has2.compare]
    by_cases zero : keyCmp p.keyType key ((s2.file.disk a).slot i).key p.keySize = 0
    · rw [if_pos zero]
      exact .equal _ done.up zero
    rw [if_neg zero]
    by_cases pos : 0 < keyCmp p.keyType key ((s2.file.disk a).slot i).key p.keySize
    · -- to the right of the key that went up
      rw [if_pos pos]
      have right := done.right
      refine .child y ((s.file.disk a).ents 0 i ++ [((s2.file.disk a).slot i).entry])
        ((s.file.disk a).ents i ((s.file.disk a).num - i)) ((s.file.disk a).chs 0 i ++ [x]) _
        (by rw [done.ents]; simp) (by rw [done.chs, List.append_assoc]; rfl)
        (by simp [BtreeNode.ents, BtreeNode.chs]) ?_ (fun _ => .inl) (by omega)
      intro e he
      rcases List.mem_append.mp he with he | he
      · exact .inl he
      · rw [List.mem_singleton.mp he]
        exact .inr pos
    · rw [if_neg pos]
      have left := done.left
      refine .child x _ _ _ _ done.ents done.chs
        (by simp [BtreeNode.ents, BtreeNode.chs]) (fun _ => .inl) ?_
        (by omega)
      intro e he
      rcases List.mem_cons.mp he with rfl | he
      · exact .inr (show keyCmp p.keyType key ((s2.file.disk a).slot i).key p.keySize < 0 by omega)
      · exact .inl he
  · simp only [ne_eq, not_or, Decidable.not_not, Bool.not_eq_true] at can
    rw [nodeCreate_none t.part can.1 can.2]
    exact ⟨s, F, stay, .full _ can.2⟩

theorem insertLoop_spec (h fuel : Nat) (s : Db) (a : Nat) (R : List Nat) (E : List Entry)
    (V F : List Nat) (enough : h < fuel) (t : TreeAt p s h a R E V F)
    (sorted : Sorted O (flat s.file.disk h a)) (arg : O.arg key) (acc : Accepted value)
    (room : (s.file.disk a).num + 1 < p.M) :
    Inserts O grow key value s h a R E (insertLoop grow key value fuel s (s.file.disk a)) := by
  induction h generalizing fuel s a R E V F with
  | zero =>
    obtain ⟨fuel, rfl⟩ : ∃ n, fuel = n + 1 := ⟨fuel - 1, by omega⟩
    have leaf : (s.file.disk a).leaf = true := by simpa using t.leaf
    simp only [insertLoop, leaf, ↓reduceIte]
    exact insertLeaf_spec t sorted arg acc (by omega)
  | succ h ih =>
    obtain ⟨fuel, rfl⟩ : ∃ n, fuel = n + 1 := ⟨fuel - 1, by omega⟩
    have leaf : (s.file.disk a).leaf = false := by simpa using t.leaf
    have bounds := ceil_bounds p
    obtain ⟨r, search, found⟩ := t.search O sorted arg
    cases found with
    | «at» i hi eq =>
      refine ⟨s, .ok 0, V, F, ?_, .refl t, .present _
        ((entries_sublist_flat _ _).subset (mem_entries hi)) eq rfl rfl⟩
      simp only [insertLoop, leaf, Bool.false_eq_true, ↓reduceIte, search, bind, Except.bind]
      rw [if_pos (by omega)]
      rfl
    | gap i hi below above =>
      obtain ⟨s1, F1, round, entered⟩ := insertLoop_round grow value t room hi search fuel
      have t1 := round.kept.tree
      have sorted1 : Sorted O (flat s1.file.disk (h + 1) a) := round.same ▸ sorted
      refine Inserts.after round.kept round.same round.total ?_
      generalize insertLoop grow key value (fuel + 1) s (s.file.disk a) = run at entered ⊢
      cases entered with
      | full m stuck => exact ⟨s1, _, V, F1, rfl, .refl t1, .full rfl m stuck rfl⟩
      | equal e mem zero =>
        refine ⟨s1, .ok 0, V, F1, rfl, .refl t1, .present e (round.same ▸ mem) ?_ rfl rfl⟩
        exact ((O.zero_iff arg (sorted.image e mem)).mp zero).symm
      | child c E₁ E₂ A B ents chs len left right notFull =>
        have ctx : Ctx s1.file.disk h c (h + 1) a _ _ _ := .child E₁ E₂ A B ents chs len
        have image : ∀ e ∈ E₁ ++ E₂, O.img e.1 := fun e he =>
          sorted1.image e ((entries_sublist_flat _ _).subset (ents ▸ he))
        have belowE : ∀ e ∈ E₁, O.rank e.1 < O.rank key := fun e he =>
          (left e he).elim (slice_below below e) fun pos =>
            (O.pos_iff arg (image e (List.mem_append_left _ he))).mp pos
        have aboveE : ∀ e ∈ E₂, O.rank key < O.rank e.1 := fun e he =>
          (right e he).elim (slice_above above e) fun neg =>
            (O.neg_iff arg (image e (List.mem_append_right _ he))).mp neg
        rw [ctx.flat] at sorted1
        obtain ⟨belowP, aboveQ⟩ := sorted1.around belowE aboveE
        have node := (t1.children c (by rw [chs]; simp)).1
        refine Inserts.widen t1 ctx belowP aboveQ (.inr node.lower) ?_
        exact ih fuel s1 c _ _ V F1 (by omega) (t1.focus ctx) sorted1.left.right notFull

end Insert

end FileDb
