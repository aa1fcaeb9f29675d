import CommonLib.FileDb.Refill

/- `db_delete`: the in-order list loses the key, or nothing changes. A match in an
   internal node is overwritten by its neighbour in the list, which a leaf gives up. -/
namespace FileDb
open OrderedTree
variable {κ : Type} [LinearOrder κ] {p : Shape}

def afterChild (disk : Nat → BtreeNode) (h a i : Nat) : List Entry :=
  after ((disk a).ents i ((disk a).num - i))
    (((disk a).chs (i + 1) ((disk a).num - i)).map (flat disk h))

section Position
variable {disk : Nat → BtreeNode} {h a i x y : Nat}

theorem Pair.after_left (pair : Pair disk a i x y) :
    afterChild disk h a i = ((disk a).slot i).entry :: flat disk h y ++ rightOf disk h a i := by
  obtain ⟨m, hm⟩ : ∃ m, (disk a).num - i = m + 1 :=
    ⟨(disk a).num - i - 1, by have := pair.lt; omega⟩
  simp only [afterChild, rightOf, BtreeNode.ents, BtreeNode.chs, hm, Nat.add_sub_cancel]
  rw [slice_succ, slice_succ, List.map_cons, after, pair.right]

theorem after_succ (i : Nat) :
    afterChild disk h a (i + 1) = rightOf disk h a i := by
  rw [afterChild, rightOf, Nat.sub_add_eq]

theorem Pair.left_right (pair : Pair disk a i x y) :
    leftOf disk h a (i + 1) = leftOf disk h a i ++ flat disk h x ++ [((disk a).slot i).entry] := by
  simp only [leftOf, BtreeNode.ents, BtreeNode.chs]
  rw [slice_last, slice_last, List.map_append, List.map_cons, List.map_nil,
    before_last _ _ _ _ (by simp),
    Nat.zero_add, pair.left]

theorem Pair.flat (pair : Pair disk a i x y) :
    FileDb.flat disk (h + 1) a = leftOf disk h a i ++
      (FileDb.flat disk h x ++ ((disk a).slot i).entry :: FileDb.flat disk h y) ++
          rightOf disk h a i := by
  rw [pair.seg.flat (by simp [BtreeNode.ents, BtreeNode.chs]), flatOf_append _ _ _ _ _ (by simp)]
  rfl

end Position

section Enter
variable {s : Db} {h a i x y : Nat} {R V F : List Nat} {E : List Entry} {d : Descent}

theorem TreeAt.seekChild (t : TreeAt p s (h + 1) a R E V F) (hi : i ≤ (s.file.disk a).num) :
    seekChild s (s.file.disk a) i = .ok (s.file.disk ((s.file.disk a).slot i).child) := by
  have upper := t.num
  simp only [FileDb.seekChild, slotAt_ok (t.fits (show i ≤ p.M by omega)), bind, Except.bind]
  rw [t.seek (child_mem hi)]
  rfl

theorem Turned.mono {s' : Db} {h' c : Nat} {F' : List Nat} {P Q P' Q' : List Entry}
    (turned : Turned p s s' h h' a c R E V F' P Q) (hP : P <+: P') (hQ : Q <:+ Q') :
    Turned p s s' h h' a c R E V F' P' Q' := by
  obtain ⟨P1, Q1, side, ctx, left, right⟩ := turned.ctx
  exact { turned with ctx := ⟨P1, Q1, side, ctx, left.trans hP, right.trans hQ⟩ }

theorem mergeInto_spec (t : TreeAt p s (h + 1) a R E V F) (pair : Pair s.file.disk a i x y)
    (node : d.node = s.file.disk a) (poorX : (s.file.disk x).num ≤ ceil p.M)
    (poorY : (s.file.disk y).num ≤ ceil p.M) :
    ∃ s' F' c h', mergeInto s d i (s.file.disk x) (s.file.disk y) =
        .ok (s', { d with node := s'.file.disk c }) ∧
      Turned p s s' h h' a c R E V F' (leftOf s.file.disk h a i) (rightOf s.file.disk h a i) := by
  obtain ⟨s', F', sub, root, c, h', run, next, turned⟩ := t.merge pair poorX poorY
  refine ⟨s', F', c, h', ?_, turned⟩
  simp only [mergeInto, node, run, bind, Except.bind, next]
  rfl

theorem Ctx.ofChild {disk : Nat → BtreeNode} (hi : i ≤ (disk a).num) :
    Ctx disk h ((disk a).slot i).child (h + 1) a (leftOf disk h a i) (afterChild disk h a i)
      (a :: blocksOf disk (h + 1) ((disk a).chs 0 i ++ (disk a).chs (i + 1) ((disk a).num - i))) :=
  .child _ _ _ _ (entries_split _ hi) (kids_focus _ hi) (by simp [BtreeNode.ents, BtreeNode.chs])

theorem Turned.stay (t : TreeAt p s (h + 1) a R E V F) (hi : i ≤ (s.file.disk a).num)
    (rich : ceil p.M ≤ (s.file.disk ((s.file.disk a).slot i).child).num) :
    Turned p s s h (h + 1) a ((s.file.disk a).slot i).child R E V F (leftOf s.file.disk h a i)
      (afterChild s.file.disk h a i) where
  tree := t
  same := rfl
  frame _ _ := rfl
  sameV _ _ := rfl
  total := rfl
  ctx := ⟨_, _, _, .ofChild hi, List.prefix_refl _, List.suffix_refl _⟩
  rich := rich
  height := .inl ⟨rfl, by omega⟩

theorem TreeAt.seekChildIf (t : TreeAt p s (h + 1) a R E V F) {c : Bool}
    (hi : c = true → i ≤ (s.file.disk a).num) :
    ∃ W, seekChildIf c s (s.file.disk a) i = .ok W ∧
      (c = true → W = s.file.disk ((s.file.disk a).slot i).child) := by
  cases c with
  | false => exact ⟨_, rfl, fun h => nomatch h⟩
  | true => exact ⟨_, t.seekChild (hi rfl), fun _ => rfl⟩

theorem enterChild_spec (t : TreeAt p s (h + 1) a R E V F) (node : d.node = s.file.disk a)
    (hi : i ≤ (s.file.disk a).num) :
    ∃ s' F' c h', enterChild s d i = .ok (s', { d with node := s'.file.disk c }) ∧
      Turned p s s' h h' a c R E V F' (leftOf s.file.disk h a i)
          (afterChild s.file.disk h a i) := by
  have M : s.db.M = p.M := t.part.has.M
  have inner := t.inner (by omega)
  obtain ⟨X, hX⟩ : ∃ X, s.file.disk ((s.file.disk a).slot i).child = X := ⟨_, rfl⟩
  obtain ⟨Y, seekY, atY⟩ := t.seekChildIf (c := decide (i + 1 ≤ (s.file.disk a).num)) (i := i + 1)
    of_decide_eq_true
  obtain ⟨W, seekW, atW⟩ := t.seekChildIf (i := i - 1)
    (c := decide (1 ≤ i ∧ ((s.file.disk a).num < i + 1 ∨ Y.num ≤ ceil p.M))) (fun _ => by omega)
  rw [decide_eq_true_iff] at atY atW
  simp only [enterChild, node, t.seekChild hi, bind, Except.bind, M, seekY, seekW, hX]
  by_cases rich : ceil p.M < X.num
  · rw [if_pos rich, ← hX]
    exact ⟨s, F, _, h + 1, rfl, .stay t hi (hX ▸ rich.le)⟩
  rw [if_neg rich]
  by_cases right : i + 1 ≤ (s.file.disk a).num ∧ ceil p.M < Y.num
  · rw [if_pos right]
    obtain ⟨lt, richY⟩ := right
    have pair : Pair s.file.disk a i _ _ := ⟨lt, rfl, rfl⟩
    have hY := atY lt
    obtain ⟨s', run, turned⟩ := t.borrowRight pair (by rw [hX]; omega) (hY ▸ richY)
    rw [← hX, hY, run]
    exact ⟨s', F, _, h + 1, rfl, turned.mono (List.prefix_refl _)
      (pair.after_left ▸ List.suffix_refl _)⟩
  rw [if_neg right]
  by_cases left : 1 ≤ i ∧ ceil p.M < W.num
  · rw [if_pos left]
    obtain ⟨pos, richW⟩ := left
    have hW := atW ⟨pos, by omega⟩
    obtain ⟨j, rfl⟩ : ∃ j, i = j + 1 := ⟨i - 1, by omega⟩
    rw [Nat.add_sub_cancel] at hW
    have pair : Pair s.file.disk a j _ _ := ⟨hi, rfl, rfl⟩
    obtain ⟨s', run, turned⟩ := t.borrowLeft pair (hW ▸ richW) (by rw [hX]; omega)
    rw [← hX, hW, run]
    exact ⟨s', F, _, h + 1, rfl, turned.mono (pair.left_right ▸ List.prefix_refl _)
      (after_succ j ▸ List.suffix_refl _)⟩
  rw [if_neg left]
  by_cases lt : i + 1 ≤ (s.file.disk a).num
  · rw [if_pos lt]
    have pair : Pair s.file.disk a i _ _ := ⟨lt, rfl, rfl⟩
    have hY := atY lt
    obtain ⟨s', F', c, h', run, turned⟩ := mergeInto_spec t pair node (by rw [hX]; omega)
      (by rw [← hY]; omega)
    rw [← hX, hY]
    refine ⟨s', F', c, h', run, turned.mono (List.prefix_refl _) ?_⟩
    rw [pair.after_left]
    exact List.suffix_append _ _
  · rw [if_neg lt]
    have hW := atW ⟨by omega, by omega⟩
    obtain ⟨j, rfl⟩ : ∃ j, i = j + 1 := ⟨i - 1, by omega⟩
    rw [Nat.add_sub_cancel] at hW ⊢
    have pair : Pair s.file.disk a j _ _ := ⟨hi, rfl, rfl⟩
    obtain ⟨s', F', c, h', run, turned⟩ := mergeInto_spec t pair node (by rw [← hW]; omega)
      (by rw [hX]; omega)
    rw [← hX, hW]
    refine ⟨s', F', c, h', run, turned.mono ?_ (after_succ j ▸ List.suffix_refl _)⟩
    rw [pair.left_right, List.append_assoc]
    exact List.prefix_append _ _

end Enter

/-! ### The leaf -/

section Leaf
variable {s : Db} {h a m : Nat} {R V F : List Nat} {E : List Entry} {d : Descent} {e : Entry}

theorem TreeAt.flushFrame (t : TreeAt p s h a R E V F) {node : BtreeNode} (key : KeyNode node m)
    (mem : m ∈ R) : TreeAt p (nodeFlush s node) h a R E V F ∧
      flat (nodeFlush s node).file.disk h a = flat s.file.disk h a ∧
      (nodeFlush s node).file.disk = Function.update s.file.disk m node := by
  have disk : (nodeFlush s node).file.disk = Function.update s.file.disk m node := by
    rw [flush_disk, key.self]
  have inK : m ∈ blocks s.file.disk h a ++ R := List.mem_append_right _ mem
  have apart : ∀ x ∈ blocks s.file.disk h a, x ≠ m := by
    rintro x hx rfl
    exact (List.nodup_append.mp t.part.key_nodup).2.2 x hx x mem rfl
  obtain ⟨tree, same, _⟩ := t.transport (t.part.flush_key key inK)
    (t.values.congr fun v hv => by
      have apart : v ≠ m := fun eq => t.value_block inK (eq ▸ hv)
      rw [disk, Function.update_of_ne apart])
    fun x hx => by rw [disk, Function.update_of_ne (apart x hx)]
  exact ⟨tree, same, disk⟩

theorem TreeAt.dropEntry (t : TreeAt p s 0 a R E V F) {node : BtreeNode} (key : KeyNode node a)
    (leaf : node.leaf = (s.file.disk a).leaf) (num : node.num ≤ p.M)
    (kid : ∀ c ∈ kids node, c ∈ kids (s.file.disk a))
    (perm : (entries (s.file.disk a)).Perm (e :: entries node)) :
    TreeAt p (nodeFlush s node) 0 a R (e :: E) V F ∧
      (nodeFlush s node).file.disk = Function.update s.file.disk a node := by
  have disk : (nodeFlush s node).file.disk = Function.update s.file.disk a node := by
    rw [flush_disk, key.self]
  have inK : a ∈ blocks s.file.disk 0 a ++ R := by simp [blocks]
  have here : (nodeFlush s node).file.disk a = node := by rw [disk, Function.update_self]
  refine ⟨⟨t.part.flush_key key inK, ?_, ?_, ?_, fun h => absurd rfl h, ?_⟩, disk⟩
  · have all : (flat s.file.disk 0 a ++ E).Perm (flat (nodeFlush s node).file.disk 0 a ++
      e :: E) := by
      have after : flat (nodeFlush s node).file.disk 0 a =
          entries ((nodeFlush s node).file.disk a) := rfl
      rw [after, here]
      exact (perm.append_right E).trans List.perm_middle.symm
    refine (t.values.perm all).congr fun v hv => ?_
    have apart : v ≠ a := fun eq => t.value_block inK (eq ▸ hv)
    rw [disk, Function.update_of_ne apart]
  · rw [here, leaf]; exact t.leaf
  · rw [here]; exact num
  · intro c hc
    rw [here] at hc
    exact t.children c (kid c hc)

theorem TreeAt.release (t : TreeAt p s h a R (e :: E) V F) :
    ∃ V' F', TreeAt p (releaseValue s e.2) h a R E V' F' ∧
      flat (releaseValue s e.2).file.disk h a = flat s.file.disk h a ∧
      (∀ x ∈ blocks s.file.disk h a ++ R, (releaseValue s e.2).file.disk x = s.file.disk x) ∧
      (∀ f ∈ flat s.file.disk h a ++ E,
        valueAt (releaseValue s e.2).file.disk f.2 = valueAt s.file.disk f.2) ∧
      (releaseValue s e.2).db.keyTotal = s.db.keyTotal - 1 := by
  have values : Values s.file.disk V (e :: (flat s.file.disk h a ++ E)) :=
    t.values.perm List.perm_middle
  obtain ⟨V', F', part, values', same, keys, total⟩ := releaseValue_spec t.part values
  obtain ⟨tree, sameFlat, _⟩ := t.transport part values' fun x hx =>
    keys x (List.mem_append_left _ hx)
  exact ⟨V', F', tree, sameFlat, keys, same, total⟩

structure Pending (p : Shape) (s : Db) (d : Descent) (m : Nat) (R : List Nat)
    (old : Entry) : Prop where
  mem : m ∈ R
  node : d.nodeMatch = s.file.disk m
  lt : d.iMatch < p.M
  entry : ((s.file.disk m).slot d.iMatch).entry = old

def EndOf (flag : Flag) (e : Entry) (es es' : List Entry) : Prop :=
  flag = .less ∧ es = e :: es' ∨ flag = .more ∧ es = es' ++ [e]

def TakesEnd (p : Shape) (s : Db) (d : Descent) (h a m : Nat) (R : List Nat) (E : List Entry)
    (run : Result (Db × Except Errno Int)) : Prop :=
  ∃ s' V' F' k, run = .ok (s', .ok 1) ∧ TreeAt p s' h a R (k.entry :: E) V' F' ∧
    s'.file.disk m = replaceEntry (s.file.disk m) d.iMatch k ∧
    (∀ x ∈ R, x ≠ m → s'.file.disk x = s.file.disk x) ∧
    (∀ f ∈ flat s'.file.disk h a ++ k.entry :: E,
      valueAt s'.file.disk f.2 = valueAt s.file.disk f.2) ∧
    (s.file.disk a).num ≤ (s'.file.disk a).num + 1 ∧ s'.db.keyTotal = s.db.keyTotal - 1 ∧
    EndOf d.flag k.entry (flat s.file.disk h a) (flat s'.file.disk h a)

theorem takeEnd {old : Entry} (t : TreeAt p s 0 a R (old :: E) V F)
    (pending : Pending p s d m R old)
    {k : BtreeKey} {node : BtreeNode} (key : KeyNode node a)
    (leaf : node.leaf = (s.file.disk a).leaf) (num : (s.file.disk a).num = node.num + 1)
    (kid : ∀ c ∈ kids node, c ∈ kids (s.file.disk a))
    (ends : EndOf d.flag k.entry (entries (s.file.disk a)) (entries node)) :
    TakesEnd p s d 0 a m R E (.ok (releaseValue (nodeFlush (nodeFlush s
      (replaceEntry (s.file.disk m) d.iMatch k)) node) old.2, .ok 1)) := by
  have upper := t.num
  have inK : m ∈ blocks s.file.disk 0 a ++ R := List.mem_append_right _ pending.mem
  have keyM := t.part.keyNode inK
  have am : a ≠ m := by
    rintro rfl
    exact (List.nodup_cons.mp t.part.key_nodup).1 pending.mem
  have keyN : KeyNode (replaceEntry (s.file.disk m) d.iMatch k) m :=
    ⟨keyM.self, keyM.use, keyM.type⟩
  obtain ⟨t1, same1, disk1⟩ := t.flushFrame keyN pending.mem
  have db1 : (nodeFlush s (replaceEntry (s.file.disk m) d.iMatch k)).db = s.db := rfl
  generalize nodeFlush s (replaceEntry (s.file.disk m) d.iMatch k) = s1 at t1 same1 disk1 db1
  have here1 : s1.file.disk a = s.file.disk a := by rw [disk1, Function.update_of_ne am]
  have perm : (entries (s1.file.disk a)).Perm (k.entry :: entries node) := by
    rw [here1]
    rcases ends with ⟨_, first⟩ | ⟨_, last⟩
    · rw [first]
    · rw [last]; exact List.perm_append_singleton _ _
  obtain ⟨t2, disk2⟩ := t1.dropEntry key
    (by rw [here1, leaf]) (by omega) (by rw [here1]; exact kid) perm
  have db2 : (nodeFlush s1 node).db = s.db := db1
  generalize nodeFlush s1 node = s2 at t2 disk2 db2
  have here2 : s2.file.disk a = node := by rw [disk2, Function.update_self]
  have t3 := t2.permE (List.Perm.swap old k.entry E)
  obtain ⟨V', F', t4, same4, keys, values, total⟩ := t3.release
  have flat2 : flat s2.file.disk 0 a = entries node := by rw [← here2]; rfl
  have inR : ∀ x ∈ R, x ≠ a := by
    rintro x hx rfl
    exact (List.nodup_cons.mp t.part.key_nodup).1 hx
  have mem2 : ∀ x ∈ R, x ∈ blocks s2.file.disk 0 a ++ R := fun x hx => List.mem_append_right _ hx
  refine ⟨_, V', F', k, rfl, t4, ?_, ?_, ?_, ?_, ?_, ?_⟩
  · rw [keys m (mem2 m pending.mem), disk2, Function.update_of_ne am.symm, disk1,
      Function.update_self]
  · intro x hx ne
    rw [keys x (mem2 x hx), disk2, Function.update_of_ne (inR x hx), disk1,
      Function.update_of_ne ne]
  · intro f hf
    rw [values f (same4 ▸ hf)]
    have inV := t3.values.block f (by
      rw [same4] at hf
      simp only [List.mem_append, List.mem_cons] at hf ⊢
      grind)
    have notA : blockOf f.2 ≠ a := fun eq =>
      t3.value_block (show a ∈ blocks s2.file.disk 0 a ++ R by simp [blocks]) (eq ▸ inV)
    have notM : blockOf f.2 ≠ m := fun eq => t3.value_block (mem2 m pending.mem) (eq ▸ inV)
    exact valueAt_congr
      (by rw [disk2, Function.update_of_ne notA, disk1, Function.update_of_ne notM])
  · rw [keys a (by simp [blocks]), here2]
    omega
  · rw [total, db2]
  · rw [same4, flat2]
    exact ends

theorem deleteLeaf_flagged {key : Bytes} {old : Entry} (t : TreeAt p s 0 a R (old :: E) V F)
    (pending : Pending p s d m R old) (node : d.node = s.file.disk a) (flag : d.flag ≠ .zero)
    (pos : 1 ≤ (s.file.disk a).num) : TakesEnd p s d 0 a m R E (deleteLeaf key s d) := by
  have upper := t.num
  have lt := pending.lt
  have offset : ((s.file.disk m).slot d.iMatch).value = old.2 := congrArg Prod.snd pending.entry
  have keyA := t.part.keyNode (k := a) (by simp [blocks])
  have fits (i : Nat) (hi : i ≤ p.M) : Fits s.db i := t.fits hi
  cases hf : d.flag with
  | zero => exact absurd hf flag
  | less =>
    have close : keycpy s.db (s.file.disk a) 0 (s.file.disk a) 1 (((s.file.disk a).num : Int) - 1) =
        .ok { s.file.disk a with
          slot := slotMove (s.file.disk a).slot 0 (s.file.disk a).slot 1 (s.file.disk a).num } :=
      keycpy_ok (by omega) (.inr (fits _ (by omega))) (.inr (fits _ (by omega)))
    have run : deleteLeaf key s d = .ok (releaseValue (nodeFlush (nodeFlush s
        (replaceEntry (s.file.disk m) d.iMatch ((s.file.disk a).slot 0)))
          (dropFirst (s.file.disk a))) old.2, .ok 1) := by
      simp only [deleteLeaf, hf, node, pending.node, slotAt_ok (fits _ lt.le),
        slotAt_ok (fits 0 (by omega)), setKeyValue_ok (fits _ lt.le), bind, Except.bind, close, offset]
      rfl
    rw [run]
    refine takeEnd t pending ⟨keyA.self, keyA.use, keyA.type⟩ rfl
      (show (s.file.disk a).num = (s.file.disk a).num - 1 + 1 by omega) ?_ (.inl ⟨hf, ?_⟩)
    · rw [dropFirst_kids _ (by omega)]
      intro c hc
      obtain ⟨j, hj, rfl⟩ := mem_slice.mp hc
      exact mem_kids (by omega)
    · rw [dropFirst_entries]
      exact entries_focus (s.file.disk a) (show 0 < (s.file.disk a).num by omega)
  | more =>
    have run : deleteLeaf key s d = .ok (releaseValue (nodeFlush (nodeFlush s
        (replaceEntry (s.file.disk m) d.iMatch ((s.file.disk a).slot ((s.file.disk a).num - 1))))
          (dropLast (s.file.disk a))) old.2, .ok 1) := by
      simp only [deleteLeaf, hf, node, pending.node, slotAt_ok (fits _ lt.le),
        slotAt_ok (fits ((s.file.disk a).num - 1) (by omega)), setKeyValue_ok (fits _ lt.le), bind,
        Except.bind, offset]
      rfl
    rw [run]
    refine takeEnd t pending ⟨keyA.self, keyA.use, keyA.type⟩ rfl
      (show (s.file.disk a).num = (s.file.disk a).num - 1 + 1 by omega) ?_ (.inr ⟨hf, ?_⟩)
    · rw [dropLast_kids _ (by omega)]
      intro c hc
      obtain ⟨j, hj, rfl⟩ := mem_slice.mp hc
      exact mem_kids (by omega)
    · obtain ⟨n, hn⟩ : ∃ n, (s.file.disk a).num = n + 1 := ⟨(s.file.disk a).num - 1, by omega⟩
      rw [dropLast_entries, hn, Nat.add_sub_cancel]
      simp only [entries, BtreeNode.ents, hn]
      rw [slice_last, Nat.zero_add]

inductive Deleted (O : KeyOrder κ p.keyType p.keySize) (key : Bytes) (s s' : Db)
    (es es' : List Entry) : Except Errno Int → Prop where
  | absent (none : ∀ e ∈ es, O.rank e.1 ≠ O.rank key) (same : es' = es)
      (total : s'.db.keyTotal = s.db.keyTotal) : Deleted O key s s' es es' (.ok 0)
  | removed (P Q : List Entry) (e : Entry) (old : es = P ++ e :: Q) (new : es' = P ++ Q)
      (rank : O.rank e.1 = O.rank key) (total : s'.db.keyTotal = s.db.keyTotal - 1) :
      Deleted O key s s' es es' (.ok 1)

def Deletes (O : KeyOrder κ p.keyType p.keySize) (key : Bytes) (s : Db) (h a : Nat) (R : List Nat)
    (E : List Entry) (run : Result (Db × Except Errno Int)) : Prop :=
  ∃ s' r h' V' F', run = .ok (s', r) ∧ TreeAt p s' h' a R E V' F' ∧
    (∀ x ∈ R, s'.file.disk x = s.file.disk x) ∧
    (∀ f ∈ flat s'.file.disk h' a ++ E, valueAt s'.file.disk f.2 = valueAt s.file.disk f.2) ∧
    (2 ≤ (s.file.disk a).num → h' = h ∧ (s.file.disk a).num ≤ (s'.file.disk a).num + 1) ∧
    Deleted O key s s' (flat s.file.disk h a) (flat s'.file.disk h' a) r

structure Removed (p : Shape) (s s' : Db) (h a : Nat) (R : List Nat) (E : List Entry) (e : Entry)
    (V' F' : List Nat) : Prop where
  tree : TreeAt p s' h a R E V' F'
  frame : ∀ x ∈ R, s'.file.disk x = s.file.disk x
  values : ∀ f ∈ flat s'.file.disk h a ++ E, valueAt s'.file.disk f.2 = valueAt s.file.disk f.2
  num : (s.file.disk a).num ≤ (s'.file.disk a).num + 1
  total : s'.db.keyTotal = s.db.keyTotal - 1
  split : ∃ P Q, flat s.file.disk h a = P ++ e :: Q ∧ flat s'.file.disk h a = P ++ Q

theorem deleteLeaf_at (key : Bytes) (t : TreeAt p s 0 a R E V F) (node : d.node = s.file.disk a)
    (flag : d.flag = .zero) {i : Nat} (hi : i < (s.file.disk a).num)
    (search : keyBinarySearch s.db (s.file.disk a) key = .ok i) :
    ∃ s' V' F', deleteLeaf key s d = .ok (s', .ok 1) ∧
      Removed p s s' 0 a R E ((s.file.disk a).slot i).entry V' F' := by
  have upper := t.num
  have keyA := t.part.keyNode (k := a) (by simp [blocks])
  have run : deleteLeaf key s d = .ok (releaseValue (nodeFlush s (removeEntry (s.file.disk a) i))
      ((s.file.disk a).slot i).entry.2, .ok 1) := by
    simp only [deleteLeaf, flag, node, search, bind, Except.bind]
    rw [if_neg (by omega)]
    simp only [Int.toNat_natCast, slotAt_ok (t.fits (show i ≤ p.M by omega)),
      closeSlot_ok hi (t.fits upper)]
    rfl
  have old := entries_focus (s.file.disk a) hi
  have keyN : KeyNode (removeEntry (s.file.disk a) i) a := ⟨keyA.self, keyA.use, keyA.type⟩
  obtain ⟨t1, disk1⟩ := t.dropEntry keyN rfl
    (show (s.file.disk a).num - 1 ≤ p.M by omega) (removeEntry_kids _ i)
    (by rw [old, removeEntry_entries _ hi]; exact List.perm_middle)
  have db1 : (nodeFlush s (removeEntry (s.file.disk a) i)).db = s.db := rfl
  rw [run]
  generalize nodeFlush s (removeEntry (s.file.disk a) i) = s1 at t1 disk1 db1
  obtain ⟨V', F', t2, same2, keys, values, total⟩ := t1.release
  have here : s1.file.disk a = removeEntry (s.file.disk a) i := by rw [disk1, Function.update_self]
  have flat1 : flat s1.file.disk 0 a =
    entries (removeEntry (s.file.disk a) i) := by rw [← here]; rfl
  refine ⟨_, V', F', rfl, t2, ?_, ?_, ?_, by rw [total, db1], _, _, old, ?_⟩
  · intro x hx
    have apart : x ≠ a := by
      rintro rfl
      exact (List.nodup_cons.mp t.part.key_nodup).1 hx
    rw [keys x (List.mem_append_right _ hx), disk1, Function.update_of_ne apart]
  · intro f hf
    rw [values f (same2 ▸ hf)]
    have inV := t1.values.block f (by
      rw [same2] at hf
      simp only [List.mem_append, List.mem_cons] at hf ⊢
      grind)
    have apart : blockOf f.2 ≠ a := fun eq =>
      t1.value_block (show a ∈ blocks s1.file.disk 0 a ++ R by simp [blocks]) (eq ▸ inV)
    exact valueAt_congr (by rw [disk1, Function.update_of_ne apart])
  · rw [keys a (by simp [blocks]), here]
    simp only [removeEntry]
    omega
  · rw [same2, flat1, removeEntry_entries _ hi]

section Order
variable {O : KeyOrder κ p.keyType p.keySize} {key : Bytes}

theorem Removed.deletes {s' : Db} {V' F' : List Nat} {run : Result (Db × Except Errno Int)}
    (removed : Removed p s s' h a R E e V' F') (rank : O.rank e.1 = O.rank key)
    (hrun : run = .ok (s', .ok 1)) : Deletes O key s h a R E run := by
  obtain ⟨P, Q, old, new⟩ := removed.split
  exact ⟨s', .ok 1, h, V', F', hrun, removed.tree, removed.frame, removed.values,
    fun _ => ⟨rfl, removed.num⟩,
    .removed P Q e old new rank removed.total⟩

theorem deleteLeaf_spec (t : TreeAt p s 0 a R E V F) (sorted : Sorted O (flat s.file.disk 0 a))
    (arg : O.arg key) (node : d.node = s.file.disk a) (flag : d.flag = .zero) :
    Deletes O key s 0 a R E (deleteLeaf key s d) := by
  obtain ⟨r, search, found⟩ := t.search O sorted arg
  cases found with
  | gap i hi below above =>
    refine ⟨s, .ok 0, 0, V, F, ?_, t, fun _ _ => rfl, fun _ _ => rfl, fun _ => ⟨rfl, by omega⟩,
      .absent ?_ rfl rfl⟩
    · simp only [deleteLeaf, flag, node, search, bind, Except.bind]
      rw [if_pos (by omega)]
      rfl
    · intro e he
      have split : flat s.file.disk 0 a = _ := entries_split (s.file.disk a) hi
      rw [split] at he
      rcases List.mem_append.mp he with he | he
      · exact (slice_below below e he).ne
      · exact (slice_above above e he).ne'
  | «at» i hi eq =>
    obtain ⟨s', V', F', run, removed⟩ := deleteLeaf_at key t node flag hi search
    exact removed.deletes eq run

end Order

end Leaf

/-! ### The descent -/

section Descent
variable {s s' : Db} {h h' a c m : Nat} {R V F F' : List Nat} {E P Q : List Entry} {d : Descent}
  {O : KeyOrder κ p.keyType p.keySize} {key : Bytes}

theorem Turned.outside (turned : Turned p s s' h h' a c R E V F' P Q) {P' Q' : List Entry}
    {side : List Nat} (ctx : Ctx s'.file.disk h c h' a P' Q' side) : ∀ x ∈ side, x ∉ R := by
  intro x hx hR
  have inTree : x ∈ blocks s'.file.disk h' a := ctx.blocks.mem_iff.mpr (List.mem_append_right _ hx)
  exact (List.nodup_append.mp turned.tree.part.key_nodup).2.2 x inTree x hR rfl

theorem Turned.num_bound (turned : Turned p s s' h h' a c R E V F' P Q) {P' Q' : List Entry}
    {side : List Nat} (ctx : Ctx s'.file.disk h c h' a P' Q' side) {disk : Nat → BtreeNode}
    (same : ∀ x ∈ side, disk x = s'.file.disk x) (many : 2 ≤ (s.file.disk a).num) :
    h' = h + 1 ∧ (s.file.disk a).num ≤ (disk a).num + 1 := by
  rcases turned.height with ⟨height, num⟩ | ⟨_, single⟩
  · refine ⟨height, ?_⟩
    cases ctx with
    | here => omega
    | child E₁ E₂ A B ents chs len => rwa [same a List.mem_cons_self]
  · omega

/-- With a pending match the descent goes to one end of the tree. -/
theorem deleteFlagged_spec (key : Bytes) (h fuel : Nat) (s : Db) (a m : Nat) (R : List Nat)
    (E : List Entry)
    (V F : List Nat) (d : Descent) (old : Entry) (enough : h < fuel)
    (t : TreeAt p s h a R (old :: E) V F) (pending : Pending p s d m R old)
    (node : d.node = s.file.disk a) (flag : d.flag ≠ .zero)
    (rich : ceil p.M ≤ (s.file.disk a).num) :
    TakesEnd p s d h a m R E (deleteLoop key fuel s d) := by
  have bounds := ceil_bounds p
  induction h generalizing fuel s a R E V F d with
  | zero =>
    obtain ⟨fuel, rfl⟩ : ∃ n, fuel = n + 1 := ⟨fuel - 1, by omega⟩
    have leaf : d.node.leaf = true := by rw [node]; simpa using t.leaf
    rw [deleteLoop, if_pos leaf]
    exact deleteLeaf_flagged t pending node flag (by omega)
  | succ h ih =>
    obtain ⟨fuel, rfl⟩ : ∃ n, fuel = n + 1 := ⟨fuel - 1, by omega⟩
    have leaf : ¬ d.node.leaf = true := by rw [node]; simpa using t.leaf
    -- the first child for `LESS`, the last for `MORE`
    obtain ⟨i, hi, position, left, right⟩ : ∃ i ≤ (s.file.disk a).num,
        deletePosition key s d = .ok (-(i : Int) - 1) ∧
        (d.flag = .less → leftOf s.file.disk h a i = []) ∧
        (d.flag = .more → afterChild s.file.disk h a i = []) := by
      cases hf : d.flag with
      | zero => exact absurd hf flag
      | less => exact ⟨0, Nat.zero_le _,
        by simp [deletePosition, hf], fun _ => rfl, fun h => nomatch h⟩
      | more =>
        refine ⟨(s.file.disk a).num, le_rfl, by simp [deletePosition, hf, node],
          (fun h => nomatch h), fun _ => ?_⟩
        simp [afterChild, BtreeNode.ents, BtreeNode.chs, after]
    obtain ⟨s1, F1, c, h', run, turned⟩ := enterChild_spec t node hi
    have step : deleteStep key s d = .ok (s1, { d with node := s1.file.disk c }) := by
      simp only [deleteStep, position, bind, Except.bind]
      rw [if_neg (by omega), show (-(-(i : Int) - 1 + 1)).toNat = i by omega, run]
    obtain ⟨P, Q, side, ctx, hP, hQ⟩ := turned.ctx
    have t1 := turned.tree.focus ctx
    have perm : (P ++ Q ++ old :: E).Perm (old :: (P ++ Q ++ E)) := List.perm_middle
    have pending1 : Pending p s1 { d with node := s1.file.disk c } m (side ++ R) old :=
      { mem := List.mem_append_right _ pending.mem
        node := by rw [turned.frame m pending.mem]; exact pending.node
        lt := pending.lt
        entry := by rw [turned.frame m pending.mem]; exact pending.entry }
    obtain ⟨s2, V2, F2, k, hrun, t2, atM, frame, values, num, total, ends⟩ :=
      ih fuel s1 c (side ++ R) (P ++ Q ++ E) V F1 _ (by omega) (t1.permE perm) pending1 rfl flag
        turned.rich
    have same : ∀ x ∈ side, s2.file.disk x = s1.file.disk x := fun x hx =>
      frame x (List.mem_append_left _ hx) fun eq => turned.outside ctx x hx (eq ▸ pending.mem)
    obtain ⟨rfl, numA⟩ := turned.num_bound ctx same (by omega)
    have richC := turned.rich
    have perm2 : (k.entry :: (P ++ Q ++ E)).Perm (P ++ Q ++ k.entry :: E) := List.perm_middle.symm
    obtain ⟨tree, flat2⟩ := turned.tree.unfocus ctx (t2.permE perm2) same (.inr (by omega))
    have flat1 := ctx.flat
    rw [turned.same] at flat1
    have ends' : EndOf d.flag k.entry (flat s.file.disk (h + 1) a)
        (flat s2.file.disk (h + 1) a) := by
      rw [flat1, flat2]
      rcases ends with ⟨less, first⟩ | ⟨more, last⟩
      · rw [left less, List.prefix_nil] at hP
        exact .inl ⟨less, by rw [hP, first]; simp⟩
      · rw [right more, List.suffix_nil] at hQ
        exact .inr ⟨more, by rw [hQ, last]; simp⟩
    refine ⟨s2, V2, F2, k, ?_, tree, ?_, ?_, ?_, numA, total.trans (by rw [turned.total]), ends'⟩
    · rw [deleteLoop, if_neg leaf, step]
      exact hrun
    · rw [atM, turned.frame m pending.mem]
    · intro x hx ne
      rw [frame x (List.mem_append_right _ hx) ne, turned.frame x hx]
    · intro f hf
      have back : f ∈ flat s.file.disk (h + 1) a ++ old :: E := by
        rcases ends' with ⟨_, eq⟩ | ⟨_, eq⟩
        all_goals
          rw [eq]
          simp only [List.mem_append, List.mem_cons, List.not_mem_nil, or_false] at hf ⊢
          grind
      rw [values f (by
        rw [flat2] at hf
        simp only [List.mem_append, List.mem_cons] at hf ⊢
        grind)]
      exact valueAt_congr (turned.sameV _ (t.values.block f back))

theorem Deletes.widen {run : Result (Db × Except Errno Int)} (t : TreeAt p s (h + 1) a R E V F)
    (turned : Turned p s s' h h' a c R E V F' P Q) (below : ∀ e ∈ P, O.rank e.1 < O.rank key)
    (above : ∀ e ∈ Q, O.rank key < O.rank e.1)
    (del : ∀ P' Q' side, Ctx s'.file.disk h c h' a P' Q' side →
      Deletes O key s' h c (side ++ R) (P' ++ Q' ++ E) run) :
    Deletes O key s (h + 1) a R E run := by
  have bounds := ceil_bounds p
  obtain ⟨P', Q', side, ctx, hP, hQ⟩ := turned.ctx
  obtain ⟨s2, r, h2, V2, F2, hrun, t2, frame, values, height, done⟩ := del P' Q' side ctx
  have same : ∀ x ∈ side, s2.file.disk x = s'.file.disk x := fun x hx =>
    frame x (List.mem_append_left _ hx)
  have rich := turned.rich
  obtain ⟨rfl, num⟩ := height (by omega)
  obtain ⟨tree, flat2⟩ := turned.tree.unfocus ctx t2 same (.inr (by omega))
  have flat1 := ctx.flat
  rw [turned.same] at flat1
  refine ⟨s2, r, h', V2, F2, hrun, tree, ?_, ?_, turned.num_bound ctx same, ?_⟩
  · intro x hx
    rw [frame x (List.mem_append_right _ hx), turned.frame x hx]
  · intro f hf
    have back : f ∈ flat s.file.disk (h2 + 1) a ++ E := by
      rw [flat2] at hf
      rw [flat1]
      cases done with
      | absent none eq total => rwa [eq] at hf
      | removed P1 Q1 e old new rank total =>
        rw [old]
        rw [new] at hf
        simp only [List.mem_append, List.mem_cons] at hf ⊢
        grind
    rw [values f (by
      rw [flat2] at hf
      simp only [List.mem_append] at hf ⊢
      grind)]
    exact valueAt_congr (turned.sameV _ (t.values.block f back))
  · rw [flat1, flat2]
    cases done with
    | absent none eq total =>
      refine .absent ?_ (by rw [eq]) (total.trans turned.total)
      intro e he
      simp only [List.mem_append] at he
      rcases he with (he | he) | he
      · exact (below e (hP.subset he)).ne
      · exact none e he
      · exact (above e (hQ.subset he)).ne'
    | removed P1 Q1 e old new rank total =>
      exact .removed (P' ++ P1) (Q1 ++ Q') e (by simp [old]) (by simp [new]) rank
        (total.trans (by rw [turned.total]))

/-- The match at slot `i` of `a` is overwritten by an end of the child `c` beside it:
    `D₁ k` and `D₂ k` are the entries of `a` around `c` with `k` in that slot. -/
theorem deleteBeside (key : Bytes) (flag : Flag) {i fuel : Nat} {E₁ E₂ : List Entry}
    {A B : List Nat} (D₁ D₂ : BtreeKey → List Entry) (rest : List Entry) (enough : h < fuel)
    (t : TreeAt p s (h + 1) a R E V F)
    (lt : i < (s.file.disk a).num) (ents : entries (s.file.disk a) = E₁ ++ E₂)
    (chs : kids (s.file.disk a) = A ++ c :: B) (len : A.length = E₁.length)
    (new : ∀ k, entries (replaceEntry (s.file.disk a) i k) = D₁ k ++ D₂ k)
    (len' : ∀ k, A.length = (D₁ k).length)
    (perm : (before E₁ (A.map (flat s.file.disk h)) ++ after E₂ (B.map (flat s.file.disk h))).Perm
      (((s.file.disk a).slot i).entry :: rest))
    (perm' : ∀ k : BtreeKey, (k.entry :: rest).Perm (before (D₁ k) (A.map (flat s.file.disk h)) ++
      after (D₂ k) (B.map (flat s.file.disk h))))
    (pending : flag ≠ .zero) (rich : ceil p.M < (s.file.disk c).num) :
    ∃ s2 V2 F2 k, deleteLoop key fuel s ⟨s.file.disk c, flag, s.file.disk a, i⟩ = .ok (s2, .ok 1) ∧
      TreeAt p s2 (h + 1) a R E V2 F2 ∧ (∀ x ∈ R, s2.file.disk x = s.file.disk x) ∧
      (∀ f ∈ flat s2.file.disk (h + 1) a ++ E,
        valueAt s2.file.disk f.2 = valueAt s.file.disk f.2) ∧
      (s2.file.disk a).num = (s.file.disk a).num ∧ s2.db.keyTotal = s.db.keyTotal - 1 ∧
      flat s2.file.disk (h + 1) a = before (D₁ k) (A.map (flat s.file.disk h)) ++
        flat s2.file.disk h c ++ after (D₂ k) (B.map (flat s.file.disk h)) ∧
      EndOf flag k.entry (flat s.file.disk h c) (flat s2.file.disk h c) := by
  have upper := t.num
  have ctx : Ctx s.file.disk h c (h + 1) a _ _ _ := .child _ _ _ _ ents chs len
  have nd := t.part.key_nodup
  obtain ⟨s2, V2, F2, k, hrun, t2, atA, frame, values, num, total, ends⟩ :=
    deleteFlagged_spec key h fuel s c a _ (rest ++ E) V F ⟨s.file.disk c, flag, s.file.disk a, i⟩
      ((s.file.disk a).slot i).entry enough ((t.focus ctx).permE (perm.append_right E))
      ⟨by simp, rfl, lt.trans_le upper, rfl⟩ rfl pending rich.le
  have side : ∀ z ∈ blocksOf s.file.disk (h + 1) (A ++ B), s2.file.disk z = s.file.disk z := by
    intro z hz
    refine frame z (List.mem_append_left _ (List.mem_cons_of_mem _ hz)) fun eq => ?_
    have nodup := (List.nodup_append.mp (t.focus ctx).part.key_nodup).2.1
    exact (List.nodup_cons.mp nodup).1 (List.mem_append_left _ (eq ▸ hz))
  have numA : (s2.file.disk a).num = (s.file.disk a).num := by rw [atA]; rfl
  obtain ⟨tree, flat2⟩ := t.refocus ents chs (by rw [atA]; exact new k)
    (by rw [atA, replaceEntry_kids, chs]) (len' k) (by rw [atA]; rfl) numA side
    (t2.permE ((perm' k).append_right E)) (by omega)
  refine ⟨s2, V2, F2, k, hrun, tree, ?_, ?_, numA, total, flat2, ends⟩
  · intro z hz
    refine frame z (List.mem_append_right _ hz) fun eq => ?_
    exact (List.nodup_cons.mp nd).1 (List.mem_append_right _ (eq ▸ hz))
  · intro f hf
    refine values f ?_
    rw [flat2] at hf
    have mem := (perm' k).mem_iff (a := f)
    simp only [List.mem_append, List.mem_cons] at hf mem ⊢
    grind

theorem deleteLeft (key : Bytes) {i x y fuel : Nat} (enough : h < fuel)
    (t : TreeAt p s (h + 1) a R E V F)
    (pair : Pair s.file.disk a i x y) (rich : ceil p.M < (s.file.disk x).num) :
    ∃ s' V' F', deleteLoop key fuel s ⟨s.file.disk x, .more, s.file.disk a, i⟩ = .ok (s', .ok 1) ∧
      Removed p s s' (h + 1) a R E ((s.file.disk a).slot i).entry V' F' := by
  have lt := pair.lt
  have len : ((s.file.disk a).chs 0 i).length = ((s.file.disk a).ents 0 i).length := by
    simp [BtreeNode.ents, BtreeNode.chs]
  obtain ⟨s2, V2, F2, k, hrun, tree, frame, values, num, total, flat2, ends⟩ :=
    deleteBeside key .more (fun _ => (s.file.disk a).ents 0 i)
      (fun k => k.entry :: (s.file.disk a).ents (i + 1) ((s.file.disk a).num - i - 1))
      (leftOf s.file.disk h a i ++ (flat s.file.disk h y ++ rightOf s.file.disk h a i)) enough t lt
      (entries_focus _ lt) (by rw [kids_focus_pair _ lt, pair.left, pair.right]) len
      (fun k => replaceEntry_entries _ _ lt) (fun _ => len) List.perm_middle
      (fun _ => List.perm_middle.symm) (by simp) rich
  have last : flat s.file.disk h x = flat s2.file.disk h x ++ [k.entry] := by
    rcases ends with ⟨wrong, _⟩ | ⟨_, eq⟩
    · cases wrong
    · exact eq
  refine ⟨s2, V2, F2, hrun, tree, frame, values, by omega, total,
    leftOf s.file.disk h a i ++ flat s2.file.disk h x ++ [k.entry],
    flat s.file.disk h y ++ rightOf s.file.disk h a i, ?_, ?_⟩
  · rw [pair.flat, last]
    simp
  · rw [flat2]
    simp [leftOf, rightOf, after]

theorem deleteRight (key : Bytes) {i x y fuel : Nat} (enough : h < fuel)
    (t : TreeAt p s (h + 1) a R E V F)
    (pair : Pair s.file.disk a i x y) (rich : ceil p.M < (s.file.disk y).num) :
    ∃ s' V' F', deleteLoop key fuel s ⟨s.file.disk y, .less, s.file.disk a, i⟩ = .ok (s', .ok 1) ∧
      Removed p s s' (h + 1) a R E ((s.file.disk a).slot i).entry V' F' := by
  have lt := pair.lt
  have len : ((s.file.disk a).chs 0 i).length = ((s.file.disk a).ents 0 i).length := by
    simp [BtreeNode.ents, BtreeNode.chs]
  have left (e : Entry) : before ((s.file.disk a).ents 0 i ++ [e])
      (((s.file.disk a).chs 0 i ++ [x]).map (flat s.file.disk h)) =
        leftOf s.file.disk h a i ++ flat s.file.disk h x ++ [e] := by
    rw [List.map_append, List.map_cons, List.map_nil, before_last _ _ _ _ (by simpa using len)]
    rfl
  have perm (e : Entry) : (before ((s.file.disk a).ents 0 i ++ [e])
      (((s.file.disk a).chs 0 i ++ [x]).map (flat s.file.disk h)) ++
        after ((s.file.disk a).ents (i + 1) ((s.file.disk a).num - i - 1))
          (((s.file.disk a).chs (i + 2) ((s.file.disk a).num - i - 1)).map
          (flat s.file.disk h))).Perm
        (e :: (leftOf s.file.disk h a i ++ flat s.file.disk h x ++ rightOf s.file.disk h a i)) := by
    rw [left, List.append_assoc]
    exact List.perm_middle
  obtain ⟨s2, V2, F2, k, hrun, tree, frame, values, num, total, flat2, ends⟩ :=
    deleteBeside key .less (fun k => (s.file.disk a).ents 0 i ++ [k.entry])
      (fun _ => (s.file.disk a).ents (i + 1) ((s.file.disk a).num - i - 1))
      (leftOf s.file.disk h a i ++ flat s.file.disk h x ++ rightOf s.file.disk h a i) enough t lt
      (show entries (s.file.disk a) =
        ((s.file.disk a).ents 0 i ++ [((s.file.disk a).slot i).entry]) ++ _ by
          rw [entries_focus _ lt, List.append_assoc, List.singleton_append])
      (by rw [kids_focus_pair _ lt, pair.left, pair.right, ← List.singleton_append, ← List.append_assoc])
      (by simpa using len) (fun k => by rw [replaceEntry_entries _ _ lt]; simp)
      (fun _ => by simpa using len) (perm _) (fun k => (perm k.entry).symm) (by simp) rich
  have first : flat s.file.disk h y = k.entry :: flat s2.file.disk h y := by
    rcases ends with ⟨_, eq⟩ | ⟨wrong, _⟩
    · exact eq
    · cases wrong
  refine ⟨s2, V2, F2, hrun, tree, frame, values,
    by omega, total, leftOf s.file.disk h a i ++ flat s.file.disk h x,
    k.entry :: flat s2.file.disk h y ++ rightOf s.file.disk h a i, ?_, ?_⟩
  · rw [pair.flat, first]
    simp
  · rw [flat2, left]
    simp [rightOf]

/-- A match in an inner node is removed below one of its children, or the two are merged and the
    descent goes on. -/
theorem enterMatch_spec (key : Bytes) {i fuel : Nat} (enough : h < fuel)
    (t : TreeAt p s (h + 1) a R E V F) (node : d.node = s.file.disk a)
    (hi : i < (s.file.disk a).num) :
    (∃ s1 d1 s' V' F', enterMatch s d i = .ok (s1, d1) ∧
      deleteLoop key fuel s1 d1 = .ok (s', .ok 1) ∧
      Removed p s s' (h + 1) a R E ((s.file.disk a).slot i).entry V' F') ∨
    ∃ s1 F1 c h', enterMatch s d i = .ok (s1, { d with node := s1.file.disk c }) ∧
      Turned p s s1 h h' a c R E V F1 (leftOf s.file.disk h a i) (rightOf s.file.disk h a i) := by
  have M : s.db.M = p.M := t.part.has.M
  have pair : Pair s.file.disk a i _ _ := ⟨hi, rfl, rfl⟩
  simp only [enterMatch, node, t.seekChild hi.le, bind, Except.bind, M]
  by_cases richX : ceil p.M < (s.file.disk ((s.file.disk a).slot i).child).num
  · rw [if_pos richX]
    obtain ⟨s', V', F', run, removed⟩ := deleteLeft key enough t pair richX
    exact .inl ⟨_, _, s', V', F', rfl, run, removed⟩
  rw [if_neg richX, t.seekChild (show i + 1 ≤ (s.file.disk a).num from hi)]
  simp only
  by_cases richY : ceil p.M < (s.file.disk ((s.file.disk a).slot (i + 1)).child).num
  · rw [if_pos richY]
    obtain ⟨s', V', F', run, removed⟩ := deleteRight key enough t pair richY
    exact .inl ⟨_, _, s', V', F', rfl, run, removed⟩
  rw [if_neg richY]
  exact .inr (mergeInto_spec t pair node (by omega) (by omega))

theorem deleteLoop_spec (h fuel : Nat) (s : Db) (a : Nat) (R : List Nat) (E : List Entry)
    (V F : List Nat) (d : Descent) (enough : h < fuel) (t : TreeAt p s h a R E V F)
    (sorted : Sorted O (flat s.file.disk h a)) (arg : O.arg key) (node : d.node = s.file.disk a)
    (flag : d.flag = .zero) : Deletes O key s h a R E (deleteLoop key fuel s d) := by
  induction h generalizing fuel s a R E V F d with
  | zero =>
    obtain ⟨fuel, rfl⟩ : ∃ n, fuel = n + 1 := ⟨fuel - 1, by omega⟩
    have leaf : d.node.leaf = true := by rw [node]; simpa using t.leaf
    rw [deleteLoop, if_pos leaf]
    exact deleteLeaf_spec t sorted arg node flag
  | succ h ih =>
    obtain ⟨fuel, rfl⟩ : ∃ n, fuel = n + 1 := ⟨fuel - 1, by omega⟩
    have leaf : ¬ d.node.leaf = true := by rw [node]; simpa using t.leaf
    rw [deleteLoop, if_neg leaf]
    -- the recursive call, once the child is ready
    have descend : ∀ {s1 : Db} {F1 : List Nat} {c h' : Nat} {P Q : List Entry}
        (_ : Turned p s s1 h h' a c R E V F1 P Q) (_ : ∀ e ∈ P, O.rank e.1 < O.rank key)
        (_ : ∀ e ∈ Q, O.rank key < O.rank e.1),
        Deletes O key s (h + 1) a R E (deleteLoop key fuel s1
            { d with node := s1.file.disk c }) := by
      intro s1 F1 c h' P Q turned below above
      refine Deletes.widen t turned below above fun P' Q' side ctx => ?_
      have sorted1 := sorted
      rw [← turned.same, ctx.flat] at sorted1
      exact ih fuel s1 c _ _ V F1 _ (by omega) (turned.tree.focus ctx) sorted1.left.right rfl flag
    obtain ⟨r, search, found⟩ := t.search O sorted arg
    have position : deletePosition key s d = .ok r := by
      simp only [deletePosition, flag, node]
      exact search
    simp only [deleteStep, position, bind, Except.bind]
    cases found with
    | gap i hi below above =>
      rw [if_neg (by omega), show (-(-(i : Int) - 1 + 1)).toNat = i by omega]
      obtain ⟨s1, F1, c, h', run, turned⟩ := enterChild_spec t node hi
      have around := sorted
      rw [(Ctx.ofChild hi).flat] at around
      obtain ⟨belowP, aboveQ⟩ := around.around (slice_below below) (slice_above above)
      rw [run]
      exact descend turned belowP aboveQ
    | «at» i hi eq =>
      have pair : Pair s.file.disk a i _ _ := ⟨hi, rfl, rfl⟩
      rw [if_pos (by omega), Int.toNat_natCast]
      rcases enterMatch_spec key (Nat.lt_of_succ_lt_succ enough) t node hi with
        ⟨s1, d1, s', V', F', entered, run, removed⟩ | ⟨s1, F1, c, h', entered, turned⟩
      · rw [entered]
        exact removed.deletes eq run
      have around := sorted.ordered
      rw [pair.flat] at around
      obtain ⟨outer, _, cross⟩ := ordered_append.mp around
      obtain ⟨_, _, inner⟩ := ordered_append.mp outer
      have mid : ((s.file.disk a).slot i).entry ∈
        flat s.file.disk h ((s.file.disk a).slot i).child ++
          ((s.file.disk a).slot i).entry ::
            flat s.file.disk h ((s.file.disk a).slot (i + 1)).child := by simp
      rw [entered]
      refine descend turned (fun e he => ?_) (fun e he => ?_)
      · exact (inner e he _ mid).trans_eq eq
      · exact eq.symm.trans_lt (cross _ (List.mem_append_right _ mid) e he)

end Descent

end FileDb
