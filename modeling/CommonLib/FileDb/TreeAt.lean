import CommonLib.FileDb.Tree

/- The state of the database seen from one subtree: the rest of the key blocks and of
   the stored entries is a frame. An operation on a child is an operation on its parent
   with a larger frame, and rebalancing children leaves the in-order list alone. -/
namespace FileDb
open OrderedTree

/-- `R` holds the key blocks outside the subtree at `a`, `E` the entries outside. -/
structure TreeAt (p : Shape) (s : Db) (h a : Nat) (R : List Nat) (E : List Entry)
    (V F : List Nat) : Prop where
  part : Part p s (blocks s.file.disk h a ++ R) V F
  values : Values s.file.disk V (flat s.file.disk h a ++ E)
  leaf : (s.file.disk a).leaf = decide (h = 0)
  num : (s.file.disk a).num ≤ p.M
  inner : h ≠ 0 → 1 ≤ (s.file.disk a).num
  children : ChildrenOk p.M s.file.disk h (kids (s.file.disk a))

section TreeAt
variable {p : Shape} {s s' : Db} {h h' a c : Nat} {R V F V' F' side : List Nat}
  {E E' P Q : List Entry}

theorem ceil_bounds (p : Shape) : 2 ≤ ceil p.M ∧ 2 * ceil p.M + 1 ≤ p.M ∧
    p.M ≤ 2 * ceil p.M + 2 := by
  have := p.order.1
  simp only [ceil]
  omega

theorem TreeAt.block_mem (t : TreeAt p s h a R E V F) {x : Nat}
    (hx : x ∈ blocks s.file.disk h a ++ R) : x ∈ offsets s.file.size := t.part.key_mem hx

theorem TreeAt.self (t : TreeAt p s h a R E V F) : (s.file.disk a).self = a :=
  t.part.self a (t.block_mem (by simp [blocks]))

theorem TreeAt.seek (t : TreeAt p s h a R E V F) {x : Nat}
    (hx : x ∈ blocks s.file.disk h a ++ R) (buf : BtreeNode) : nodeSeek s buf x = s.file.disk x :=
  seek_ok (t.block_mem hx) buf

theorem TreeAt.fits (t : TreeAt p s h a R E V F) {i : Nat} (hi : i ≤ p.M) : Fits s.db i :=
  t.part.has.fits_slot hi

theorem TreeAt.value_block (t : TreeAt p s h a R E V F) {x : Nat}
    (hx : x ∈ blocks s.file.disk h a ++ R) : x ∉ V := (t.part.disjoint.1 x hx).1

theorem child_mem {disk : Nat → BtreeNode} {i : Nat} (hi : i ≤ (disk a).num) :
    ((disk a).slot i).child ∈ blocks disk (h + 1) a ++ R := by
  refine List.mem_append_left _ (List.mem_cons_of_mem _ ?_)
  exact List.mem_flatMap.mpr ⟨_, mem_kids hi, List.mem_cons_self⟩

theorem TreeAt.child_ok (t : TreeAt p s (h + 1) a R E V F) {i : Nat}
    (hi : i ≤ (s.file.disk a).num) :
    ChildOk p.M s.file.disk h ((s.file.disk a).slot i).child := (t.children _ (mem_kids hi)).1

theorem TreeAt.focus (t : TreeAt p s h' a R E V F) (ctx : Ctx s.file.disk h c h' a P Q side) :
    TreeAt p s h c (side ++ R) (P ++ Q ++ E) V F := by
  have part : Part p s (blocks s.file.disk h c ++ (side ++ R)) V F := by
    refine t.part.permK ?_
    rw [← List.append_assoc]
    exact ctx.blocks.append_right R
  have values : Values s.file.disk V (flat s.file.disk h c ++ (P ++ Q ++ E)) := by
    refine t.values.perm ?_
    rw [ctx.flat, List.perm_iff_count]
    intro e
    simp only [List.count_append]
    omega
  cases ctx with
  | here => exact ⟨part, values, t.leaf, t.num, t.inner, t.children⟩
  | child E₁ E₂ A B ents chs len =>
    obtain ⟨node, children⟩ := t.children c (by rw [chs]; simp)
    have bounds := ceil_bounds p
    exact ⟨part, values, node.leaf, node.upper, fun _ => by have := node.lower; omega, children⟩

/-- A change below the child `c` of `a`, and perhaps of the entries of `a` itself. -/
theorem TreeAt.refocus (t : TreeAt p s (h + 1) a R E V F) {E₁ E₂ D₁ D₂ : List Entry}
    {A B : List Nat}
    (ents : entries (s.file.disk a) = E₁ ++ E₂) (chs : kids (s.file.disk a) = A ++ c :: B)
    (ents' : entries (s'.file.disk a) = D₁ ++ D₂) (chs' : kids (s'.file.disk a) = A ++ c :: B)
    (len : A.length = D₁.length) (leaf : (s'.file.disk a).leaf = (s.file.disk a).leaf)
    (num : (s'.file.disk a).num = (s.file.disk a).num)
    (same : ∀ x ∈ blocksOf s.file.disk (h + 1) (A ++ B), s'.file.disk x = s.file.disk x)
    (t' : TreeAt p s' h c (a :: blocksOf s.file.disk (h + 1) (A ++ B) ++ R) (before D₁
      (A.map (flat s.file.disk h)) ++ after D₂ (B.map (flat s.file.disk h)) ++ E') V' F')
    (lower : ceil p.M - 1 ≤ (s'.file.disk c).num) :
    TreeAt p s' (h + 1) a R E' V' F' ∧
      flat s'.file.disk (h + 1) a = before D₁ (A.map (flat s.file.disk h)) ++
        flat s'.file.disk h c ++ after D₂ (B.map (flat s.file.disk h)) := by
  have sides := same
  rw [blocksOf_append] at sides
  have ctx : Ctx s'.file.disk h c (h + 1) a _ _ _ := .child D₁ D₂ A B ents' chs' len
  rw [flats_congr _ fun z hz => sides z (List.mem_append_left _ hz),
    flats_congr _ fun z hz => sides z (List.mem_append_right _ hz), blocksOf_congr _ same] at ctx
  have old := (Seg.one c ents chs).children.mp t.children
  refine ⟨⟨?_, ?_, leaf.trans t.leaf, num ▸ t.num, num ▸ t.inner, ?_⟩, ctx.flat⟩
  · refine t'.part.permK ?_
    rw [← List.append_assoc]
    exact (ctx.blocks.append_right R).symm
  · refine t'.values.perm ?_
    rw [ctx.flat, List.perm_iff_count]
    intro e
    simp only [List.count_append]
    omega
  · refine (Seg.one c ents' chs').children.mpr ⟨?_, t'.children, old.2.2.congr same⟩
    intro d hd
    rw [List.mem_singleton.mp hd]
    exact ⟨t'.leaf, lower, t'.num⟩

theorem TreeAt.unfocus (t : TreeAt p s h' a R E V F) (ctx : Ctx s.file.disk h c h' a P Q side)
    (t' : TreeAt p s' h c (side ++ R) (P ++ Q ++ E') V' F')
    (same : ∀ x ∈ side, s'.file.disk x = s.file.disk x)
    (lower : h' = h ∨ ceil p.M - 1 ≤ (s'.file.disk c).num) :
    TreeAt p s' h' a R E' V' F' ∧
      flat s'.file.disk h' a = P ++ flat s'.file.disk h c ++ Q := by
  cases ctx with
  | here => exact ⟨t', by simp⟩
  | child E₁ E₂ A B ents chs len =>
    have here := same a List.mem_cons_self
    exact t.refocus ents chs (here ▸ ents) (here ▸ chs) len (by rw [here]) (by rw [here])
      (fun x hx => same x (List.mem_cons_of_mem _ hx)) t' (lower.resolve_left (by omega))

theorem TreeAt.transport (t : TreeAt p s h a R E V F) {R' : List Nat}
    (part : Part p s' (blocks s.file.disk h a ++ R') V' F')
    (values : Values s'.file.disk V' (flat s.file.disk h a ++ E'))
    (same : ∀ x ∈ blocks s.file.disk h a, s'.file.disk x = s.file.disk x) :
    TreeAt p s' h a R' E' V' F' ∧ flat s'.file.disk h a = flat s.file.disk h a ∧
      blocks s'.file.disk h a = blocks s.file.disk h a := by
  have here := same a List.mem_cons_self
  have below : ∀ x ∈ blocksOf s.file.disk h (kids (s.file.disk a)),
    s'.file.disk x = s.file.disk x :=
    fun x hx => same x (List.mem_cons_of_mem _ hx)
  have sameFlat : flat s'.file.disk h a = flat s.file.disk h a := by
    rw [flat, here, flatOf_congr _ _ below, flat]
  have sameBlocks : blocks s'.file.disk h a = blocks s.file.disk h a := by
    rw [blocks, here, blocksOf_congr _ below, blocks]
  refine ⟨⟨sameBlocks ▸ part, sameFlat ▸ values, ?_, ?_, ?_, ?_⟩, sameFlat, sameBlocks⟩
  · rw [here]; exact t.leaf
  · rw [here]; exact t.num
  · rw [here]; exact t.inner
  · rw [here]; exact t.children.congr below

theorem TreeAt.permE (t : TreeAt p s h a R E V F) (perm : E.Perm E') : TreeAt p s h a R E' V F :=
  ⟨t.part, t.values.perm (perm.append_left _), t.leaf, t.num, t.inner, t.children⟩

theorem TreeAt.reshape (t : TreeAt p s (h + 1) a R E V F) {E₁ E₂ ES : List Entry}
    {A B mid mid' KS : List Nat} (len : A.length = E₁.length)
    (seg : Seg s.file.disk a E₁ E₂ A B mid ES KS) (seg' : Seg s'.file.disk a E₁ E₂ A B mid' ES KS)
    (same : ∀ x ∈ blocksOf s.file.disk h KS ++ blocksOf s.file.disk (h + 1) (A ++ B),
      s'.file.disk x = s.file.disk x)
    (sameV : ∀ v ∈ V, s'.file.disk v = s.file.disk v)
    (part : Part p s' (a :: (mid' ++ (blocksOf s.file.disk h KS ++
      blocksOf s.file.disk (h + 1) (A ++ B))) ++ R) V F')
    (leaf : (s'.file.disk a).leaf = false) (num : (s'.file.disk a).num ≤ p.M)
    (inner : 1 ≤ (s'.file.disk a).num) (nodes : ∀ c ∈ mid', ChildOk p.M s'.file.disk h c) :
    TreeAt p s' (h + 1) a R E V F' ∧ flat s'.file.disk (h + 1) a = flat s.file.disk (h + 1) a := by
  have sameK : ∀ x ∈ blocksOf s.file.disk h KS, s'.file.disk x = s.file.disk x := fun x hx =>
    same x (List.mem_append_left _ hx)
  have sameAB : ∀ x ∈ blocksOf s.file.disk (h + 1) (A ++ B), s'.file.disk x = s.file.disk x :=
    fun x hx => same x (List.mem_append_right _ hx)
  have left : ∀ x ∈ blocksOf s.file.disk (h + 1) A, s'.file.disk x = s.file.disk x := fun x hx =>
    sameAB x (by rw [blocksOf_append]; exact List.mem_append_left _ hx)
  have right : ∀ x ∈ blocksOf s.file.disk (h + 1) B, s'.file.disk x = s.file.disk x := fun x hx =>
    sameAB x (by rw [blocksOf_append]; exact List.mem_append_right _ hx)
  have sameFlat : flat s'.file.disk (h + 1) a = flat s.file.disk (h + 1) a := by
    rw [seg'.flat len, seg.flat len, flats_congr A left, flats_congr B right,
      flatOf_congr _ _ sameK]
  obtain ⟨_, okK, okAB⟩ := seg.children.mp t.children
  refine ⟨⟨part.permK ?_, ?_, by simpa using leaf, num, fun _ => inner, ?_⟩, sameFlat⟩
  · have perm := seg'.blocks (h := h)
    rw [blocksOf_congr _ sameK, blocksOf_congr _ sameAB] at perm
    exact perm.symm.append_right R
  · rw [sameFlat]
    exact t.values.congr sameV
  · exact seg'.children.mpr ⟨nodes, okK.congr sameK, okAB.congr sameAB⟩

end TreeAt

/-! ### Finding a key -/

section Found
variable {κ : Type} [LinearOrder κ] {p : Shape} {disk : Nat → BtreeNode} {h a : Nat}

structure Sorted (O : KeyOrder κ p.keyType p.keySize) (es : List Entry) : Prop where
  image : ∀ e ∈ es, O.img e.1
  ordered : Ordered O.entryRank es

theorem Sorted.sublist {O : KeyOrder κ p.keyType p.keySize} {es fs : List Entry}
    (h : Sorted O fs) (sub : es.Sublist fs) : Sorted O es :=
  ⟨fun e he => h.image e (sub.subset he), ordered_sublist sub h.ordered⟩

theorem Sorted.node {O : KeyOrder κ p.keyType p.keySize} (sorted : Sorted O (flat disk h a)) :
    NodeKeys O (disk a) :=
  ⟨(sorted.sublist (entries_sublist_flat h a)).image,
    (sorted.sublist (entries_sublist_flat h a)).ordered⟩

theorem Sorted.left {O : KeyOrder κ p.keyType p.keySize} {P Q : List Entry}
    (h : Sorted O (P ++ Q)) : Sorted O P := h.sublist (List.sublist_append_left P Q)

theorem Sorted.right {O : KeyOrder κ p.keyType p.keySize} {P Q : List Entry}
    (h : Sorted O (P ++ Q)) : Sorted O Q := h.sublist (List.sublist_append_right P Q)

theorem TreeAt.search {s : Db} {R V F : List Nat} {E : List Entry} (t : TreeAt p s h a R E V F)
    (O : KeyOrder κ p.keyType p.keySize) (sorted : Sorted O (flat s.file.disk h a)) {key : Bytes}
    (arg : O.arg key) :
    ∃ r, keyBinarySearch s.db (s.file.disk a) key = .ok r ∧ Found O (s.file.disk a) key r := by
  have has := t.part.has
  have num := t.num
  have small := p.order.2
  have fits : ∀ i < (s.file.disk a).num, Fits s.db i := fun i hi => t.fits (by omega)
  obtain ⟨keyType, keySize, valid⟩ := p
  obtain ⟨rfl, rfl, _, _⟩ := has
  exact keyBinarySearch_found O sorted.node arg fits (by omega)

end Found

end FileDb
