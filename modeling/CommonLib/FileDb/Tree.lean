import CommonLib.FileDb.Values

/- The tree in the key blocks: its in-order list, its blocks and its shape, by
   recursion on the height; what a subtree depends on; and how a change in one
   child, or in the blocks of neighbouring children, is seen from their parent. -/
namespace FileDb
open OrderedTree

def flatOf (disk : Nat → BtreeNode) : Nat → List Entry → List Nat → List Entry
  | 0, es, _ => es
  | h + 1, es, ks => weave es (ks.map fun c => flatOf disk h (entries (disk c)) (kids (disk c)))

def blocksOf (disk : Nat → BtreeNode) : Nat → List Nat → List Nat
  | 0, _ => []
  | h + 1, ks => ks.flatMap fun c => c :: blocksOf disk h (kids (disk c))

def flat (disk : Nat → BtreeNode) (h a : Nat) : List Entry :=
  flatOf disk h (entries (disk a)) (kids (disk a))

def blocks (disk : Nat → BtreeNode) (h a : Nat) : List Nat :=
  a :: blocksOf disk h (kids (disk a))

structure ChildOk (M : Nat) (disk : Nat → BtreeNode) (h c : Nat) : Prop where
  leaf : (disk c).leaf = decide (h = 0)
  lower : ceil M - 1 ≤ (disk c).num
  upper : (disk c).num ≤ M

def ChildrenOk (M : Nat) (disk : Nat → BtreeNode) : Nat → List Nat → Prop
  | 0, ks => ∀ c ∈ ks, c = 0
  | h + 1, ks => ∀ c ∈ ks, ChildOk M disk h c ∧ ChildrenOk M disk h (kids (disk c))

section Tree
variable {M : Nat} {disk disk' : Nat → BtreeNode} {h : Nat}

theorem flat_succ (a : Nat) :
    flat disk (h + 1) a = weave (entries (disk a)) ((kids (disk a)).map (flat disk h)) := rfl

theorem blocks_succ (a : Nat) :
    blocks disk (h + 1) a = a :: (kids (disk a)).flatMap (blocks disk h) := rfl

theorem blocksOf_succ (ks : List Nat) : blocksOf disk (h + 1) ks = ks.flatMap (blocks disk h) := rfl

theorem blocksOf_append (ks ls : List Nat) :
    blocksOf disk h (ks ++ ls) = blocksOf disk h ks ++ blocksOf disk h ls := by
  cases h with
  | zero => rfl
  | succ h => simp [blocksOf_succ]

theorem blocksOf_cons (c : Nat) (ks : List Nat) :
    blocksOf disk (h + 1) (c :: ks) = blocks disk h c ++ blocksOf disk (h + 1) ks := by
  simp [blocksOf_succ]

theorem childrenOk_append {ks ls : List Nat} :
    ChildrenOk M disk h (ks ++ ls) ↔ ChildrenOk M disk h ks ∧ ChildrenOk M disk h ls := by
  cases h with
  | zero => simp only [ChildrenOk, List.forall_mem_append]
  | succ h => simp only [ChildrenOk, List.forall_mem_append]

theorem childrenOk_cons {c : Nat} {ks : List Nat} :
    ChildrenOk M disk (h + 1) (c :: ks) ↔
      (ChildOk M disk h c ∧ ChildrenOk M disk h (kids (disk c))) ∧
          ChildrenOk M disk (h + 1) ks := by
  simp only [ChildrenOk, List.forall_mem_cons]

theorem flatOf_append (es fs : List Entry) (u : Entry) (ks ls : List Nat)
    (len : ks.length = es.length + 1) :
    flatOf disk h (es ++ u :: fs) (ks ++ ls) = flatOf disk h es ks ++ u :: flatOf disk h fs ls := by
  cases h with
  | zero => rfl
  | succ h =>
    simp only [flatOf, List.map_append]
    exact weave_append es fs u _ _ (by simpa using len)

theorem entries_sublist (es : List Entry) (ks : List Nat) (len : ks.length = es.length + 1) :
    es.Sublist (flatOf disk h es ks) := by
  cases h with
  | zero => exact List.Sublist.refl _
  | succ h => exact entries_sublist_weave es _ (by simpa using len)

theorem entries_sublist_flat (h a : Nat) : (entries (disk a)).Sublist (flat disk h a) :=
  entries_sublist _ _ (by simp)

def stored (disk : Nat → BtreeNode) (K : List Nat) : List Entry :=
  K.flatMap fun x => entries (disk x)

theorem flat_perm (h a : Nat) : (flat disk h a).Perm (stored disk (blocks disk h a)) := by
  induction h generalizing a with
  | zero => simp [flat, flatOf, blocks, blocksOf, stored]
  | succ h ih =>
    rw [flat_succ, blocks_succ]
    refine (weave_perm _ _ (by simp)).trans ?_
    rw [stored, List.flatMap_cons, List.flatMap_assoc, ← List.flatMap_def]
    exact (List.Perm.flatMap_left _ fun c _ => ih c).append_left _

/-! ### What a subtree depends on -/

theorem blocksOf_congr (ks : List Nat) (same : ∀ x ∈ blocksOf disk h ks, disk' x = disk x) :
    blocksOf disk' h ks = blocksOf disk h ks := by
  induction h generalizing ks with
  | zero => rfl
  | succ h ih =>
    rw [blocksOf_succ, blocksOf_succ]
    refine List.flatMap_congr fun c hc => ?_
    have here : ∀ x ∈ blocks disk h c, disk' x = disk x := fun x hx =>
      same x (List.mem_flatMap.mpr ⟨c, hc, hx⟩)
    rw [blocks, blocks, here c List.mem_cons_self]
    rw [ih _ fun x hx => here x (List.mem_cons_of_mem _ hx)]

theorem flatOf_congr (es : List Entry) (ks : List Nat)
    (same : ∀ x ∈ blocksOf disk h ks, disk' x = disk x) :
    flatOf disk' h es ks = flatOf disk h es ks := by
  induction h generalizing es ks with
  | zero => rfl
  | succ h ih =>
    simp only [flatOf]
    congr 1
    refine List.map_congr_left fun c hc => ?_
    have here : ∀ x ∈ blocks disk h c, disk' x = disk x := fun x hx =>
      same x (List.mem_flatMap.mpr ⟨c, hc, hx⟩)
    rw [here c List.mem_cons_self]
    exact ih _ _ fun x hx => here x (List.mem_cons_of_mem _ hx)

theorem flats_congr (ks : List Nat) (same : ∀ x ∈ blocksOf disk (h + 1) ks, disk' x = disk x) :
    ks.map (flat disk' h) = ks.map (flat disk h) := by
  refine List.map_congr_left fun c hc => ?_
  have here : ∀ x ∈ blocks disk h c, disk' x = disk x := fun x hx =>
    same x (List.mem_flatMap.mpr ⟨c, hc, hx⟩)
  rw [flat, flat, here c List.mem_cons_self]
  exact flatOf_congr _ _ fun x hx => here x (List.mem_cons_of_mem _ hx)

theorem ChildOk.congr {c : Nat} (ok : ChildOk M disk h c) (same : disk' c = disk c) :
    ChildOk M disk' h c := by
  obtain ⟨leaf, lower, upper⟩ := ok
  exact ⟨same ▸ leaf, same ▸ lower, same ▸ upper⟩

theorem ChildrenOk.congr {ks : List Nat} (ok : ChildrenOk M disk h ks)
    (same : ∀ x ∈ blocksOf disk h ks, disk' x = disk x) : ChildrenOk M disk' h ks := by
  induction h generalizing ks with
  | zero => exact ok
  | succ h ih =>
    intro c hc
    have here : ∀ x ∈ blocks disk h c, disk' x = disk x := fun x hx =>
      same x (List.mem_flatMap.mpr ⟨c, hc, hx⟩)
    obtain ⟨node, children⟩ := ok c hc
    have sameHere := here c List.mem_cons_self
    refine ⟨node.congr sameHere, ?_⟩
    rw [sameHere]
    exact ih children fun x hx => here x (List.mem_cons_of_mem _ hx)

/-! ### Segments -/

inductive Seg (disk : Nat → BtreeNode) (a : Nat) (E₁ E₂ : List Entry) (A B : List Nat) :
    List Nat → List Entry → List Nat → Prop where
  | one (x : Nat) (ents : entries (disk a) = E₁ ++ E₂) (chs : kids (disk a) = A ++ x :: B) :
      Seg disk a E₁ E₂ A B [x] (entries (disk x)) (kids (disk x))
  | two (x y : Nat) (u : Entry) (ents : entries (disk a) = E₁ ++ u :: E₂)
      (chs : kids (disk a) = A ++ x :: y :: B) :
      Seg disk a E₁ E₂ A B [x, y] (entries (disk x) ++ u :: entries (disk y))
        (kids (disk x) ++ kids (disk y))

section Seg
variable {a : Nat} {E₁ E₂ ES : List Entry} {A B mid KS : List Nat}

theorem Seg.right_length (seg : Seg disk a E₁ E₂ A B mid ES KS) (len : A.length = E₁.length) :
    B.length = E₂.length := by
  have total : (kids (disk a)).length = (entries (disk a)).length + 1 := by simp
  cases seg with
  | one x ents chs => simp [ents, chs] at total; omega
  | two x y u ents chs => simp [ents, chs] at total; omega

theorem Seg.flat (seg : Seg disk a E₁ E₂ A B mid ES KS) (len : A.length = E₁.length) :
    flat disk (h + 1) a = before E₁ (A.map (flat disk h)) ++ flatOf disk h ES KS ++
      after E₂ (B.map (flat disk h)) := by
  have len' := seg.right_length len
  cases seg with
  | one x ents chs =>
    rw [flat_succ, ents, chs, List.map_append, List.map_cons]
    exact weave_focus _ _ _ _ _ (by simpa using len) (by simpa using len')
  | two x y u ents chs =>
    rw [flat_succ, ents, chs, List.map_append, List.map_cons, List.map_cons,
      flatOf_append _ _ _ _ _ (by simp)]
    exact weave_focus_pair _ _ _ _ _ _ _ (by simpa using len) (by simpa using len')

theorem Seg.blocks (seg : Seg disk a E₁ E₂ A B mid ES KS) :
    (blocks disk (h + 1) a).Perm
      (a :: (mid ++ (blocksOf disk h KS ++ blocksOf disk (h + 1) (A ++ B)))) := by
  refine List.Perm.cons _ ?_
  cases seg with
  | one x ents chs =>
    rw [chs, blocksOf_append, blocksOf_append, blocksOf_cons, FileDb.blocks, List.perm_iff_count]
    intro z
    simp only [List.count_append, List.count_cons, List.count_nil]
    omega
  | two x y u ents chs =>
    rw [chs, blocksOf_append, blocksOf_append, blocksOf_append, blocksOf_cons, blocksOf_cons,
      FileDb.blocks, FileDb.blocks, List.perm_iff_count]
    intro z
    simp only [List.count_append, List.count_cons, List.count_nil]
    omega

theorem Seg.children (seg : Seg disk a E₁ E₂ A B mid ES KS) :
    ChildrenOk M disk (h + 1) (kids (disk a)) ↔ (∀ c ∈ mid, ChildOk M disk h c) ∧
      ChildrenOk M disk h KS ∧ ChildrenOk M disk (h + 1) (A ++ B) := by
  cases seg with
  | one x ents chs =>
    rw [chs, childrenOk_append, childrenOk_append, childrenOk_cons]
    simp only [List.mem_singleton, forall_eq]
    tauto
  | two x y u ents chs =>
    rw [chs, childrenOk_append, childrenOk_append, childrenOk_append, childrenOk_cons,
      childrenOk_cons]
    simp only [List.mem_cons, List.not_mem_nil, or_false, forall_eq_or_imp, forall_eq]
    tauto

end Seg

/-! ### Contexts -/

/-- The subtree at `c` inside the one at `a`: they are the same, or `c` is a child of
    `a`. `P` and `Q` are the entries on both sides, `side` the other blocks. -/
inductive Ctx (disk : Nat → BtreeNode) (h c : Nat) :
    Nat → Nat → List Entry → List Entry → List Nat → Prop where
  | here : Ctx disk h c h c [] [] []
  | child {a : Nat} (E₁ E₂ : List Entry) (A B : List Nat) (ents : entries (disk a) = E₁ ++ E₂)
      (chs : kids (disk a) = A ++ c :: B) (len : A.length = E₁.length) :
      Ctx disk h c (h + 1) a (before E₁ (A.map (flat disk h))) (after E₂ (B.map (flat disk h)))
        (a :: blocksOf disk (h + 1) (A ++ B))

section Ctx
variable {c h' a : Nat} {P Q : List Entry} {side : List Nat}

theorem Ctx.flat (ctx : Ctx disk h c h' a P Q side) : flat disk h' a = P ++ flat disk h c ++ Q := by
  cases ctx with
  | here => simp
  | child E₁ E₂ A B ents chs len => exact (Seg.one c ents chs).flat len

theorem Ctx.blocks (ctx : Ctx disk h c h' a P Q side) :
    (blocks disk h' a).Perm (blocks disk h c ++ side) := by
  cases ctx with
  | here => simp
  | child E₁ E₂ A B ents chs len =>
    refine (Seg.one c ents chs).blocks.trans ?_
    rw [FileDb.blocks, List.perm_iff_count]
    intro z
    simp only [List.count_append, List.count_cons, List.count_nil]
    omega

end Ctx

end Tree

end FileDb
