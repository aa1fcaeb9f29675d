import CommonLib.FileDb.Runs

/- What can be reached from the root, without the height: the key blocks of the tree
   and the value blocks its entries refer to. A block in use that is neither is lost. -/
namespace FileDb
open OrderedTree

inductive Reached (disk : Nat → BtreeNode) : Nat → Prop where
  | root : Reached disk headSize
  | child {a i : Nat} (parent : Reached disk a) (inner : (disk a).leaf = false)
      (le : i ≤ (disk a).num) : Reached disk ((disk a).slot i).child

def Referenced (disk : Nat → BtreeNode) (v : Nat) : Prop :=
  ∃ a, Reached disk a ∧ ∃ i < (disk a).num, blockOf ((disk a).slot i).value = v

def Leaked (s : Db) (x : Nat) : Prop :=
  x ∈ offsets s.file.size ∧ (s.file.disk x).use = true ∧ ¬ Reached s.file.disk x ∧
    ¬ Referenced s.file.disk x

section Tree
variable {M : Nat} {disk : Nat → BtreeNode} {h a : Nat}

theorem mem_flat (h a : Nat) (e : Entry) :
    e ∈ flat disk h a ↔ ∃ x ∈ blocks disk h a, e ∈ entries (disk x) := by
  rw [(flat_perm h a).mem_iff, stored, List.mem_flatMap]

/-- The children of an inner node of the tree are in the tree. -/
theorem blocks_closed (leaf : (disk a).leaf = decide (h = 0))
    (children : ChildrenOk M disk h (kids (disk a))) {x i : Nat} (mem : x ∈ blocks disk h a)
    (inner : (disk x).leaf = false) (le : i ≤ (disk x).num) :
    ((disk x).slot i).child ∈ blocks disk h a := by
  induction h generalizing a with
  | zero =>
    have : x = a := by simpa [blocks, blocksOf] using mem
    subst this
    simp [leaf] at inner
  | succ h ih =>
    rw [blocks_succ] at mem ⊢
    rcases List.mem_cons.mp mem with rfl | mem
    · exact List.mem_cons_of_mem _ (List.mem_flatMap.mpr ⟨_, mem_kids le, List.mem_cons_self⟩)
    · obtain ⟨c, hc, hx⟩ := List.mem_flatMap.mp mem
      obtain ⟨node, below⟩ := children c hc
      exact List.mem_cons_of_mem _ (List.mem_flatMap.mpr ⟨c, hc, ih node.leaf below hx⟩)

theorem reached_blocks (leaf : (disk a).leaf = decide (h = 0))
    (children : ChildrenOk M disk h (kids (disk a))) (reached : Reached disk a) {x : Nat}
    (mem : x ∈ blocks disk h a) : Reached disk x := by
  induction h generalizing a with
  | zero =>
    have : x = a := by simpa [blocks, blocksOf] using mem
    exact this ▸ reached
  | succ h ih =>
    rw [blocks_succ] at mem
    rcases List.mem_cons.mp mem with rfl | mem
    · exact reached
    · obtain ⟨c, hc, hx⟩ := List.mem_flatMap.mp mem
      obtain ⟨node, below⟩ := children c hc
      obtain ⟨i, hi, rfl⟩ := mem_slice.mp hc
      rw [Nat.zero_add] at node below hx
      exact ih node.leaf below (.child reached (by simpa using leaf) (by omega)) hx

end Tree

section Stands
variable {κ : Type} [LinearOrder κ] {p : Shape} {O : KeyOrder κ p.keyType p.keySize}
    {s : Db} {h : Nat}
  {R V F : List Nat}

theorem TreeAt.reached_iff (t : TreeAt p s h headSize R [] V F) {x : Nat} :
    Reached s.file.disk x ↔ x ∈ blocks s.file.disk h headSize := by
  constructor
  · intro reached
    induction reached with
    | root => exact List.mem_cons_self
    | child parent inner le ih => exact blocks_closed t.leaf t.children ih inner le
  · exact reached_blocks t.leaf t.children .root

theorem TreeAt.stored_iff (t : TreeAt p s h headSize R [] V F) (P : Entry → Prop) :
    (∃ a, Reached s.file.disk a ∧ ∃ i < (s.file.disk a).num, P ((s.file.disk a).slot i).entry) ↔
      ∃ e ∈ flat s.file.disk h headSize, P e := by
  constructor
  · rintro ⟨a, reached, i, hi, holds⟩
    exact ⟨_, (mem_flat h headSize _).mpr ⟨a, t.reached_iff.mp reached, mem_entries hi⟩, holds⟩
  · rintro ⟨e, he, holds⟩
    obtain ⟨a, ha, he⟩ := (mem_flat h headSize e).mp he
    obtain ⟨i, hi, rfl⟩ := mem_slice.mp he
    rw [Nat.zero_add] at holds
    exact ⟨a, t.reached_iff.mpr ha, i, hi, holds⟩

theorem Stands.reached_iff (st : Stands O s h R V F) {x : Nat} :
    Reached s.file.disk x ↔ x ∈ blocks s.file.disk h headSize := st.tree.reached_iff

theorem TreeAt.referenced_iff (t : TreeAt p s h headSize R [] V F) {v : Nat} :
    Referenced s.file.disk v ↔ v ∈ V := by
  have values := t.values
  rw [List.append_nil] at values
  refine (t.stored_iff fun e => blockOf e.2 = v).trans ?_
  constructor
  · rintro ⟨e, he, rfl⟩
    exact values.block e he
  · intro mem
    have some : 0 < (flat s.file.disk h headSize).countP fun e => decide (blockOf e.2 = v) := by
      rw [← values.count v mem]
      exact values.used v mem
    obtain ⟨e, he, eq⟩ := List.countP_pos_iff.mp some
    exact ⟨e, he, of_decide_eq_true eq⟩

theorem TreeAt.leaked_iff (t : TreeAt p s h headSize R [] V F) {x : Nat} : Leaked s x ↔ x ∈ R := by
  have part := t.part
  rw [Leaked, t.reached_iff, t.referenced_iff]
  constructor
  · rintro ⟨inFile, use, unreached, unreferenced⟩
    rcases part.mem.mp inFile with hk | hv | hf
    · exact (List.mem_append.mp hk).resolve_left unreached
    · exact absurd hv unreferenced
    · rw [part.freeBlock x hf] at use
      exact nomatch use
  · intro mem
    have inK : x ∈ blocks s.file.disk h headSize ++ R := List.mem_append_right _ mem
    refine ⟨part.key_mem inK, (part.keyBlock x inK).1, fun inTree => ?_, (part.disjoint.1 x inK).1⟩
    exact (List.nodup_append.mp part.key_nodup).2.2 x inTree x mem rfl

end Stands

end FileDb
