import CommonLib.RadixTree.Operations
import CommonLib.SearchTree.Linked
import CommonLib.SearchTree.Trie

/- Where the nodes are: in the tree, in the list of the free ones or on the rest of a page, and
   each of them in one place only. -/
namespace RadixTree
open SearchTree

structure Cell where
  place : Nat
  value : BitVec 64
  deriving DecidableEq, Repr

abbrev Shape := BinaryTree Cell

instance : Linked Cell Node where
  addr x := x.place
  cell x left right parent := ⟨right, left, parent, x.value⟩

/-! ### Pages -/

def Pool.nodes (pool : Pool) (asked : Nat) : List Nat :=
  (List.range asked).flatMap fun k =>
    match pool.page k with
    | none => []
    | some p => slots p (pool.pagesize / nodeSize)

section Pages
variable (pool : Pool) {p q n k : Nat}

theorem mem_slots : q ∈ slots p n ↔ ∃ i < n, p + nodeSize * i = q := by
  simp [slots]

theorem slots_succ : slots p (n + 1) = p :: slots (p + nodeSize) n := by
  rw [slots, slots, List.range_succ_eq_map, List.map_cons, List.map_map]
  refine congrArg₂ _ (by simp) (List.map_congr_left fun i _ => ?_)
  simp only [Function.comp_apply, Nat.succ_eq_add_one, nodeSize]
  omega

theorem slots_nodup (p n : Nat) : (slots p n).Nodup := by
  refine List.Nodup.map (fun i j same => ?_) List.nodup_range
  simp only [nodeSize] at same
  omega

theorem slot_inside (slot : q ∈ slots p (pool.pagesize / nodeSize)) :
    p ≤ q ∧ q + nodeSize ≤ p + pool.pagesize := by
  obtain ⟨i, inside, rfl⟩ := mem_slots.mp slot
  have whole := Nat.div_mul_le_self pool.pagesize nodeSize
  simp only [nodeSize] at *
  constructor
  · omega
  · omega

theorem mem_nodes {asked : Nat} : q ∈ pool.nodes asked ↔
    ∃ k < asked, ∃ p, pool.page k = some p ∧ q ∈ slots p (pool.pagesize / nodeSize) := by
  rw [Pool.nodes, List.mem_flatMap]
  constructor
  · rintro ⟨k, inside, member⟩
    cases page : pool.page k with
    | none => simp [page] at member
    | some p => exact ⟨k, List.mem_range.mp inside, p, page, by simpa [page] using member⟩
  · rintro ⟨k, inside, p, page, slot⟩
    exact ⟨k, List.mem_range.mpr inside, by simpa [page] using slot⟩

theorem nodes_pos {asked : Nat} (member : q ∈ pool.nodes asked) : q ≠ 0 := by
  obtain ⟨k, _, p, page, slot⟩ := (mem_nodes pool).mp member
  have first := pool.positive page
  have start := (slot_inside pool slot).1
  omega

theorem nodes_succ_none (none : pool.page n = none) : pool.nodes (n + 1) = pool.nodes n := by
  simp [Pool.nodes, List.range_succ, none]

theorem nodes_succ_some (page : pool.page n = some p) :
    pool.nodes (n + 1) = pool.nodes n ++ slots p (pool.pagesize / nodeSize) := by
  simp [Pool.nodes, List.range_succ, page]

theorem page_fresh (page : pool.page n = some p) (slot : q ∈ slots p (pool.pagesize / nodeSize)) :
    q ∉ pool.nodes n := by
  intro old
  obtain ⟨k, earlier, p', page', slot'⟩ := (mem_nodes pool).mp old
  have apart := pool.apart (Nat.ne_of_lt earlier) page' page
  have here := slot_inside pool slot
  have there := slot_inside pool slot'
  simp only [nodeSize] at *
  omega

theorem nodes_nodup (n : Nat) : (pool.nodes n).Nodup := by
  induction n with
  | zero => exact List.nodup_nil
  | succ n ih =>
    cases page : pool.page n with
    | none => rwa [nodes_succ_none pool page]
    | some p =>
      rw [nodes_succ_some pool page]
      refine List.nodup_append.mpr ⟨ih, slots_nodup _ _, ?_⟩
      rintro q old _ new rfl
      exact page_fresh pool page new old

theorem apart_of_perm {places : List Nat} (all : places.Perm (pool.nodes n)) :
    places.Nodup ∧ ∀ q ∈ places, q ≠ 0 :=
  ⟨all.nodup_iff.mpr (nodes_nodup pool n), fun _ member => nodes_pos pool (all.mem_iff.mp member)⟩

end Pages

/-! ### The tree, and what is not in it -/

def Chain (m : Mem) : Nat → List Nat → Prop
  | p, [] => p = 0
  | p, q :: rest => p = q ∧ ∃ node, m q = some node ∧ Chain m node.right rest

def Tree.rest (t : Tree) : List Nat := slots t.start (t.size / nodeSize)

/-- The tree in memory is `plug path sub`; every node of the pages is in the tree, free, on the
    rest of the page or one of `loose`. -/
structure Holds (pool : Pool) (t : Tree) (loose : List Nat) (path : Path Cell) (sub : Shape) : Prop
    extends Stands t.mem 0 0 path sub where
  root : t.root = ptr 0 (plug path sub)
  null : t.mem 0 = none
  stock : ∃ spare, Chain t.mem t.free spare ∧
    (∀ q ∈ loose ++ t.rest, (t.mem q).isSome) ∧
    (addrs sub ++ addrsAround path ++ (loose ++ (spare ++ t.rest))).Perm (pool.nodes t.asked)

section Writes
variable {t : Tree} {p q parent near far : Nat} {s : Side} {x : Cell} {node : Node}

theorem modify_eq (here : t.mem p = some node) (f : Node → Node) :
    t.modify p f = some (t.put p (f node)) := by
  simp [Tree.modify, Tree.get, here]

@[simp] theorem put_self : (t.put p node).mem p = some node := Function.update_self ..

theorem put_other {n : Node} (other : q ≠ p) : (t.put p n).mem q = t.mem q :=
  Function.update_of_ne other ..

@[simp] theorem put_root : (t.put p node).root = t.root := rfl

@[simp] theorem put_free : (t.put p node).free = t.free := rfl

@[simp] theorem put_rest : (t.put p node).rest = t.rest := rfl

@[simp] theorem put_asked : (t.put p node).asked = t.asked := rfl

theorem child_eq (here : t.mem p = some (seen s x near far parent)) :
    t.child p s = some near ∧ t.child p s.other = some far := by
  cases s <;> simp [Tree.child, Tree.get, here] <;> exact ⟨rfl, rfl⟩

theorem parent_eq (here : t.mem p = some (seen s x near far parent)) : t.parent p = some parent := by
  cases s <;> simp [Tree.parent, Tree.get, here] <;> rfl

theorem value_eq (here : t.mem p = some (seen s x near far parent)) : t.value p = some x.value := by
  cases s <;> simp [Tree.value, Tree.get, here] <;> rfl

theorem setChild_eq (here : t.mem p = some (seen s x near far parent)) (q : Nat) :
    t.setChild p s q = some (t.put p (seen s x q far parent)) := by
  cases s <;> exact modify_eq here _

theorem setValue_eq (here : t.mem p = some (seen s x near far parent)) (value : BitVec 64) :
    t.setValue p value =
      some (t.put p (seen s (⟨x.place, value⟩ : Cell) near far parent)) := by
  cases s <;> exact modify_eq here _

end Writes

section Stock
variable {pool : Pool} {t t' : Tree} {loose : List Nat} {path : Path Cell} {step : Step Cell}
  {sub : Shape} {q : Nat}

theorem Chain.congr {m m' : Mem} {p : Nat} {spare : List Nat} (same : ∀ q ∈ spare, m' q = m q)
    (chain : Chain m p spare) : Chain m' p spare := by
  induction spare generalizing p with
  | nil => exact chain
  | cons q spare ih =>
    obtain ⟨first, node, here, later⟩ := chain
    exact ⟨first, node, (same q List.mem_cons_self).trans here,
      ih (fun p member => same p (List.mem_cons_of_mem _ member)) later⟩

theorem holds_up : Holds pool t loose (step :: path) sub ↔
    Holds pool t loose path (join step.side sub step.root step.rest) := by
  have places : (addrs sub ++ addrsAround (step :: path)).Perm
      (addrs (join step.side sub step.root step.rest) ++ addrsAround path) := perm_up
  constructor
  · intro h
    obtain ⟨spare, chain, mapped, all⟩ := h.stock
    exact ⟨stands_up.mp h.toStands, h.root, h.null, spare, chain, mapped,
      (places.symm.append_right _).trans all⟩
  · intro h
    obtain ⟨spare, chain, mapped, all⟩ := h.stock
    exact ⟨stands_up.mpr h.toStands, h.root, h.null, spare, chain, mapped,
      (places.append_right _).trans all⟩

theorem holds_plug : Holds pool t loose path sub ↔ Holds pool t loose [] (plug path sub) := by
  induction path generalizing sub with
  | nil => exact Iff.rfl
  | cons step path ih => exact holds_up.trans ih

theorem Holds.of (spare : List Nat) (inner : Sub t.mem 0 (up 0 path) sub)
    (ctx : Ctx t.mem 0 0 (ptr 0 sub) path) (root : t.root = ptr 0 (plug path sub))
    (null : t.mem 0 = none) (chain : Chain t.mem t.free spare)
    (mapped : ∀ q ∈ loose ++ t.rest, (t.mem q).isSome)
    (all : (addrs sub ++ addrsAround path ++ (loose ++ (spare ++ t.rest))).Perm
      (pool.nodes t.asked)) : Holds pool t loose path sub := by
  obtain ⟨apart, pos⟩ := apart_of_perm pool all
  exact ⟨⟨inner, ctx, (List.nodup_append.mp apart).1,
    fun member => pos 0 (List.mem_append_left _ member) rfl⟩, root, null, spare, chain, mapped, all⟩

theorem take_rest (room : nodeSize ≤ t.size) : t.rest = t.start :: (take t).1.rest := by
  have count : t.size / nodeSize = (t.size - nodeSize) / nodeSize + 1 := by
    simp only [nodeSize] at *
    omega
  rw [Tree.rest, count, slots_succ]
  rfl

theorem take_holds (h : Holds pool t [] path sub) (room : nodeSize ≤ t.size) :
    (take t).2 ≠ 0 ∧ Holds pool (take t).1 [(take t).2] path sub := by
  obtain ⟨spare, chain, mapped, all⟩ := h.stock
  rw [take_rest room] at mapped all
  have first : (take t).2 ∈ pool.nodes t.asked := all.mem_iff.mp (by simp [take])
  refine ⟨nodes_pos pool first, h.toStands, h.root, h.null, spare, chain, mapped, ?_⟩
  have first_last : (t.start :: (spare ++ (take t).1.rest)).Perm (spare ++ t.start :: (take t).1.rest) :=
    List.perm_middle.symm
  exact (first_last.append_left _).trans all

theorem page_holds {p : Nat} (h : Holds pool t [] path sub) (short : t.size < nodeSize)
    (page : pool.page t.asked = some p) :
    Holds pool { (pmemalign pool t).1 with start := p, size := pool.pagesize } [] path sub := by
  obtain ⟨spare, chain, _, all⟩ := h.stock
  have none : t.rest = [] := by
    rw [Tree.rest, Nat.div_eq_of_lt short]
    rfl
  rw [none, List.nil_append, List.append_nil] at all
  have old : ∀ q ∈ addrs sub ++ addrsAround path ++ spare, (pmemalign pool t).1.mem q = t.mem q := by
    intro q member
    rw [pmemalign, page]
    exact if_neg fun slot => page_fresh pool page slot (all.mem_iff.mp member)
  have null : (pmemalign pool t).1.mem 0 = t.mem 0 := by
    rw [pmemalign, page]
    refine if_neg fun slot => ?_
    have start := (slot_inside pool slot).1
    have first := pool.positive page
    omega
  refine ⟨h.toStands.congr fun q member => old q (List.mem_append_left _ member), ?_,
    null.trans h.null, spare, ?_, fun q slot => ?_, ?_⟩
  · rw [pmemalign, page]
    exact h.root
  · rw [pmemalign, page] at old ⊢
    exact chain.congr fun q member => old q (List.mem_append_right _ member)
  · rw [pmemalign, page]
    exact (congrArg Option.isSome (if_pos slot)).trans rfl
  · rw [pmemalign, page, nodes_succ_some pool page, List.nil_append, ← List.append_assoc]
    exact all.append_right _

/-- A page asked for on the way from `t` to `t'` was refused. -/
def Refused (pool : Pool) (t t' : Tree) : Prop :=
  ∃ k, t.asked ≤ k ∧ k < t'.asked ∧ pool.page k = none

/-- A node is found, or the page asked for is refused. -/
theorem alloc_holds (h : Holds pool t [] path sub) :
    ∃ t' q, alloc pool t = some (t', q) ∧ t.asked ≤ t'.asked ∧
      (q = 0 ∧ Refused pool t t' ∧ Holds pool t' [] path sub ∨
        q ≠ 0 ∧ Holds pool t' [q] path sub) := by
  obtain ⟨spare, chain, mapped, all⟩ := h.stock
  cases spare with
  | cons q spare =>
    obtain ⟨first, node, here, later⟩ := chain
    have used : t.free ≠ 0 := by
      rw [first]
      exact nodes_pos pool (all.mem_iff.mp (by simp))
    refine ⟨{ t with free := node.right }, t.free, ?_, Nat.le_refl _, .inr ⟨used, h.toStands, h.root, h.null, spare,
      later, ?_, ?_⟩⟩
    · rw [alloc, if_pos used]
      simp [Tree.child, Tree.get, first, here, Node.child]
    · intro p member
      rcases List.mem_cons.mp member with rfl | slot
      · rw [first, here]
        rfl
      · exact mapped p slot
    · rw [first]
      exact all
  | nil =>
    have empty : t.free = 0 := chain
    by_cases short : t.size < nodeSize
    · cases page : pool.page t.asked with
      | none =>
        have refused : Refused pool t { t with asked := t.asked + 1, start := 0 } :=
          ⟨t.asked, Nat.le_refl _, Nat.lt_succ_self _, page⟩
        refine ⟨{ t with asked := t.asked + 1, start := 0 }, 0, ?_, Nat.le_succ _,
          .inl ⟨rfl, refused, h.toStands, h.root, h.null, [], empty, ?_, ?_⟩⟩
        · simp [alloc, empty, short, pmemalign, page]
        · simp [Tree.rest, Nat.div_eq_of_lt short, slots]
        · rw [nodes_succ_none pool page]
          simpa [Tree.rest, Nat.div_eq_of_lt short, slots] using all
      | some p =>
        obtain ⟨used, holds⟩ := take_holds (page_holds h short page) pool.room
        refine ⟨_, _, ?_, ?_, .inr ⟨used, holds⟩⟩
        · have start : p ≠ 0 := used
          simp [alloc, empty, short, pmemalign, page, start]
        · simp only [take, pmemalign, page]
          exact Nat.le_succ _
    · obtain ⟨used, holds⟩ := take_holds h (Nat.le_of_not_lt short)
      exact ⟨(take t).1, (take t).2, by simp [alloc, empty, short], Nat.le_refl t.asked,
        .inr ⟨used, holds⟩⟩

end Stock

end RadixTree
