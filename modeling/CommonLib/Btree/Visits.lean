import CommonLib.Btree.Account
import Mathlib.Data.Multiset.Bind

/- `btree_visitor` and `btree_grim_visitor`: the calls they make, and the nodes that the
   second one frees on its way up. -/
namespace Btree
open OrderedTree
variable {geo : Geo} {h : Heap} {root : Nat} {us : List Level}

/-! ### What has been visited -/

def visited (func2 reap : Bool) (s : Visited) (es : List Entry) (as : List Nat) : Visited where
  heap := if reap then as.foldl Heap.drop s.heap else s.heap
  visits := if func2 then s.visits ++ (es.zipIdx s.count).map fun p => ⟨p.1.2, p.1.1, p.2⟩ else s.visits
  freed := if reap then s.freed ++ as else s.freed
  count := s.count + es.length

theorem visited_nil (func2 reap : Bool) (s : Visited) : visited func2 reap s [] [] = s := by
  cases func2 <;> cases reap <;> simp [visited]

theorem visited_append (func2 reap : Bool) (s : Visited) (es fs : List Entry) (as bs : List Nat) :
    visited func2 reap (visited func2 reap s es as) fs bs =
        visited func2 reap s (es ++ fs) (as ++ bs) := by
  cases func2 <;> cases reap <;> simp [visited, List.zipIdx_append, Nat.add_assoc]

theorem dropAll_node (as : List Nat) (h : Heap) (a : Nat) :
    (as.foldl Heap.drop h).node a = if a ∈ as then none else h.node a := by
  induction as generalizing h with
  | nil => simp
  | cons b as ih =>
    rw [List.foldl_cons, ih, drop_node]
    by_cases here : a = b
    · simp [here]
    · simp [here]

theorem visited_beside {func2 reap : Bool} {s : Visited} {es : List Entry} {as : List Nat} {a : Nat}
    (out : reap = true → a ∉ as) : (visited func2 reap s es as).heap.node a = s.heap.node a := by
  cases reap with
  | false => rfl
  | true =>
    change (as.foldl Heap.drop s.heap).node a = _
    rw [dropAll_node, if_neg (out rfl)]

/-! ### One node -/

section Pairs
variable {func2 reap : Bool} {visit : Visited → Key → Nat → Result Visited} {a : Nat} {node : Node}
  {leaves : Entry → List Entry} {own : Entry → List Nat}

/-- The loop over the pairs of a node, where each visit has done its part of the whole. -/
theorem forPairs_spec (here : h.node a = some node) (E F : List Entry)
    (view : View geo node (E ++ F))
    (live : ∀ e ∈ F, e.2 ≠ 0)
    (each : ∀ e ∈ F, ∀ s : Visited, (∀ b ∈ own e, s.heap.node b = h.node b) →
      visit s e.1 e.2 = .ok (visited func2 reap s (leaves e) (own e)))
    (apart : reap = true → (a :: F.flatMap own).Nodup) (s : Visited)
    (same : ∀ b ∈ a :: F.flatMap own, s.heap.node b = h.node b) {n : Nat}
    (size : E.length + n = geo.noPairs) :
    forPairs geo visit a n E.length s =
        .ok (visited func2 reap s (F.flatMap leaves) (F.flatMap own)) := by
  have room := view.room
  have at_a : s.heap.node a = some node := (same a List.mem_cons_self).trans here
  induction F generalizing E s n with
  | nil =>
    rw [List.append_nil] at view
    rw [List.flatMap_nil, List.flatMap_nil, visited_nil]
    cases n with
    | zero => rfl
    | succ n =>
      have past : bval geo node E.length = 0 :=
        congrArg Prod.snd (view.val_past (le_refl _) (by omega))
      rw [forPairs, get_ok at_a]
      exact if_pos past
  | cons e F ih =>
    rw [List.length_append, List.length_cons] at room
    obtain ⟨n, rfl⟩ : ∃ k, n = k + 1 := ⟨n - 1, by omega⟩
    have first := each e List.mem_cons_self s fun b hb => same b (by simp [hb])
    -- what is still to be read has not been freed with the first child
    have rest : ∀ b ∈ a :: F.flatMap own,
        (visited func2 reap s (leaves e) (own e)).heap.node b = h.node b := by
      intro b hb
      refine (visited_beside fun reaps mem => ?_).trans (same b (by simp at hb ⊢; tauto))
      have nodup := apart reaps
      rw [List.flatMap_cons, List.nodup_cons, List.nodup_append] at nodup
      rcases List.mem_cons.mp hb with rfl | hb
      · exact nodup.1 (List.mem_append_left _ mem)
      · exact nodup.2.2.2 b mem b hb rfl
    have apart' : reap = true → (a :: F.flatMap own).Nodup := by
      intro reaps
      have nodup := apart reaps
      rw [List.flatMap_cons] at nodup
      exact nodup.sublist (by simp)
    have view' : View geo node ((E ++ [e]) ++ F) := by simpa using view
    have next := ih (E ++ [e]) view' (fun f hf => live f (List.mem_cons_of_mem _ hf))
      (fun f hf => each f (List.mem_cons_of_mem _ hf)) apart'
      (visited func2 reap s (leaves e) (own e)) rest
      (n := n) (by simp; omega) view'.room ((rest a List.mem_cons_self).trans here)
    rw [List.length_append, List.length_singleton] at next
    rw [forPairs, get_ok at_a]
    simp only [bind, Except.bind, view.val_at, view.key_at, if_neg (live e List.mem_cons_self),
      first, next,
      visited_append, List.flatMap_cons]

theorem reapNode_visited {func2 reap : Bool} {s : Visited} {es : List Entry}
    {as : List Nat} {a : Nat}
    (live : (visited func2 reap s es as).heap.node a ≠ none) :
    reapNode reap (visited func2 reap s es as) a = .ok (visited func2 reap s es (as ++ [a])) := by
  cases reap with
  | false => rfl
  | true =>
    rw [reapNode, if_pos rfl, free_ok live]
    simp [visited, bind, Except.bind, pure, Except.pure]

variable (leaves own) in
theorem forNode_spec (here : h.node a = some node) (F : List Entry) (view : View geo node F)
    (live : ∀ e ∈ F, e.2 ≠ 0)
    (each : ∀ e ∈ F, ∀ s : Visited, (∀ b ∈ own e, s.heap.node b = h.node b) →
      visit s e.1 e.2 = .ok (visited func2 reap s (leaves e) (own e)))
    (apart : reap = true → (F.flatMap own ++ [a]).Nodup) (s : Visited)
    (same : ∀ b ∈ F.flatMap own ++ [a], s.heap.node b = h.node b) :
    (do let s ← forPairs geo visit a geo.noPairs 0 s; reapNode reap s a) =
      .ok (visited func2 reap s (F.flatMap leaves) (F.flatMap own ++ [a])) := by
  have order : (a :: F.flatMap own).Perm (F.flatMap own ++ [a]) :=
    (List.perm_append_singleton a _).symm
  have last : reap = true → a ∉ F.flatMap own := fun reaps =>
    (List.nodup_cons.mp (order.nodup_iff.mpr (apart reaps))).1
  have loop := forPairs_spec here [] F view live each
    (fun reaps => order.nodup_iff.mpr (apart reaps)) s
    (fun b hb => same b (order.mem_iff.mp hb)) (n := geo.noPairs) (Nat.zero_add _)
  rw [List.length_nil] at loop
  rw [loop]
  refine reapNode_visited ?_
  rw [visited_beside last, same a (by simp), here]
  exact Option.some_ne_none node

end Pairs

/-! ### A whole tree -/

section Trees
variable (geo)

def postorder (h : Heap) : Nat → Nat → List Nat
  | 0, a => [a]
  | d + 1, a => ((pairsAt geo h a).flatMap fun e => postorder h d e.2) ++ [a]

def leafEntries (h : Heap) (d a : Nat) : List Entry :=
  (nodesBelow geo h d a).flatMap (pairsAt geo h)

def Readable (h : Heap) (a : Nat) : Prop :=
  ∃ node, h.node a = some node ∧ View geo node (pairsAt geo h a) ∧ ∀ e ∈ pairsAt geo h a, e.2 ≠ 0

inductive Legible (h : Heap) : Nat → Nat → Prop where
  | leaf {a : Nat} (node : Readable geo h a) : Legible h 0 a
  | inner {d a : Nat} (node : Readable geo h a) (children : ∀ e ∈ pairsAt geo h a,
    Legible h d e.2) :
    Legible h (d + 1) a

end Trees

theorem leafEntries_succ (d a : Nat) :
    leafEntries geo h (d + 1) a = (pairsAt geo h a).flatMap fun e => leafEntries geo h d e.2 :=
  List.flatMap_assoc

theorem postorder_perm (d a : Nat) :
    (postorder geo h d a).Perm ((List.range (d + 1)).flatMap fun k => nodesBelow geo h k a) := by
  induction d generalizing a with
  | zero => exact .refl _
  | succ d ih =>
    have below_ : ((pairsAt geo h a).flatMap fun e => postorder geo h d e.2).Perm
        ((List.range (d + 1)).flatMap fun k => nodesBelow geo h (k + 1) a) := by
      refine (List.Perm.flatMap_left _ fun e _ => ih e.2).trans (Multiset.coe_eq_coe.mp ?_)
      simp only [nodesBelow, ← Multiset.coe_bind]
      exact Multiset.bind_bind _ _
    rw [postorder, List.range_succ_eq_map, List.flatMap_cons, List.flatMap_map]
    exact (below_.append_right _).trans List.perm_append_comm

theorem callVisitor_eq (func2 reap : Bool) (s : Visited) (e : Entry) :
    callVisitor func2 s e.1 e.2 = .ok (visited func2 reap s [e] []) := by
  cases reap <;> simp [callVisitor, visited]

theorem forEach_spec {func2 reap : Bool} (d a : Nat) (legible : Legible geo h d a)
    (apart : reap = true → (postorder geo h d a).Nodup) (s : Visited)
    (same : ∀ b ∈ postorder geo h d a, s.heap.node b = h.node b) :
    btreeForEach geo func2 reap d a s =
      .ok (visited func2 reap s (leafEntries geo h d a) (postorder geo h d a)) := by
  induction legible generalizing s with
  | @leaf a node =>
    obtain ⟨node, here, view, live⟩ := node
    have done := forNode_spec (fun e => [e]) (fun _ => []) here (pairsAt geo h a) view live
      (fun e _ s _ => callVisitor_eq func2 reap s e)
    have none_ : (pairsAt geo h a).flatMap (fun _ => ([] : List Nat)) = [] := by simp
    rw [none_, List.nil_append, List.flatMap_singleton'] at done
    rw [btreeForEach, done apart s same, leafEntries, nodesBelow, List.flatMap_singleton, postorder]
  | @inner d a node children ih =>
    obtain ⟨node, here, view, live⟩ := node
    rw [btreeForEach, leafEntries_succ]
    refine forNode_spec _ _ here (pairsAt geo h a) view live (fun e he s same => ?_) apart s same
    refine ih e he (fun reaps => ?_) s same
    have nodup := apart reaps
    rw [postorder, List.nodup_append] at nodup
    exact (List.nodup_flatMap.mp nodup.1).1 e he

/-! ### Reachable trees -/

theorem Stored.readable {p : Page Key Nat} (st : Stored geo h p) : Readable geo h p.1.node := by
  obtain ⟨node, here, view⟩ := st.node
  rw [← st.pairsAt] at view
  exact ⟨node, here, view, fun e he => st.live e (st.pairsAt ▸ he)⟩

theorem Tower.legible {low up : List Level} {u : Level} (tower : Tower geo h root (low ++ u :: up))
    {p : Page Key Nat} (hp : p ∈ u) : Legible geo h low.length p.1.node := by
  have page := tower.drop.2.1 p hp
  induction low using List.reverseRec generalizing u up p with
  | nil => exact .leaf page.readable
  | append_singleton low v ih =>
    have tower' : Tower geo h root (low ++ v :: u :: up) := by simpa using tower
    rw [List.length_append, List.length_singleton]
    refine .inner page.readable fun e he => ?_
    rw [page.pairsAt] at he
    obtain ⟨A, B, parts⟩ := List.append_of_mem he
    obtain ⟨c, hc, span⟩ := tower'.drop.child hp parts
    have below_ := ih tower' hc (tower'.drop.2.1 c hc)
    rwa [span] at below_

theorem Owns.traversal {t : Tree} {es : List Entry} {X : List Nat} (owns : Owns geo t es X)
    (func2 reap : Bool)
    (s : Visited) (same : s.heap = t.heap) :
    ∃ as, (if t.node = 0 then .ok s else btreeForEach geo func2 reap (t.height - 1) t.node s) =
        .ok (visited func2 reap s es as) ∧ as.Perm (Btree.nodes geo t) := by
  have nodup := owns.nodes.nodup_iff.mpr owns.nodup
  rcases owns with ⟨none_, flat, rfl, _⟩ | ⟨r, us, st, _, rfl, _, _⟩
  · refine ⟨[], ?_, by simp [Btree.nodes, flat]⟩
    rw [if_pos none_, visited_nil]
  · have height := st.height
    rw [List.length_cons] at height
    obtain ⟨low, u, rows⟩ := (List.eq_nil_or_concat (r :: us)).resolve_left (by simp)
    rw [List.concat_eq_append] at rows
    have depth := congrArg List.length rows
    rw [List.length_append, List.length_singleton, List.length_cons] at depth
    have tower := st.tower
    rw [rows] at tower
    -- the topmost level is the root alone
    obtain ⟨p, rfl, root⟩ := List.map_eq_singleton_iff.mp tower.drop.1
    have node : p.1.node = t.node := by rw [root, top]
    have legible := tower.legible (List.mem_singleton_self p)
    rw [node, show low.length = t.height - 1 by omega] at legible
    have all : (postorder geo t.heap (t.height - 1) t.node).Perm _ :=
      postorder_perm (t.height - 1) t.node
    rw [show t.height - 1 + 1 = t.height by omega] at all
    have entries : stored geo t = leafEntries geo t.heap (t.height - 1) t.node := if_neg (by omega)
    refine ⟨_, ?_, all⟩
    rw [if_neg st.tower.root_live, ← st.stored, entries]
    exact forEach_spec _ _ legible (fun _ => all.nodup_iff.mpr nodup) s fun b _ => by rw [same]

structure VisitsAll (es : List Entry) (s : Visited) : Prop where
  pairs : s.visits.map (fun v => (v.key, v.elem)) = es
  indices : s.visits.map Visit.index = List.range es.length
  descending : s.visits.Pairwise fun v w => w.key < v.key
  count : s.count = es.length

theorem visitsAll (reap : Bool) (h : Heap) {es : List Entry} (sorted : Decreasing es)
    (as : List Nat) :
    VisitsAll es (visited true reap { heap := h, visits := [], freed := [], count := 0 }
        es as) := by
  have calls : (visited true reap { heap := h, visits := [], freed := [], count := 0 }
    es as).visits =
      es.zipIdx.map fun p => ⟨p.1.2, p.1.1, p.2⟩ := rfl
  have pairs : (es.zipIdx.map fun p => (⟨p.1.2, p.1.1, p.2⟩ : Visit)).map
      (fun v => (v.key, v.elem)) = es := by
    rw [List.map_map]
    exact List.zipIdx_map_fst 0 es
  refine ⟨calls ▸ pairs, ?_, ?_, Nat.zero_add _⟩
  · rw [calls, List.map_map, List.range_eq_range']
    exact List.zipIdx_map_snd 0 es
  · rw [calls]
    rw [← pairs] at sorted
    exact List.pairwise_map.mp sorted

/-- `btree_visitor` reads the whole tree, and `btree_grim_visitor` also takes it down. -/
theorem visitors_visit_all (geo : Geo) (t : Tree)
    (reached : Reached geo (fun m c => c.Ok geo m) t) :
    (∃ s, btreeVisitor geo t true = .ok s ∧ VisitsAll (stored geo t) s ∧ s.heap = t.heap ∧
    s.freed = []) ∧
    ∃ t' s, btreeGrimVisitor geo t true = .ok (t', s) ∧ VisitsAll (stored geo t) s ∧
      s.freed.Perm (nodes geo t) ∧ s.freed.Nodup ∧
      (∀ a, t'.heap.node a = if a ∈ nodes geo t then none else t.heap.node a) ∧
      t'.node = 0 ∧ t'.height = 0 ∧ stored geo t' = [] := by
  obtain ⟨X, owns⟩ := reached.holds.owns
  have sorted := reached.holds.decreasing
  constructor
  · obtain ⟨as, run, _⟩ := owns.traversal true false ⟨t.heap, [], [], 0⟩ rfl
    exact ⟨_, run, visitsAll false t.heap sorted as, rfl, rfl⟩
  · obtain ⟨as, run, all⟩ := owns.traversal true true ⟨t.heap, [], [], 0⟩ rfl
    refine ⟨⟨0, 0, as.foldl Heap.drop t.heap⟩, _, ?_, visitsAll true t.heap sorted as, ?_, ?_,
      ?_, rfl, rfl,
      if_pos rfl⟩
    · have steps : btreeGrimVisitor geo t true = (if t.node = 0 then .ok ⟨t.heap, [], [], 0⟩
          else btreeForEach geo true true (t.height - 1) t.node ⟨t.heap, [], [], 0⟩) >>= fun s =>
            .ok (⟨0, 0, s.heap⟩, s) := by
        unfold btreeGrimVisitor
        split <;> rfl
      rw [steps, run]
      rfl
    · exact all
    · exact all.nodup_iff.mpr (owns.nodes.nodup_iff.mpr owns.nodup)
    · intro a
      have mem := all.mem_iff (a := a)
      refine (dropAll_node as t.heap a).trans ?_
      simp only [mem]

theorem visitors_visit_all_sample : ∃ t rs s t' s', run btreeGeo32 eightInserts
    (btreeInit emptyHeap) = .ok (t, rs) ∧
    btreeVisitor btreeGeo32 t true = .ok s ∧ VisitsAll (stored btreeGeo32 t) s ∧
    btreeGrimVisitor btreeGeo32 t true = .ok (t', s') ∧ s'.freed.Perm (nodes btreeGeo32 t) := by
  obtain ⟨t, rs, ran, reached, _⟩ := eightInserts_run
  obtain ⟨⟨s, run, all, _⟩, t', s', grim, _, freed, _⟩ := visitors_visit_all btreeGeo32 t reached
  exact ⟨t, rs, s, t', s', ran, run, all, grim, freed⟩

end Btree
