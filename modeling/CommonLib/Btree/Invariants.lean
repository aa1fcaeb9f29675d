import CommonLib.Btree.Runs
import Mathlib.Data.List.Induction

/- What the nodes in memory look like after every call, seen from the root down. -/
namespace Btree
open OrderedTree

section Walk
variable (geo : Geo)

def pairsAt (h : Heap) (a : Nat) : List Entry :=
  match h.node a with
  | none => []
  | some node => (List.range (getfill geo node 0)).map (pair geo node)

def nodesBelow (h : Heap) : Nat → Nat → List Nat
  | 0, a => [a]
  | d + 1, a => (pairsAt geo h a).flatMap fun e => nodesBelow h d e.2

def nodes (t : Tree) : List Nat :=
  (List.range t.height).flatMap fun d => nodesBelow geo t.heap d t.node

def stored (t : Tree) : List Entry :=
  if t.height = 0 then []
  else (nodesBelow geo t.heap (t.height - 1) t.node).flatMap (pairsAt geo t.heap)

end Walk

/-- A sound tree: `d` and `d'` count levels from the root and from a child down, `height - 1`
    being the depth of the leaves. -/
structure Sound (geo : Geo) (t : Tree) : Prop where
  empty : t.height = 0 ↔ t.node = 0
  /-- All paths go down through live nodes as far as the leaves, which are `height` deep. -/
  live : ∀ d < t.height, ∀ a ∈ nodesBelow geo t.heap d t.node, t.heap.node a ≠ none
  /-- The entries of a node are a prefix of its pairs; the values after them are 0. -/
  tail : ∀ d < t.height, ∀ a ∈ nodesBelow geo t.heap d t.node, ∀ node, t.heap.node a = some node →
    ∀ i < geo.noPairs, bval geo node i = 0 ↔ getfill geo node 0 ≤ i
  sorted : ∀ d < t.height, ∀ a ∈ nodesBelow geo t.heap d t.node, Decreasing (pairsAt geo t.heap a)
  across : Decreasing (stored geo t)
  /-- The key of an inner entry is a lower bound of what lies below it, -/
  lower : ∀ d d', d + 1 + d' < t.height → ∀ a ∈ nodesBelow geo t.heap d t.node,
    ∀ e ∈ pairsAt geo t.heap a,
    ∀ b ∈ nodesBelow geo t.heap d' e.2, ∀ f ∈ pairsAt geo t.heap b, e.1 ≤ f.1
  /-- and it is above everything below the entries after it. -/
  next : ∀ d d', d + 1 + d' < t.height → ∀ a ∈ nodesBelow geo t.heap d t.node, ∀ A e B,
    pairsAt geo t.heap a = A ++ e :: B → ∀ x ∈ B, ∀ b ∈ nodesBelow geo t.heap d' x.2,
    ∀ f ∈ pairsAt geo t.heap b, f.1 < e.1
  wide : ∀ d < t.height, 0 < d → ∀ a ∈ nodesBelow geo t.heap d t.node,
    2 ≤ (pairsAt geo t.heap a).length
  root : 1 < t.height → 2 ≤ (pairsAt geo t.heap t.node).length

/-! ### Levels and depths -/

variable {geo : Geo} {h : Heap} {root : Nat} {us : List Level}

theorem View.pairs_in_use {node : Node} {es : List Entry} (view : View geo node es)
    (live : ∀ e ∈ es, e.2 ≠ 0) :
    (List.range (Btree.getfill geo node 0)).map (pair geo node) = es := by
  rw [view.getfill live (Nat.zero_le _)]
  apply List.ext_getElem
  · simp
  · intro i hi hi'
    rw [List.getElem_map, List.getElem_range, view.pairs i (hi'.trans_le view.room),
      List.getD_eq_getElem _ _ hi']

theorem Stored.pairsAt {p : Page Key Nat} (st : Stored geo h p) : pairsAt geo h p.1.node = p.2 := by
  obtain ⟨node, here, view⟩ := st.node
  unfold Btree.pairsAt
  rw [here]
  exact view.pairs_in_use st.live

theorem nodesBelow_succ (d a : Nat) :
    nodesBelow geo h (d + 1) a = (nodesBelow geo h d a).flatMap fun b =>
        (pairsAt geo h b).map Prod.snd := by
  induction d generalizing a with
  | zero => simp [nodesBelow, List.map_eq_flatMap]
  | succ d ih =>
    rw [nodesBelow]
    conv_rhs => rw [nodesBelow]
    rw [List.flatMap_assoc]
    exact congrArg (List.flatMap · _) (funext fun e => ih e.2)

theorem Tower.drop {low : List Level} (tower : Tower geo h root (low ++ us)) :
    Tower geo h root us := by
  induction low with
  | nil => exact tower
  | cons u low ih => exact ih tower.2.2.2

theorem Tower.depth {low up : List Level} {u : Level} (tower : Tower geo h root (low ++ u :: up)) :
    nodesBelow geo h up.length root = levelAddrs u := by
  induction up generalizing low u with
  | nil =>
    obtain ⟨p, rfl, same⟩ := List.map_eq_singleton_iff.mp tower.drop.1
    simp [nodesBelow, same, top]
  | cons v up ih =>
    have tower' : Tower geo h root ((low ++ [u]) ++ v :: up) := by simpa using tower
    have above := ih tower'
    obtain ⟨spans_, _, _, rest⟩ := tower.drop
    have children : (rowEntries v).map Prod.snd = levelAddrs u := by
      rw [← below_entries, show below v = u.map Prod.fst from spans_.symm]
      simp [levelAddrs]
    rw [List.length_cons, nodesBelow_succ, above, ← children, rowEntries, List.map_flatMap,
      levelAddrs,
      List.flatMap_map]
    refine List.flatMap_congr fun p hp => ?_
    rw [(rest.2.1 p hp).pairsAt]

theorem Tower.all {low up : List Level} (tower : Tower geo h root (low ++ up)) :
    ((List.range up.length).flatMap fun d => nodesBelow geo h d root).Perm (addrs up) := by
  induction up generalizing low with
  | nil => exact .refl _
  | cons u up ih =>
    have tower' : Tower geo h root ((low ++ [u]) ++ up) := by simpa using tower
    rw [List.length_cons, List.range_succ, List.flatMap_append, List.flatMap_singleton, tower.depth]
    exact ((ih tower').append_right _).trans List.perm_append_comm

theorem Tower.child {v u : Level} (tower : Tower geo h root (v :: u :: us)) {p : Page Key Nat}
    (hp : p ∈ u)
    {A B : List Entry} {e : Entry} (parts : p.2 = A ++ e :: B) :
    ∃ c ∈ v, c.1 = ⟨e.1, e.2, cut p.1.high A⟩ := by
  obtain ⟨U, W, rfl⟩ := List.append_of_mem hp
  obtain ⟨s, es⟩ := p
  dsimp only at parts
  subst parts
  obtain ⟨A', es, B', rfl, _⟩ := level_focus (tower.1.trans (below_focus U W s A B e))
  exact ⟨(⟨e.1, e.2, cut s.high A⟩, es), by simp, rfl⟩

theorem Tower.inside {low up : List Level} {u : Level}
    (tower : Tower geo h root (low ++ u :: up)) {d : Nat}
    (deep : d ≤ low.length) {p : Page Key Nat} (hp : p ∈ u) {b : Nat}
    (hb : b ∈ nodesBelow geo h d p.1.node) :
    ∃ q, Stored geo h q ∧ q.1.node = b ∧ p.1.low ≤ q.1.low ∧ q.1.high ≤ p.1.high := by
  have page := tower.drop.2.1 p hp
  induction low using List.reverseRec generalizing u up d p with
  | nil =>
    obtain rfl : d = 0 := by simpa using deep
    obtain rfl := List.mem_singleton.mp hb
    exact ⟨p, page, rfl, le_rfl, le_rfl⟩
  | append_singleton low v ih =>
    have tower' : Tower geo h root (low ++ v :: u :: up) := by simpa using tower
    cases d with
    | zero =>
      obtain rfl := List.mem_singleton.mp hb
      exact ⟨p, page, rfl, le_rfl, le_rfl⟩
    | succ d =>
      obtain ⟨e, he, hb⟩ := List.mem_flatMap.mp hb
      rw [page.pairsAt] at he
      obtain ⟨A, B, parts⟩ := List.append_of_mem he
      obtain ⟨c, hc, span⟩ := tower'.drop.child hp parts
      rw [List.length_append, List.length_singleton] at deep
      have node : c.1.node = e.2 := by rw [span]
      obtain ⟨q, stored, same, low', high'⟩ :=
        ih tower' (by omega) hc (node ▸ hb) (tower'.drop.2.1 c hc)
      rw [span] at low' high'
      refine ⟨q, stored, same, (page.ok.low e he).trans low', high'.trans ?_⟩
      obtain ⟨sorted, _, high⟩ := page.ok
      rw [parts] at sorted high
      exact cut_le _ (List.pairwise_append.mp sorted).1 fun x hx => high x (by simp [hx])

/-- Below an entry the keys are at or above its own, and below the key of every entry before. -/
theorem Tower.below_entry {low up : List Level} {v u : Level}
    (tower : Tower geo h root (low ++ v :: u :: up))
    {d : Nat} (deep : d ≤ low.length) {p : Page Key Nat} (hp : p ∈ u) {A B : List Entry} {e : Entry}
    (parts : p.2 = A ++ e :: B) {b : Nat} (hb : b ∈ nodesBelow geo h d e.2) {f : Entry}
    (hf : f ∈ pairsAt geo h b) : e.1 ≤ f.1 ∧ ∀ x ∈ A, f.1 < x.1 := by
  obtain ⟨c, hc, span⟩ := tower.drop.child hp parts
  have node : c.1.node = e.2 := by rw [span]
  obtain ⟨q, stored, rfl, low', high'⟩ := tower.inside deep hc (node ▸ hb)
  rw [span] at low' high'
  rw [stored.pairsAt] at hf
  refine ⟨low'.trans (stored.ok.low f hf), lt_of_cut ?_ ((stored.ok.high f hf).trans_le high')⟩
  have sorted := (tower.drop.2.2.2.2.1 p hp).ok.sorted
  rw [parts] at sorted
  exact (List.pairwise_append.mp sorted).1

theorem exists_depth {L : List Level} {d : Nat} (deep : d < L.length) :
    ∃ low u up, L = low ++ u :: up ∧ up.length = d := by
  refine ⟨L.take (L.length - 1 - d), L[L.length - 1 - d], L.drop (L.length - 1 - d + 1), ?_, ?_⟩
  · rw [List.getElem_cons_drop, List.take_append_drop]
  · rw [List.length_drop]
    omega

theorem Standing.stored {t : Tree} {r : Level} (st : Standing geo t 1 (r :: us)) :
    stored geo t = rowEntries r := by
  have height := st.height
  rw [List.length_cons] at height
  have tower : Tower geo t.heap t.node ([] ++ r :: us) := st.tower
  have leaves := tower.depth
  rw [show us.length = t.height - 1 by omega] at leaves
  unfold Btree.stored
  rw [if_neg (by omega), leaves, levelAddrs, List.flatMap_map, rowEntries]
  exact List.flatMap_congr fun p hp => (st.tower.2.1 p hp).pairsAt

theorem Standing.sound {t : Tree} {r : Level} (st : Standing geo t 1 (r :: us)) (wide : Wide r us) :
    Sound geo t := by
  have height := st.height
  rw [List.length_cons] at height
  have size : (r :: us).length = t.height := by
    rw [List.length_cons]
    omega
  -- a node of some depth is a page of the level there
  have page : ∀ d < t.height, ∀ a ∈ nodesBelow geo t.heap d t.node, ∃ low u up p,
    r :: us = low ++ u :: up ∧
      up.length = d ∧ p ∈ u ∧ p.1.node = a ∧ Stored geo t.heap p := by
    intro d deep a ha
    obtain ⟨low, u, up, rows, depth⟩ := exists_depth (size ▸ deep)
    have tower := st.tower
    rw [rows] at tower
    rw [← depth, tower.depth] at ha
    obtain ⟨p, hp, rfl⟩ := List.mem_map.mp ha
    exact ⟨low, u, up, p, rows, depth, hp, rfl, tower.drop.2.1 p hp⟩
  -- and below a node that is not a leaf there is one more level
  have level : ∀ d d', d + 1 + d' < t.height → ∀ a ∈ nodesBelow geo t.heap d t.node, ∃ low v u up p,
      Tower geo t.heap t.node (low ++ v :: u :: up) ∧ d' ≤ low.length ∧ p ∈ u ∧ p.1.node = a ∧
      Stored geo t.heap p := by
    intro d d' deep a ha
    obtain ⟨low, u, up, p, rows, depth, hp, rfl, stored⟩ := page d (by omega) a ha
    have count := congrArg List.length rows
    rw [size, List.length_append, List.length_cons] at count
    obtain ⟨low, v, rfl⟩ := (List.eq_nil_or_concat low).resolve_left
      (List.ne_nil_of_length_pos (by omega))
    rw [List.concat_eq_append] at rows count
    rw [List.length_append, List.length_singleton] at count
    refine ⟨low, v, u, up, p, ?_, by omega, hp, rfl, stored⟩
    have tower := st.tower
    rw [rows] at tower
    simpa using tower
  refine ⟨⟨fun flat =>
    by omega, fun none_ => absurd none_ st.tower.root_live⟩, ?_, ?_, ?_, ?_, ?_, ?_, ?_, ?_⟩
  · intro d deep a ha
    obtain ⟨_, _, _, p, _, _, _, rfl, stored⟩ := page d deep a ha
    exact stored.live_node
  · intro d deep a ha node here i hi
    obtain ⟨_, _, _, p, _, _, _, rfl, stored⟩ := page d deep a ha
    obtain ⟨node', here', view⟩ := stored.node
    obtain rfl := Option.some.inj (here.symm.trans here')
    rw [view.getfill stored.live (Nat.zero_le _)]
    constructor
    · intro zero
      by_contra less
      have less : i < p.2.length := by omega
      have pair_i := view.pairs i hi
      rw [List.getD_eq_getElem _ _ less] at pair_i
      exact stored.live _ (List.getElem_mem less) ((congrArg Prod.snd pair_i).symm.trans zero)
    · exact fun past => congrArg Prod.snd (view.val_past past hi)
  · intro d deep a ha
    obtain ⟨_, _, _, p, _, _, _, rfl, stored⟩ := page d deep a ha
    rw [stored.pairsAt]
    exact stored.ok.sorted
  · rw [st.stored]
    exact st.decreasing
  · intro d d' deep a ha e he b hb f hf
    obtain ⟨low, v, u, up, p, tower, deep', hp, rfl, stored⟩ := level d d' deep a ha
    rw [stored.pairsAt] at he
    obtain ⟨A, B, parts⟩ := List.append_of_mem he
    exact (tower.below_entry deep' hp parts hb hf).1
  · intro d d' deep a ha A e B parts x hx b hb f hf
    obtain ⟨low, v, u, up, p, tower, deep', hp, rfl, stored⟩ := level d d' deep a ha
    rw [stored.pairsAt] at parts
    obtain ⟨B1, B2, rfl⟩ := List.append_of_mem hx
    have parts' : p.2 = (A ++ e :: B1) ++
      x :: B2 := by rw [parts, List.append_assoc, List.cons_append]
    exact (tower.below_entry deep' hp parts' hb hf).2 e (by simp)
  · intro d deep pos a ha
    obtain ⟨low, u, up, p, rows, depth, hp, rfl, stored⟩ := page d deep a ha
    rw [stored.pairsAt]
    cases low with
    | nil =>
      obtain ⟨rfl, rfl⟩ := List.cons.inj rows
      exact wide (List.ne_nil_of_length_pos (by omega)) p hp
    | cons v low =>
      obtain ⟨rfl, rfl⟩ := List.cons.inj rows
      exact st.tower.2.2.1 u (by simp) p hp
  · intro tall
    obtain ⟨low, u, up, p, rows, depth, hp, node, stored⟩ :=
      page 0 (by omega) t.node (by simp [nodesBelow])
    rw [← node, stored.pairsAt]
    have count := congrArg List.length rows
    rw [size, List.length_append, List.length_cons] at count
    obtain ⟨v, low, rfl⟩ := List.exists_cons_of_ne_nil (l := low)
      (List.ne_nil_of_length_pos (by omega))
    obtain ⟨rfl, rfl⟩ := List.cons.inj rows
    exact st.tower.2.2.1 u (by simp) p hp

end Btree
