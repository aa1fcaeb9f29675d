import CommonLib.Btree.View
import CommonLib.OrderedTree.Spans

/- The levels of the tree from some level up to the root, each a list of nodes with
   their entries. An operation at a level concerns only these: `Moves` keeps the account
   of the nodes it takes, changes and frees, and everything else is left alone. -/
namespace Btree
open OrderedTree

abbrev Level := Row Key Nat

/-! ### The account of the nodes -/

/-- The nodes `X` have become the nodes `X'`; no other node has changed. -/
structure Moves (h h' : Heap) (X X' : List Nat) : Prop where
  same : ∀ a, a ∉ X → a ∉ X' → h'.node a = h.node a
  gone : ∀ a ∈ X, a ∉ X' → h'.node a = none
  fresh : ∀ a ∈ X', a ∉ X → h.node a = none

section Moves
variable {h h1 h' : Heap} {X X1 X' Y : List Nat}

theorem Moves.refl (h : Heap) (X : List Nat) : Moves h h X X where
  same _ _ _ := rfl
  gone _ mem out := absurd mem out
  fresh _ mem out := absurd mem out

theorem Moves.trans (first : Moves h h1 X X1) (second : Moves h1 h' X1 X') : Moves h h' X X' where
  same a out out' := by
    by_cases between : a ∈ X1
    · rw [second.gone a between out', first.fresh a between out]
    · rw [second.same a between out', first.same a out between]
  gone a mem out' := by
    by_cases between : a ∈ X1
    · exact second.gone a between out'
    · rw [second.same a between out', first.gone a mem between]
  fresh a mem out := by
    by_cases between : a ∈ X1
    · exact first.fresh a between out
    · rw [← first.same a out between, second.fresh a mem between]

theorem Moves.perm (moves : Moves h h' X X') {Z Z' : List Nat} (old : ∀ a, a ∈ X ↔ a ∈ Z)
    (new : ∀ a, a ∈ X' ↔ a ∈ Z') : Moves h h' Z Z' where
  same a out out' := moves.same a (mt (old a).mp out) (mt (new a).mp out')
  gone a mem out' := moves.gone a ((old a).mpr mem) (mt (new a).mp out')
  fresh a mem out := moves.fresh a ((new a).mpr mem) (mt (old a).mp out)

theorem Moves.widen (moves : Moves h h' X X) (sub : X ⊆ Y) : Moves h h' Y Y where
  same a out _ := moves.same a (fun mem => out (sub mem)) fun mem => out (sub mem)
  gone _ mem out := absurd mem out
  fresh _ mem out := absurd mem out

theorem Moves.beside (moves : Moves h h' X X') {a : Nat} (live : h.node a ≠ none) (out : a ∉ X) :
    a ∉ X' ∧ h'.node a = h.node a := by
  have out' : a ∉ X' := fun mem => live (moves.fresh a mem out)
  exact ⟨out', moves.same a out out'⟩

theorem Moves.frame (moves : Moves h h' X X') (Y : List Nat) :
    Moves h h' (Y ++ X) (Y ++ X') where
  same a out out' := by
    simp only [List.mem_append, not_or] at out out'
    exact moves.same a out.2 out'.2
  gone a mem out' := by
    simp only [List.mem_append, not_or] at mem out'
    exact moves.gone a (mem.resolve_left out'.1) out'.2
  fresh a mem out := by
    simp only [List.mem_append, not_or] at mem out
    exact moves.fresh a (mem.resolve_left out.1) out.2

end Moves

@[simp] theorem put_node (h : Heap) (a : Nat) (node : Node) :
    (h.put a node).node = Function.update h.node a (some node) := rfl

@[simp] theorem drop_node (h : Heap) (a : Nat) :
  (h.drop a).node = Function.update h.node a none := rfl

theorem get_ok {h : Heap} {a : Nat} {node : Node} (here : h.node a = some node) :
    h.get a = .ok node := by
  unfold Heap.get
  rw [here]

theorem free_ok {h : Heap} {a : Nat} (live : h.node a ≠ none) : h.free a = .ok (h.drop a) := by
  obtain ⟨node, here⟩ := Option.ne_none_iff_exists'.mp live
  unfold Heap.free
  rw [here]

theorem Moves.put (h : Heap) {a : Nat} {X : List Nat} (mem : a ∈ X) (node : Node) :
    Moves h (h.put a node) X X where
  same b out _ := by
    rw [put_node, Function.update_of_ne]
    rintro rfl
    exact out mem
  gone _ mem out := absurd mem out
  fresh _ mem out := absurd mem out

theorem Moves.take {h : Heap} {a : Nat} (free : h.node a = none) (X : List Nat) (node : Node) :
    Moves h (h.put a node) X (a :: X) where
  same b _ out' := by
    rw [put_node, Function.update_of_ne]
    rintro rfl
    exact out' List.mem_cons_self
  gone _ mem out := absurd (List.mem_cons_of_mem _ mem) out
  fresh b mem out := by
    rcases List.mem_cons.mp mem with rfl | mem
    · exact free
    · exact absurd mem out

theorem Moves.freed (h : Heap) (a : Nat) (X : List Nat) : Moves h (h.drop a) (a :: X) X where
  same b out _ := by
    rw [drop_node, Function.update_of_ne]
    rintro rfl
    exact out List.mem_cons_self
  gone b mem out := by
    rcases List.mem_cons.mp mem with rfl | mem
    · exact Function.update_self _ _ _
    · exact absurd mem out
  fresh b mem out := absurd (List.mem_cons_of_mem _ mem) out

/-! ### Levels in memory -/

variable {geo : Geo}

structure Stored (geo : Geo) (h : Heap) (p : Page Key Nat) : Prop where
  node : ∃ node, h.node p.1.node = some node ∧ View geo node p.2
  ok : PageOk p
  live : ∀ e ∈ p.2, e.2 ≠ 0
  addr : p.1.node ≠ 0

theorem Stored.fill {geo : Geo} {h : Heap} {p : Page Key Nat} (stored : Stored geo h p) :
    ∃ node, h.get p.1.node = .ok node ∧ getfill geo node 0 = p.2.length := by
  obtain ⟨node, here, view⟩ := stored.node
  exact ⟨node, get_ok here, view.getfill stored.live (Nat.zero_le _)⟩

def top (geo : Geo) (root : Nat) : Span Key Nat := ⟨zeroKey geo, root, ⊤⟩

def floor (geo : Geo) (root : Nat) : List Level → List (Span Key Nat)
  | [] => [top geo root]
  | u :: _ => below u

def Filled (us : List Level) : Prop := ∀ u ∈ us, ∀ p ∈ u, 2 ≤ p.2.length

def Tower (geo : Geo) (h : Heap) (root : Nat) : List Level → Prop
  | [] => True
  | u :: us => u.map Prod.fst = floor geo root us ∧ (∀ p ∈ u, Stored geo h p) ∧ Filled us ∧
      Tower geo h root us

def levelAddrs (u : Level) : List Nat := u.map fun p => p.1.node
def addrs (us : List Level) : List Nat := us.flatMap levelAddrs

@[simp] theorem addrs_nil : addrs [] = [] := rfl
@[simp] theorem addrs_cons (u : Level) (us : List Level) :
  addrs (u :: us) = levelAddrs u ++ addrs us := rfl
@[simp] theorem levelAddrs_append (u v : Level) :
  levelAddrs (u ++ v) = levelAddrs u ++ levelAddrs v :=
  List.map_append
@[simp] theorem levelAddrs_cons (p : Page Key Nat) (u : Level) :
    levelAddrs (p :: u) = p.1.node :: levelAddrs u := rfl
@[simp] theorem levelAddrs_nil : levelAddrs [] = [] := rfl

section Stored
variable {h h' : Heap} {p : Page Key Nat}

theorem Stored.live_node (st : Stored geo h p) : h.node p.1.node ≠ none := by
  obtain ⟨node, here, _⟩ := st.node
  rw [here]
  exact Option.some_ne_none _

theorem Stored.congr (st : Stored geo h p) (same : h'.node p.1.node = h.node p.1.node) :
    Stored geo h' p :=
  ⟨same ▸ st.node, st.ok, st.live, st.addr⟩

theorem Stored.room (st : Stored geo h p) : p.2.length ≤ geo.noPairs := by
  obtain ⟨node, _, view⟩ := st.node
  exact view.room

theorem Stored.loosen (st : Stored geo h p) {t : Span Key Nat} (node : t.node = p.1.node)
    (low : t.low ≤ p.1.low)
    (high : p.1.high ≤ t.high) : Stored geo h (t, p.2) := by
  obtain ⟨found, ok, live, addr⟩ := st
  refine ⟨node.symm ▸ found, ⟨ok.sorted, ?_, ?_⟩, live, node.symm ▸ addr⟩
  · exact fun e he => low.trans (ok.low e he)
  · exact fun e he => (ok.high e he).trans_le high

theorem rehung_stored {u u' : Level} (hung : Rehung u u') (stored : ∀ p ∈ u, Stored geo h p) :
    ∀ q ∈ u', Stored geo h q := by
  intro q hq
  obtain ⟨p, hp, entries, node, low, high⟩ := hung.page hq
  have loose := (stored p hp).loosen node low high
  rw [← entries] at loose
  exact loose

theorem rehung_addrs {u u' : Level} (hung : Rehung u u') : levelAddrs u' = levelAddrs u := by
  induction hung with
  | nil => rfl
  | cons here rest ih => rw [levelAddrs_cons, levelAddrs_cons, here.2.1, ih]

end Stored

section Tower
variable {h h' : Heap} {root : Nat} {u : Level} {us : List Level}

theorem Tower.live (tower : Tower geo h root us) {a : Nat} (mem : a ∈ addrs us) :
    h.node a ≠ none := by
  induction us with
  | nil => simp at mem
  | cons u us ih =>
    rcases List.mem_append.mp mem with mem | mem
    · obtain ⟨p, hp, rfl⟩ := List.mem_map.mp mem
      exact (tower.2.1 p hp).live_node
    · exact ih tower.2.2.2 mem

theorem Tower.congr (tower : Tower geo h root us) (same : ∀ a ∈ addrs us, h'.node a = h.node a) :
    Tower geo h' root us := by
  induction us with
  | nil => trivial
  | cons u us ih =>
    obtain ⟨spans, stored, filled, rest⟩ := tower
    refine ⟨spans, fun p hp => (stored p hp).congr (same _ ?_), filled,
      ih rest fun a ha => same a ?_⟩
    · exact List.mem_append_left _ (List.mem_map_of_mem hp)
    · exact List.mem_append_right _ ha

theorem Tower.apart (tower : Tower geo h root us) : Apart (floor geo root us) := by
  induction us with
  | nil => exact List.pairwise_singleton _ _
  | cons u us ih =>
    obtain ⟨spans, stored, _, rest⟩ := tower
    apply apart_below
    · rw [spans]
      exact ih rest
    · exact fun p hp => (stored p hp).ok

theorem Tower.proper (tower : Tower geo h root us) :
    ∀ s ∈ floor geo root us, (s.low : WithTop Key) < s.high := by
  cases us with
  | nil =>
    intro s hs
    obtain rfl := List.mem_singleton.mp hs
    exact WithTop.coe_lt_top _
  | cons u us =>
    obtain ⟨_, stored, _, _⟩ := tower
    intro s hs
    obtain ⟨p, hp, hs⟩ := List.mem_flatMap.mp hs
    exact ((stored p hp).ok.spans.2 s hs).2.1

end Tower

theorem below_low (A B : Level) (s t : Span Key Nat) (es : List Entry) (high : t.high = s.high) :
    below (A ++ (t, es) :: B) = below (A ++ (s, es) :: B) := by
  simp only [below_append, below_cons, high]

theorem Tower.write {h h' : Heap} {root : Nat} {A B : Level} {us : List Level} {s : Span Key Nat}
    {es fs : List Entry} (tower : Tower geo h root ((A ++ (s, es) :: B) :: us))
    (nodup : (addrs ((A ++ (s, es) :: B) :: us)).Nodup) (moves : Moves h h' [s.node] [s.node])
    (st : Stored geo h' (s, fs)) : Tower geo h' root ((A ++ (s, fs) :: B) :: us) := by
  obtain ⟨spans, stored, filled, rest⟩ := tower
  have away : ∀ a, a ≠ s.node → h'.node a = h.node a := fun a ne =>
    moves.same a (by simpa using ne) (by simpa using ne)
  simp only [addrs_cons, levelAddrs_append, levelAddrs_cons, List.append_assoc,
    List.cons_append] at nodup
  have out := (List.nodup_cons.mp (List.perm_middle.nodup_iff.mp nodup)).1
  simp only [List.mem_append, not_or] at out
  refine ⟨?_, ?_, filled, rest.congr fun a ha => away a ?_⟩
  · simpa using spans
  · intro p hp
    rcases List.mem_append.mp hp with hp | hp
    · refine (stored p (List.mem_append_left _ hp)).congr (away _ fun eq => out.1 ?_)
      exact eq ▸ List.mem_map_of_mem hp
    · rcases List.mem_cons.mp hp with rfl | hp
      · exact st
      · refine (stored p (by simp [hp])).congr (away _ fun eq => out.2.1 ?_)
        exact eq ▸ List.mem_map_of_mem hp
  · rintro rfl
    exact out.2.2 ha

/-- A level around the page at one of the spans it is given. -/
theorem level_focus {r : Level} {S T : List (Span Key Nat)} {s : Span Key Nat}
    (spans : r.map Prod.fst = S ++ s :: T) :
    ∃ A es B, r = A ++ (s, es) :: B ∧ A.map Prod.fst = S ∧ B.map Prod.fst = T := by
  obtain ⟨A, rest, rfl, hA, rest_eq⟩ := List.map_eq_append_iff.mp spans
  obtain ⟨p, B, rfl, rfl, hB⟩ := List.map_eq_cons_iff.mp rest_eq
  exact ⟨A, p.2, B, rfl, hA, hB⟩

end Btree
