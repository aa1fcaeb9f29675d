import CommonLib.Btree.Descend

/- Two neighbours under one parent: how `rebalance_insert` and `rebalance` find them, and
   what their level and the one above become when entries move across. -/
namespace Btree
open OrderedTree
variable {geo : Geo} {h h' : Heap} {root : Nat} {us : List Level} {A B Au Bu : Level}
    {sp : Span Key Nat}
  {E F L R : List Entry} {el er : Entry}

/-! ### Pages beside a change -/

theorem stored_beside {X X' : List Nat} {u : Level} (stored : ∀ p ∈ u, Stored geo h p)
    (moves : Moves h h' X X')
    (out : ∀ a ∈ levelAddrs u, a ∉ X) : ∀ p ∈ u, Stored geo h' p := by
  intro p hp
  have st := stored p hp
  exact st.congr (moves.beside st.live_node (out _ (List.mem_map_of_mem hp))).2

theorem Tower.beside {X X' : List Nat} (tower : Tower geo h root us) (moves : Moves h h' X X')
    (out : ∀ a ∈ addrs us, a ∉ X) : Tower geo h' root us :=
  tower.congr fun a ha => (moves.beside (tower.live ha) (out a ha)).2

/-! ### A level as it is found -/

variable {level : Nat} {key : Key}

theorem Standing.beside {t : Tree} {X X' : List Nat} {h' : Heap} (st : Standing geo t level us)
    (moves : Moves t.heap h' X X') (out : ∀ a ∈ addrs us, a ∉ X) :
    Standing geo { t with heap := h' } level us :=
  ⟨st.tower.beside moves out, st.nodup, st.height⟩

theorem Found.standing {t : Tree} {r A B : Level} {s : Span Key Nat} {es : List Entry} {h' : Heap}
    {us' : List Level} (st : Standing geo t level (r :: us))
    (found : Found geo t.heap t.node us r key h' us' A s es B) :
    Standing geo { t with heap := h' } level
        ((A ++ (⟨min s.low key, s.node, s.high⟩, es) :: B) :: us') := by
  refine ⟨found.tower, ?_, ?_⟩
  · have nodup := st.nodup
    rw [found.level] at nodup
    simp only [addrs_cons, levelAddrs_append, levelAddrs_cons, found.addrs] at nodup ⊢
    exact nodup
  · have height := st.height
    simp only [List.length_cons, found.length] at height ⊢
    exact height

def Wide (r : Level) (us : List Level) : Prop := us ≠ [] → ∀ p ∈ r, 2 ≤ p.2.length

theorem Standing.filled {t : Tree} {r : Level} (st : Standing geo t level (r :: us))
    (wide : Wide r us)
    (many : 2 ≤ (rowEntries r).length) : Filled (r :: us) := by
  obtain ⟨spans_, _, filled, _⟩ := st.tower
  intro v hv p hp
  rcases List.mem_cons.mp hv with rfl | hv
  · by_cases root : us = []
    · subst root
      obtain ⟨q, rfl, _⟩ := List.map_eq_singleton_iff.mp spans_
      rw [List.mem_singleton.mp hp]
      have flat : rowEntries [q] = q.2 := by simp [rowEntries]
      rwa [flat] at many
    · exact wide root p hp
  · exact filled v hv p hp

theorem Filled.many {u : Level} (filled : Filled (u :: us)) (some : u ≠ []) :
    2 ≤ (rowEntries u).length := by
  obtain ⟨p, v, rfl⟩ := List.exists_cons_of_ne_nil some
  have two := filled (p :: v) List.mem_cons_self p List.mem_cons_self
  rw [rowEntries_cons, List.length_append]
  omega

theorem Standing.upper_ne {t : Tree} {u : Level} {s : Span Key Nat} {es : List Entry}
    (st : Standing geo t level ((A ++ (s, es) :: B) :: u :: us)) : u ≠ [] := by
  rintro rfl
  exact absurd st.tower.1 (by simp [floor])

/-! ### A level after a call -/

structure Settled (geo : Geo) (h : Heap) (level : Nat) (r : Level) (us : List Level) (t' : Tree)
    (r' : Level)
    (us' : List Level) : Prop where
  standing : Standing geo t' level (r' :: us')
  wide : Wide r' us'
  entries : rowEntries r' = rowEntries r
  looser : Looser (below r) (below r')
  moves : Moves h t'.heap (addrs (r :: us)) (addrs (r' :: us'))

def Calloc.Refuses (mem : Calloc) : Prop := ∃ h, mem.addr h = none

def Ends (geo : Geo) (mem : Calloc) (h : Heap) (level : Nat) (r : Level) (us : List Level)
    (call : Result (Tree × Except Errno Unit)) (done : Tree → Level → List Level → Prop) : Prop :=
  ∃ t' r' us', call = .ok (t', .ok ()) ∧ done t' r' us' ∨
    call = .ok (t', .error .ENOMEM) ∧ mem.Refuses ∧ Settled geo h level r us t' r' us'

theorem Settled.filled {h : Heap} {r r' : Level} {us us' : List Level} {t' : Tree}
    (made : Settled geo h level r us t' r' us') (many : 2 ≤ (rowEntries r).length) :
        Filled (r' :: us') := by
  apply made.standing.filled made.wide
  rw [made.entries]
  exact many

structure Remains (geo : Geo) (h : Heap) (level : Nat) (X : List Nat) (S : List (Span Key Nat))
    (t' : Tree)
    (ws : List Level) : Prop where
  standing : Standing geo t' level ws
  filled : Filled ws
  looser : Looser S (floor geo t'.node ws)
  moves : Moves h t'.heap X (addrs ws)

theorem Remains.settled {t t' : Tree} {r : Level} {ws : List Level}
    (st : Standing geo t level (r :: us))
    (remains : Remains geo t.heap (level + 1) (addrs us) (floor geo t.node us) t' ws)
    (wide : ws ≠ [] → ∀ p ∈ r, 2 ≤ p.2.length) : ∃ r', Settled geo t.heap level r us t' r' ws := by
  obtain ⟨spans_, stored, _, _⟩ := st.tower
  have nodup := st.nodup
  rw [addrs_cons] at nodup
  obtain ⟨nodup_r, _, across⟩ := List.nodup_append.mp nodup
  have looser := remains.looser
  rw [← spans_] at looser
  obtain ⟨r', hung, same⟩ := rehang looser
  have apart : ∀ a ∈ levelAddrs r, a ∉ addrs us := fun a ha mem => across a ha a mem rfl
  have live : ∀ a ∈ levelAddrs r, t.heap.node a ≠ none := by
    intro a ha
    obtain ⟨p, hp, rfl⟩ := List.mem_map.mp ha
    exact (stored p hp).live_node
  refine ⟨r', ⟨⟨same, ?_, remains.filled, remains.standing.tower⟩, ?_, ?_⟩, ?_, hung.entries,
    hung.below, ?_⟩
  · exact rehung_stored hung (stored_beside stored remains.moves apart)
  · rw [addrs_cons, rehung_addrs hung]
    refine List.nodup_append.mpr ⟨nodup_r, remains.standing.nodup, ?_⟩
    rintro a ha _ mem rfl
    exact (remains.moves.beside (live a ha) (apart a ha)).1 mem
  · have height := remains.standing.height
    rw [List.length_cons]
    omega
  · intro some q hq
    obtain ⟨p, hp, entries, _⟩ := hung.page hq
    rw [entries]
    exact wide some p hp
  · rw [addrs_cons, addrs_cons, rehung_addrs hung]
    exact remains.moves.frame _

/-! ### The parent -/

theorem Standing.up {t : Tree} {level : Nat} {r : Level} (st : Standing geo t level (r :: us)) :
    Standing geo t (level + 1) us where
  tower := st.tower.2.2.2
  nodup := (List.nodup_append.mp st.nodup).2.1
  height := by
    have height := st.height
    rw [List.length_cons] at height
    omega

structure Parent (geo : Geo) (t : Tree) (level : Nat) (A : Level) (s : Span Key Nat)
    (es : List Entry)
    (B u : Level) (us : List Level) (key : Key) (h' : Heap) (us' : List Level) (Au : Level)
    (sp : Span Key Nat) (E F : List Entry) (Bu : Level) : Prop where
  row : u = Au ++ (sp, E ++ (s.low, s.node) :: F) :: Bu
  high : s.high = cut sp.high E
  left : A.map Prod.fst = below Au ++ spans sp.high E
  right : B.map Prod.fst = spans s.low F ++ below Bu
  above : ∀ x ∈ E, key < x.1
  standing : Standing geo { t with heap := h' } level ((A ++ (s, es) :: B) :: u :: us')
  addrs : Btree.addrs us' = Btree.addrs us
  length : us'.length = us.length
  moves : Moves t.heap h' (Btree.addrs us) (Btree.addrs us)

theorem Parent.settled {t t' : Tree} {level : Nat} {s : Span Key Nat} {es : List Entry}
    {r r' u : Level}
    {us' us2 : List Level} (parent : Parent geo t level A s es B u us key h' us' Au sp E F Bu)
    (made : Settled geo h' level r (u :: us') t' r' us2) :
        Settled geo t.heap level r (u :: us) t' r' us2 := by
  refine ⟨made.standing, made.wide, made.entries, made.looser, ?_⟩
  have moves := made.moves
  simp only [addrs_cons, parent.addrs] at moves ⊢
  refine (parent.moves.widen ?_).trans moves
  exact fun a ha => List.mem_append_right _ (List.mem_append_right _ ha)

theorem findParent_spec {t : Tree} {level : Nat} {s : Span Key Nat} {es : List Entry} {u : Level}
    {key : Key}
    (st : Standing geo t level ((A ++ (s, es) :: B) :: u :: us)) (len : key.length = geo.keylen)
    (low : s.low ≤ key) (high : (key : WithTop Key) < s.high) :
    ∃ h' us' Au sp E F Bu, findLevel geo t key (level + 1) = .ok ({ t with heap := h' }, sp.node) ∧
      Parent geo t level A s es B u us key h' us' Au sp E F Bu := by
  obtain ⟨spans, stored, filled, tower⟩ := st.tower
  have stored_u := tower.2.1
  have below_ : below u = A.map Prod.fst ++ s :: B.map Prod.fst := by
    rw [show below u = floor geo t.node (u :: us) from rfl, ← spans, List.map_append, List.map_cons]
  obtain ⟨Au, sp, E, F, Bu, row, high_, left, right, lowP, highP, above⟩ :=
    parent_focus below_ (Tower.apart tower) (fun p hp => (stored_u p hp).ok) low high
  obtain ⟨h', us', A', sp', es', B', run, found⟩ := findLevel_spec st.up len
  obtain ⟨rfl, rfl, rfl, rfl⟩ := found.unique row (.inl lowP) highP
  obtain ⟨row', _, tower', addrs', length', moves⟩ := found
  rw [min_eq_left lowP] at tower'
  have nodup := st.nodup
  rw [addrs_cons] at nodup
  obtain ⟨nodup_r, nodup_u, across⟩ := List.nodup_append.mp nodup
  rw [addrs_cons] at nodup_u across
  refine ⟨h', us', A', sp', E, F, B', run, row, high_, left, right, above,
    ⟨⟨?_, ?_, ?_, ?_⟩, ?_, ?_⟩,
    addrs', length', moves⟩
  · rw [spans, row']
    rfl
  · apply stored_beside stored moves
    intro a ha mem
    exact across a ha a (List.mem_append_right _ mem) rfl
  · intro v hv p hp
    rcases List.mem_cons.mp hv with rfl | hv
    · exact filled v List.mem_cons_self p hp
    · exact tower'.2.2.1 v hv p hp
  · rw [row]
    exact tower'
  · rw [addrs_cons, addrs_cons, addrs', ← addrs_cons, ← addrs_cons]
    exact st.nodup
  · have height := st.height
    simp only [List.length_cons] at height ⊢
    rw [length']
    exact height

/-! ### Moving the border between neighbours -/

theorem below_siblings (k : Key) :
    below (Au ++ (sp, E ++ (k, el.2) :: er :: F) :: Bu) =
      (below Au ++ spans sp.high E) ++ ⟨k, el.2, cut sp.high E⟩ :: ⟨er.1, er.2, k⟩ ::
        (spans er.1 F ++ below Bu) := by
  rw [below_focus]
  rfl

structure Neighbours (geo : Geo) (h : Heap) (root : Nat) (us : List Level) (A B Au Bu : Level)
    (sp : Span Key Nat) (E F : List Entry) (el er : Entry) (L R : List Entry) : Prop where
  tower : Tower geo h root ((A ++ (⟨el.1, el.2, cut sp.high E⟩, L) :: (⟨er.1, er.2, el.1⟩,
    R) :: B) ::
    (Au ++ (sp, E ++ el :: er :: F) :: Bu) :: us)
  nodup : (addrs ((A ++ (⟨el.1, el.2, cut sp.high E⟩, L) :: (⟨er.1, er.2, el.1⟩, R) :: B) ::
    (Au ++ (sp, E ++ el :: er :: F) :: Bu) :: us)).Nodup
  left : A.map Prod.fst = below Au ++ spans sp.high E
  right : B.map Prod.fst = spans er.1 F ++ below Bu

/-! ### `steal_l` and `steal_r` -/

def Divided (geo : Geo) (h' : Heap) (root : Nat) (us : List Level) (A B Au Bu : Level)
    (sp : Span Key Nat)
    (E F : List Entry) (el er : Entry) (es : List Entry) (l r : Nat) : Prop :=
  ∃ M m S, es = M ++ m :: S ∧ (M ++ [m]).length = l ∧ S.length = r ∧
    Neighbours geo h' root us A B Au Bu sp E F (m.1, el.2) er (M ++ [m]) S

theorem moves_three (h : Heap) {a b c : Nat} {X : List Nat} (ha : a ∈ X) (hb : b ∈ X) (hc : c ∈ X)
    (x y z : Node) : Moves h (((h.put a x).put b y).put c z) X X :=
  ((Moves.put h ha x).trans (Moves.put _ hb y)).trans (Moves.put _ hc z)

theorem put_three (h : Heap) {a b c : Nat} (ab : a ≠ b) (ac : a ≠ c) (bc : b ≠ c) (x y z : Node) :
    (((h.put a x).put b y).put c z).node a = some x ∧
    (((h.put a x).put b y).put c z).node b = some y ∧
      (((h.put a x).put b y).put c z).node c = some z := by
  simp [Function.update_of_ne, ab, ac, bc]

section Neighbours
variable (n : Neighbours geo h root us A B Au Bu sp E F el er L R)
include n

theorem Neighbours.storedL : Stored geo h (⟨el.1, el.2, cut sp.high E⟩, L) :=
  n.tower.2.1 _ (by simp)

theorem Neighbours.storedR : Stored geo h (⟨er.1, er.2, el.1⟩, R) := n.tower.2.1 _ (by simp)

theorem Neighbours.storedP : Stored geo h (sp, E ++ el :: er :: F) := n.tower.2.2.2.2.1 _ (by simp)

theorem Neighbours.distinct : el.2 ≠ er.2 ∧ el.2 ≠ sp.node ∧ er.2 ≠ sp.node := by
  have nodup := n.nodup
  simp only [addrs_cons, levelAddrs_append, levelAddrs_cons, List.nodup_append, List.nodup_cons,
    List.mem_append, List.mem_cons] at nodup
  grind

theorem Neighbours.apart (a : Nat) (mem : a ∈ levelAddrs A ∨ a ∈ levelAddrs B ∨ a ∈ levelAddrs Au ∨
    a ∈ levelAddrs Bu ∨ a ∈ addrs us) : a ∉ [el.2, er.2, sp.node] := by
  have nodup := n.nodup
  simp only [addrs_cons, levelAddrs_append, levelAddrs_cons, List.nodup_append, List.nodup_cons,
    List.mem_append, List.mem_cons] at nodup
  simp only [List.mem_cons, List.not_mem_nil, or_false]
  grind

theorem Neighbours.keys : er.1 < el.1 ∧ (el.1 : WithTop Key) < cut sp.high E ∧ sp.low ≤ er.1 ∧
    (el.1 : WithTop Key) < sp.high ∧ (∀ x ∈ E, el.1 < x.1) ∧ ∀ f ∈ F, f.1 < er.1 := by
  obtain ⟨sorted, low, high⟩ := n.storedP.ok
  obtain ⟨_, sorted, across⟩ := List.pairwise_append.mp sorted
  obtain ⟨after, sorted⟩ := List.pairwise_cons.mp sorted
  have above : ∀ x ∈ E, el.1 < x.1 := fun x hx => across x hx el List.mem_cons_self
  have under := high el (by simp)
  exact ⟨after er List.mem_cons_self, lt_cut under above, low er (by simp), under, above,
    (List.pairwise_cons.mp sorted).1⟩

theorem Neighbours.joined (a : Nat) : PageOk (⟨er.1, a, cut sp.high E⟩, L ++ R) := by
  obtain ⟨lower, upper, _⟩ := n.keys
  exact n.storedL.ok.join n.storedR.ok upper.le lower.le a

theorem Neighbours.reseam {k : Key} {L' R' : List Entry}
    (moves : Moves h h' [el.2, er.2, sp.node] [el.2, er.2, sp.node])
    (stL : Stored geo h' (⟨k, el.2, cut sp.high E⟩, L')) (stR : Stored geo h' (⟨er.1, er.2, k⟩, R'))
    (stP : Stored geo h' (sp, E ++ (k, el.2) :: er :: F)) :
    Neighbours geo h' root us A B Au Bu sp E F (k, el.2) er L' R' := by
  obtain ⟨_, stored, filled, spans_u, stored_u, filled_u, rest⟩ := n.tower
  have out := n.apart
  refine ⟨⟨?_, ?_, ?_, ?_, ?_, ?_⟩, ?_, n.left, n.right⟩
  · rw [floor, below_siblings, List.map_append, List.map_cons, List.map_cons, n.left, n.right]
  · intro p hp
    simp only [List.mem_append, List.mem_cons] at hp
    rcases hp with hp | rfl | rfl | hp
    · exact stored_beside (fun q hq => stored q
        (by simp [hq])) moves (fun a ha => out a (by simp [ha])) p hp
    · exact stL
    · exact stR
    · exact stored_beside (fun q hq => stored q
        (by simp [hq])) moves (fun a ha => out a (by simp [ha])) p hp
  · intro v hv p hp
    rcases List.mem_cons.mp hv with rfl | hv
    · simp only [List.mem_append, List.mem_cons] at hp
      rcases hp with hp | rfl | hp
      · exact filled _ List.mem_cons_self p (by simp [hp])
      · simpa using filled _ List.mem_cons_self (sp, E ++ el :: er :: F) (by simp)
      · exact filled _ List.mem_cons_self p (by simp [hp])
    · exact filled v (List.mem_cons_of_mem _ hv) p hp
  · simpa using spans_u
  · intro p hp
    simp only [List.mem_append, List.mem_cons] at hp
    rcases hp with hp | rfl | hp
    · exact stored_beside (fun q hq => stored_u q
        (by simp [hq])) moves (fun a ha => out a (by simp [ha])) p hp
    · exact stP
    · exact stored_beside (fun q hq => stored_u q
        (by simp [hq])) moves (fun a ha => out a (by simp [ha])) p hp
  · exact ⟨filled_u, rest.beside moves fun a ha => out a (by simp [ha])⟩
  · have nodup := n.nodup
    simp only [addrs_cons, levelAddrs_append, levelAddrs_cons] at nodup ⊢
    exact nodup

theorem Neighbours.divide {M S : List Entry} {m : Entry} (same : L ++ R = M ++ m :: S)
    (some : S ≠ [])
    (moves : Moves h h' [el.2, er.2, sp.node] [el.2, er.2, sp.node])
    (nodeL : ∃ node, h'.node el.2 = Option.some node ∧ View geo node (M ++ [m]))
    (nodeR : ∃ node, h'.node er.2 = Option.some node ∧ View geo node S)
    (nodeP : ∃ node, h'.node sp.node = Option.some node ∧
    View geo node (E ++ (m.1, el.2) :: er :: F)) :
    Neighbours geo h' root us A B Au Bu sp E F (m.1, el.2) er (M ++ [m]) S := by
  obtain ⟨lower, upper, lowP, highP, _, next⟩ := n.keys
  have joined := n.joined 0
  rw [same] at joined
  obtain ⟨okL, okR⟩ := joined.split el.2 er.2
  have live : ∀ e ∈ M ++ m :: S, e.2 ≠ 0 := by
    intro e he
    rcases List.mem_append.mp (same ▸ he) with he | he
    · exact n.storedL.live e he
    · exact n.storedR.live e he
  have inside := joined.high m (by simp)
  have okP := n.storedP.ok
  have sortedE := (List.pairwise_append.mp okP.sorted).1
  obtain ⟨s, hs⟩ := List.exists_mem_of_ne_nil S some
  have step : er.1 < m.1 := (okR.low s hs).trans_lt (WithTop.coe_lt_coe.mp (okR.high s hs))
  have above := lt_of_cut sortedE inside
  have under : cut sp.high E ≤ sp.high := cut_le _ sortedE fun e he => okP.high e (by simp [he])
  refine n.reseam moves ⟨nodeL, okL, ?_, n.storedL.addr⟩ ⟨nodeR, okR, ?_, n.storedR.addr⟩
    ⟨nodeP, ?_, ?_, n.storedP.addr⟩
  · intro e he
    apply live e
    rcases List.mem_append.mp he with he | he
    · simp [he]
    · simp [List.mem_singleton.mp he]
  · exact fun e he => live e (by simp [he])
  · apply okP.rekey el.2 above (inside.trans_le under) (lowP.trans step.le)
    intro f hf
    rcases List.mem_cons.mp hf with rfl | hf
    · exact step
    · exact (next f hf).trans step
  · intro e he
    have old := n.storedP.live
    simp only [List.mem_append, List.mem_cons] at he
    rcases he with he | rfl | rfl | he
    · exact old e (by simp [he])
    · exact old el (by simp)
    · exact old e (by simp)
    · exact old e (by simp [he])

/-- Dividing the entries anew changes neither them nor, but for more room, what lies below. -/
theorem Neighbours.divided {k : Key} {M S : List Entry} {m : Entry} (same : L ++ R = M ++ m :: S)
    (border : m.1 = k) :
    rowEntries (A ++ (⟨k, el.2, cut sp.high E⟩, M ++ [m]) :: (⟨er.1, er.2, k⟩, S) :: B) =
      rowEntries (A ++ (⟨el.1, el.2, cut sp.high E⟩, L) :: (⟨er.1, er.2, el.1⟩, R) :: B) ∧
    Looser (below (A ++ (⟨el.1, el.2, cut sp.high E⟩, L) :: (⟨er.1, er.2, el.1⟩, R) :: B))
      (below (A ++ (⟨k, el.2, cut sp.high E⟩, M ++ [m]) :: (⟨er.1, er.2, k⟩, S) :: B)) := by
  constructor
  · have entries : (M ++ [m]) ++ S = L ++
      R := by rw [same, List.append_assoc, List.singleton_append]
    simp only [rowEntries_append, rowEntries_cons]
    rw [← List.append_assoc (M ++ [m]), entries, List.append_assoc]
  · have le : (el.1 : WithTop Key) ≤ cut (cut sp.high E) L :=
      le_cut n.keys.2.1.le fun e he => WithTop.coe_le_coe.mpr (n.storedL.ok.low e he)
    have seam := spans_seam le R
    rw [same, spans_divided, border] at seam
    simp only [below_append, below_cons]
    rw [← List.append_assoc (spans _ L), ← List.append_assoc (spans _ (M ++ [m]))]
    exact .append (.refl _) (.append seam (.refl _))

theorem Divided.settled {height l r : Nat}
    (divided : Divided geo h' root us A B Au Bu sp E F el er (L ++ R) l r)
    (wide : ∀ p, p ∈ A ∨ p ∈ B → 2 ≤ p.2.length) (tall : height + 1 = level + (us.length + 2))
    (moves : Moves h h' [el.2, er.2, sp.node] [el.2, er.2, sp.node]) (left : 2 ≤ l)
    (right : 2 ≤ r) :
    ∃ M m S, Settled geo h level (A ++
      (⟨el.1, el.2, cut sp.high E⟩, L) :: (⟨er.1, er.2, el.1⟩, R) :: B)
      ((Au ++ (sp, E ++ el :: er :: F) :: Bu) :: us) ⟨root, height, h'⟩
      (A ++ (⟨m.1, el.2, cut sp.high E⟩, M ++ [m]) :: (⟨er.1, er.2, m.1⟩, S) :: B)
      ((Au ++ (sp, E ++ (m.1, el.2) :: er :: F) :: Bu) :: us) ∧ (M ++ [m]).length = l ∧
          S.length = r := by
  obtain ⟨M, m, S, same, lengthL, lengthR, n'⟩ := divided
  obtain ⟨entries, looser⟩ := n.divided same rfl
  refine ⟨M, m, S, ⟨⟨n'.tower, n'.nodup, ?_⟩, ?_, entries, looser, ?_⟩, lengthL, lengthR⟩
  · simpa using tall
  · intro _ p hp
    simp only [List.mem_append, List.mem_cons] at hp
    rcases hp with hp | rfl | rfl | hp
    · exact wide p (.inl hp)
    · dsimp only
      omega
    · dsimp only
      omega
    · exact wide p (.inr hp)
  · refine (moves.widen ?_).perm (fun a => Iff.rfl) (fun a => by simp)
    intro a ha
    simp only [List.mem_cons, List.not_mem_nil, or_false] at ha
    simp only [addrs_cons, levelAddrs_append, levelAddrs_cons, List.mem_append, List.mem_cons]
    rcases ha with rfl | rfl | rfl
    · simp
    · simp
    · simp

theorem Neighbours.stealL {i : Nat} (pos : 0 < i) (less : i < L.length)
    (room : R.length + i ≤ geo.noPairs) :
    ∃ h', Btree.stealL geo h el.2 L.length er.2 R.length sp.node E.length i = .ok h' ∧
      Moves h h' [el.2, er.2, sp.node] [el.2, er.2, sp.node] ∧
      Divided geo h' root us A B Au Bu sp E F el er (L ++ R) (L.length - i) (R.length + i) := by
  obtain ⟨lr, lp, rp⟩ := n.distinct
  obtain ⟨l, hl, viewL⟩ := n.storedL.node
  obtain ⟨r, hr, viewR⟩ := n.storedR.node
  obtain ⟨p, hp, viewP⟩ := n.storedP.node
  dsimp only at hl hr hp viewL viewR viewP
  -- the entries that stay, the last of them giving the new border, and those that go
  obtain ⟨M, m, T, rfl, rest⟩ : ∃ M m T, L = M ++ [m] ++ T ∧ T.length = i := by
    have taken : L.take (L.length - i) ≠ [] := by
      apply List.ne_nil_of_length_pos
      rw [List.length_take]
      omega
    obtain ⟨M, m, last⟩ := (List.eq_nil_or_concat _).resolve_left taken
    rw [List.concat_eq_append] at last
    refine ⟨M, m, L.drop (L.length - i), ?_, ?_⟩
    · rw [← last, List.take_append_drop]
    · rw [List.length_drop]
      omega
  have some : T ≠ [] := List.ne_nil_of_length_pos (by omega)
  have stay : (M ++ [m] ++ T).length - i = (M ++ [m]).length := by
    rw [List.length_append]
    omega
  have border : bkey geo l ((M ++ [m]).length - 1) = m.1 := by
    have view := viewL
    rw [List.append_assoc] at view
    rw [List.length_append, List.length_singleton, Nat.add_sub_cancel]
    exact view.key_at
  have len : m.1.length = geo.keylen := by rw [← border, bkey_length]
  have run : Btree.stealL geo h el.2 (M ++ [m] ++ T).length er.2 R.length sp.node E.length i =
      .ok (((h.put er.2 (copyPairs geo (shiftUp geo r T.length 0 R.length) 0 l (M ++
        [m]).length T.length)).put
        sp.node (setkeyb geo p m.1 E.length)).put el.2
            (clearPairs geo l (M ++ [m]).length T.length)) := by
    unfold Btree.stealL
    rw [get_ok hl, get_ok hr, get_ok hp]
    simp only [bind, Except.bind]
    rw [if_neg (by omega), stay, border, rest]
    rfl
  obtain ⟨nodeR, nodeP, nodeL⟩ := put_three h rp lr.symm lp.symm
    (copyPairs geo (shiftUp geo r T.length 0 R.length) 0 l (M ++ [m]).length T.length)
    (setkeyb geo p m.1 E.length) (clearPairs geo l (M ++ [m]).length T.length)
  have moves := moves_three h (X := [el.2, er.2, sp.node])
    (List.mem_cons_of_mem _ List.mem_cons_self)
    (List.mem_cons_of_mem _ (List.mem_cons_of_mem _ List.mem_cons_self)) List.mem_cons_self
    (copyPairs geo (shiftUp geo r T.length 0 R.length) 0 l (M ++ [m]).length T.length)
    (setkeyb geo p m.1 E.length) (clearPairs geo l (M ++ [m]).length T.length)
  have roomT : (T ++ R).length ≤ geo.noPairs := by
    rw [List.length_append]
    omega
  refine ⟨_, run, moves, M, m, T ++ R, by simp, stay.symm, ?_, ?_⟩
  · rw [List.length_append]
    omega
  · exact n.divide (by simp) (by simp [some]) moves ⟨_, nodeL, viewL.dropRight⟩
      ⟨_, nodeR, viewR.prepend viewL roomT some⟩ ⟨_, nodeP, viewP.setkeyb len⟩

theorem Neighbours.stealR {i : Nat} (pos : 0 < i) (less : i < R.length)
    (room : L.length + i ≤ geo.noPairs) :
    ∃ h', Btree.stealR geo h el.2 L.length er.2 R.length sp.node E.length i = .ok h' ∧
      Moves h h' [el.2, er.2, sp.node] [el.2, er.2, sp.node] ∧
      Divided geo h' root us A B Au Bu sp E F el er (L ++ R) (L.length + i) (R.length - i) := by
  obtain ⟨lr, lp, rp⟩ := n.distinct
  obtain ⟨l, hl, viewL⟩ := n.storedL.node
  obtain ⟨r, hr, viewR⟩ := n.storedR.node
  obtain ⟨p, hp, viewP⟩ := n.storedP.node
  dsimp only at hl hr hp viewL viewR viewP
  -- the entries that go, the last of them giving the new border, and those that stay
  obtain ⟨M, m, S, rfl, size⟩ : ∃ M m S, R = M ++ [m] ++ S ∧ (M ++ [m]).length = i := by
    have taken : R.take i ≠ [] := by
      apply List.ne_nil_of_length_pos
      rw [List.length_take]
      omega
    obtain ⟨M, m, last⟩ := (List.eq_nil_or_concat _).resolve_left taken
    rw [List.concat_eq_append] at last
    refine ⟨M, m, R.drop i, ?_, ?_⟩
    · rw [← last, List.take_append_drop]
    · rw [← last, List.length_take]
      omega
  have stay : (M ++ [m] ++ S).length - i = S.length := by
    rw [List.length_append]
    omega
  have some : S ≠ [] := List.ne_nil_of_length_pos (by omega)
  have border : bkey geo r ((M ++ [m]).length - 1) = m.1 := by
    have view := viewR
    rw [List.append_assoc] at view
    rw [List.length_append, List.length_singleton, Nat.add_sub_cancel]
    exact view.key_at
  have len : m.1.length = geo.keylen := by rw [← border, bkey_length]
  have run : Btree.stealR geo h el.2 L.length er.2 (M ++ [m] ++ S).length sp.node E.length i =
      .ok (((h.put el.2 (copyPairs geo l L.length r 0 (M ++ [m]).length)).put
        sp.node (setkeyb geo p m.1 E.length)).put er.2
        (clearPairs geo (shiftDown geo r 0 (M ++ [m]).length S.length) S.length (M ++
            [m]).length)) := by
    unfold Btree.stealR
    rw [get_ok hl, get_ok hr, get_ok hp]
    simp only [bind, Except.bind]
    rw [if_neg (by omega), stay, ← size, border]
    rfl
  obtain ⟨nodeL, nodeP, nodeR⟩ := put_three h lp lr rp.symm
    (copyPairs geo l L.length r 0 (M ++ [m]).length) (setkeyb geo p m.1 E.length)
    (clearPairs geo (shiftDown geo r 0 (M ++ [m]).length S.length) S.length (M ++ [m]).length)
  have moves := moves_three h (X := [el.2, er.2, sp.node]) List.mem_cons_self
    (List.mem_cons_of_mem _ (List.mem_cons_of_mem _ List.mem_cons_self))
    (List.mem_cons_of_mem _ List.mem_cons_self)
    (copyPairs geo l L.length r 0 (M ++ [m]).length) (setkeyb geo p m.1 E.length)
    (clearPairs geo (shiftDown geo r 0 (M ++ [m]).length S.length) S.length (M ++ [m]).length)
  have roomL : (L ++ (M ++ [m])).length ≤ geo.noPairs := by
    rw [List.length_append]
    omega
  have viewL' : View geo (copyPairs geo l L.length r 0 (M ++ [m]).length) (L ++ M ++ [m]) := by
    have copied := viewL.copy (A := []) (M := M ++ [m]) (B := S) viewR roomL
    rwa [← List.append_assoc] at copied
  refine ⟨_, run, moves, L ++ M, m, S, by simp, ?_, stay.symm, ?_⟩
  · rw [List.append_assoc, List.length_append, size]
  · exact n.divide (by simp) some moves ⟨_, nodeL, viewL'⟩ ⟨_, nodeR, viewR.dropLeft (by simp)⟩
      ⟨_, nodeP, viewP.setkeyb len⟩

end Neighbours
/-! ### The neighbours that the parent names -/

section Parent
variable {t : Tree} {level : Nat} {s : Span Key Nat} {es : List Entry} {u : Level} {key : Key}
    {us' : List Level}
  (parent : Parent geo t level A s es B u us key h' us' Au sp E F Bu)
include parent

theorem Parent.neighbourL (more : E ≠ []) :
    ∃ A' L E' el, A = A' ++ [(⟨el.1, el.2, cut sp.high E'⟩, L)] ∧ E = E' ++ [el] ∧ s.high = el.1 ∧
      A ++ (s, es) :: B = A' ++ (⟨el.1, el.2, cut sp.high E'⟩, L) ::
        (⟨(s.low, s.node).1, (s.low, s.node).2, el.1⟩, es) :: B ∧
      u = Au ++ (sp, E' ++ el :: (s.low, s.node) :: F) :: Bu ∧
      Neighbours geo h' t.node us' A' B Au Bu sp E' F el (s.low, s.node) L es := by
  obtain ⟨rfl, bound, left, right, _, standing, _, _, _⟩ := parent
  obtain ⟨E', el, rfl⟩ := (List.eq_nil_or_concat E).resolve_left more
  rw [List.concat_eq_append] at *
  rw [cut_last] at bound
  rw [spans_append, ← List.append_assoc] at left
  obtain ⟨A', last, rfl, hA, hlast⟩ := List.map_eq_append_iff.mp left
  obtain ⟨p, rfl, hp⟩ := List.map_eq_singleton_iff.mp hlast
  obtain ⟨sl, L⟩ := p
  dsimp only at hp
  subst hp
  obtain ⟨lowS, a, _⟩ := s
  dsimp only at bound
  subst bound
  refine ⟨A', L, E', el, rfl, rfl, rfl, ?_, ?_, ⟨?_, ?_, hA, right⟩⟩
  · rw [List.append_assoc]
    rfl
  · rw [List.append_assoc]
    rfl
  · have tower := standing.tower
    simpa using tower
  · have nodup := standing.nodup
    simpa using nodup

theorem Parent.neighbourR (more : F ≠ []) :
    ∃ R B' er F', B = (⟨er.1, er.2, s.low⟩, R) :: B' ∧ F = er :: F' ∧
      A ++ (s, es) :: B = A ++ (⟨(s.low, s.node).1, (s.low, s.node).2, cut sp.high E⟩, es) ::
        (⟨er.1, er.2, (s.low, s.node).1⟩, R) :: B' ∧
      Neighbours geo h' t.node us' A B' Au Bu sp E F' (s.low, s.node) er es R := by
  obtain ⟨rfl, bound, left, right, _, standing, _, _, _⟩ := parent
  obtain ⟨er, F', rfl⟩ := List.exists_cons_of_ne_nil more
  obtain ⟨p, B', rfl, hp, hB⟩ := List.map_eq_cons_iff.mp right
  obtain ⟨sr, R⟩ := p
  dsimp only at hp
  subst hp
  obtain ⟨lowS, a, _⟩ := s
  dsimp only at bound
  subst bound
  exact ⟨R, B', er, F', rfl, rfl, rfl, ⟨standing.tower, standing.nodup, left, hB⟩⟩

theorem Parent.position (len : key.length = geo.keylen) (low : s.low ≤ key) :
    ∃ p, h'.node sp.node = some p ∧ View geo p (E ++ (s.low, s.node) :: F) ∧
      (∀ e ∈ E ++ (s.low, s.node) :: F, e.2 ≠ 0) ∧ getpos geo p key = E.length ∧
      pairVal geo p E.length = .ok s.node := by
  obtain ⟨rfl, _, _, _, above, standing, _, _, _⟩ := parent
  have page := standing.tower.2.2.2.2.1 (sp, E ++ (s.low, s.node) :: F) (by simp)
  obtain ⟨p, here, view⟩ := page.node
  have rest : ∀ e ∈ (s.low, s.node) :: F, e.1 ≤ key := by
    intro e he
    obtain ⟨after, _⟩ := List.pairwise_cons.mp (List.pairwise_append.mp page.ok.sorted).2.1
    rcases List.mem_cons.mp he with rfl | he
    · exact low
    · exact (after e he).le.trans low
  refine ⟨p, here, view, page.live, view.getpos len above rest, ?_⟩
  exact view.pairVal

end Parent
end Btree
