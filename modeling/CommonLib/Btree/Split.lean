import CommonLib.Btree.Siblings

/- An entry put into a node with room, and a full node split beside the levels that take the
   new one. -/
namespace Btree
open OrderedTree
variable {geo : Geo} {mem : Calloc} {us : List Level} {key : Key} {level : Nat}

/-! ### A node with room -/

structure Inserted (geo : Geo) (h : Heap) (level : Nat) (r : Level) (us : List Level) (key : Key)
    (val : Nat)
    (t' : Tree) (r' : Level) (us' : List Level) : Prop where
  standing : Standing geo t' level (r' :: us')
  wide : Wide r' us'
  entries : ∃ P Q, rowEntries r = P ++ Q ∧ rowEntries r' = P ++ (key, val) :: Q
  parted : Parted key val (below r) (below r')
  moves : Moves h t'.heap (addrs (r :: us)) (addrs (r' :: us'))

theorem insert_here {t : Tree} {A B : Level} {s : Span Key Nat} {E F : List Entry} {val : Nat}
    {node : Node}
    (st : Standing geo t level ((A ++ (s, E ++ F) :: B) :: us))
    (wide : Wide (A ++ (s, E ++ F) :: B) us)
    (view : View geo node (E ++ F)) (len : key.length = geo.keylen) (live : val ≠ 0)
    (low : s.low ≤ key)
    (high : (key : WithTop Key) < s.high) (above : ∀ e ∈ E, key < e.1) (next : ∀ e ∈ F, e.1 < key)
    (room : (E ++ F).length < geo.noPairs) :
    Inserted geo t.heap level (A ++ (s, E ++ F) :: B) us key val
      { t with heap := t.heap.put s.node (setval geo (setkeyb geo (shiftUp geo node (E.length + 1) E.length
        F.length) key E.length) val E.length) } (A ++ (s, E ++ (key, val) :: F) :: B) us := by
  have moves := Moves.put t.heap (X := [s.node]) List.mem_cons_self (setval geo (setkeyb geo
    (shiftUp geo node (E.length + 1) E.length F.length) key E.length) val E.length)
  have old := st.tower.2.1 (s, E ++ F) (by simp)
  have st' : Stored geo (t.heap.put s.node
    (setval geo (setkeyb geo (shiftUp geo node (E.length + 1) E.length
      F.length) key E.length) val E.length)) (s, E ++ (key, val) :: F) := by
    refine ⟨⟨_, Function.update_self _ _ _, view.insert (e := (key, val)) room len⟩,
      old.ok.insert val above high low next, ?_, old.addr⟩
    intro e he
    simp only [List.mem_append, List.mem_cons] at he
    rcases he with he | rfl | he
    · exact old.live e (by simp [he])
    · exact live
    · exact old.live e (by simp [he])
  refine ⟨⟨st.tower.write st.nodup moves st', ?_, st.height⟩, ?_, ?_, ?_, ?_⟩
  · simpa using st.nodup
  · intro some p hp
    rcases List.mem_append.mp hp with hp | hp
    · exact wide some p (by simp [hp])
    · rcases List.mem_cons.mp hp with rfl | hp
      · have two := wide some (s, E ++ F) (by simp)
        simp only [List.length_append, List.length_cons] at two ⊢
        omega
      · exact wide some p (by simp [hp])
  · exact ⟨rowEntries A ++ E, F ++ rowEntries B, by simp, by simp⟩
  · apply Parted.insert val _ (fun p hp => (st.tower.2.1 p hp).ok) low high above next
    rw [st.tower.1]
    exact Tower.apart st.tower.2.2.2
  · refine (moves.widen ?_).perm (fun a => Iff.rfl) (fun a => by simp)
    simp

/-! ### A pass through `retry` -/

section Pass
variable (mem) (insertLevel : Inserting) (val n : Nat) {t : Tree} {h1 : Heap} {a : Nat}
    {node : Node}
  {E F : List Entry}
  (run : findLevel geo t key level = .ok ({ t with heap := h1 }, a)) (here : h1.node a = some node)
  (view : View geo node (E ++ F)) (live : ∀ e ∈ E ++ F, e.2 ≠ 0) (len : key.length = geo.keylen)
  (above : ∀ e ∈ E, key < e.1) (next : ∀ e ∈ F, e.1 < key)
include run here view live len above next

theorem insertRetry_pass :
    insertRetry geo mem insertLevel key val level (n + 1) t =
      if (E ++ F).length = geo.noPairs then
        rebalanceInsert geo mem insertLevel { t with heap := h1 } key a level >>= fun p =>
          match p with
          | (t, .error e) => .ok (t, .error e)
          | (t, .ok ()) => insertRetry geo mem insertLevel key val level n t
      else .ok ({ t with heap := h1.put a (setval geo (setkeyb geo (shiftUp geo node (E.length + 1) E.length
        F.length) key E.length) val E.length) }, .ok ()) := by
  have pos := view.getpos len above fun e he => (next e he).le
  have fill := view.getfill live (show E.length ≤ (E ++ F).length by simp)
  have other : ¬ (E.length < (E ++ F).length ∧ keycmp geo node E.length key = 0) := by
    rintro ⟨less, same⟩
    cases F with
    | nil =>
      rw [List.append_nil] at less
      exact lt_irrefl _ less
    | cons e F =>
      rw [keycmp_zero node E.length len, view.key_at] at same
      exact absurd same (next e List.mem_cons_self).ne
  rw [insertRetry, run]
  simp only [bind, Except.bind]
  rw [get_ok here]
  simp only [pos, fill]
  rw [if_neg other]
  split
  · rfl
  · rw [List.length_append, Nat.add_sub_cancel_left]
    rfl

theorem insertRetry_room (room : (E ++ F).length < geo.noPairs) :
    insertRetry geo mem insertLevel key val level (n + 1) t =
      .ok ({ t with heap := h1.put a (setval geo (setkeyb geo (shiftUp geo node (E.length + 1) E.length
        F.length) key E.length) val E.length) }, .ok ()) := by
  rw [insertRetry_pass mem insertLevel val n run here view live len above next, if_neg room.ne]

theorem insertRetry_full (full : (E ++ F).length = geo.noPairs) {t2 : Tree}
    (made : rebalanceInsert geo mem insertLevel { t with heap := h1 } key a level =
    .ok (t2, .ok ())) :
    insertRetry geo mem insertLevel key val level (n + 1) t =
      insertRetry geo mem insertLevel key val level n t2 := by
  rw [insertRetry_pass mem insertLevel val n run here view live len above next, if_pos full, made]
  rfl

theorem insertRetry_refused (full : (E ++ F).length = geo.noPairs) {t2 : Tree} {e : Errno}
    (made : rebalanceInsert geo mem insertLevel { t with heap := h1 } key a level =
    .ok (t2, .error e)) :
    insertRetry geo mem insertLevel key val level (n + 1) t = .ok (t2, .error e) := by
  rw [insertRetry_pass mem insertLevel val n run here view live len above next, if_pos full, made]
  rfl

end Pass

/-! ### Room for the key -/

structure Relieved (geo : Geo) (h : Heap) (level : Nat) (r : Level) (us : List Level) (key : Key)
    (t' : Tree)
    (r' : Level) (us' : List Level) : Prop extends Settled geo h level r us t' r' us' where
  room : ∃ A s es B, r' = A ++ (s, es) :: B ∧ (s.low ≤ key ∨ B = []) ∧
    (key : WithTop Key) < s.high ∧
    es.length < geo.noPairs

theorem Divided.relieved {h h' : Heap} {root height : Nat} {A B Au Bu : Level} {sp : Span Key Nat}
    {E F L R : List Entry} {el er : Entry} {l r : Nat}
    (n : Neighbours geo h root us A B Au Bu sp E F el er L R)
    (wide : ∀ p, p ∈ A ∨ p ∈ B → 2 ≤ p.2.length)
    (tall : height + 1 = level + (us.length + 2))
    (moves : Moves h h' [el.2, er.2, sp.node] [el.2, er.2, sp.node])
    (divided : Divided geo h' root us A B Au Bu sp E F el er (L ++ R) l r)
    (low : er.1 ≤ key) (high : (key : WithTop Key) < cut sp.high E) (left : 2 ≤ l ∧ l < geo.noPairs)
    (right : 2 ≤ r ∧ r < geo.noPairs) :
    ∃ r' us', Relieved geo h level
      (A ++ (⟨el.1, el.2, cut sp.high E⟩, L) :: (⟨er.1, er.2, el.1⟩, R) :: B)
      ((Au ++ (sp, E ++ el :: er :: F) :: Bu) :: us) key ⟨root, height, h'⟩ r' us' := by
  obtain ⟨M, m, S, settled, lengthL, lengthR⟩ := divided.settled n wide tall moves left.1 right.1
  refine ⟨_, _, settled, ?_⟩
  by_cases below_ : key < m.1
  · refine ⟨A ++ [(⟨m.1, el.2, cut sp.high E⟩, M ++ [m])], ⟨er.1, er.2, m.1⟩, S, B,
      by simp, .inl low, ?_, ?_⟩
    · exact WithTop.coe_lt_coe.mpr below_
    · omega
  · exact ⟨A, _, M ++ [m], _, rfl, .inl (not_lt.mp below_), high, by omega⟩

/-! ### Splitting -/

structure Admits (geo : Geo) (h : Heap) (level : Nat) (us : List Level) (A B : Level)
    (s : Span Key Nat)
    (k : Key) (new : Nat) (M : List Entry) (t2 : Tree) (us2 : List Level) : Prop where
  standing : Standing geo t2 (level + 1) us2
  filled : Filled us2
  floor : ∃ S high low T, floor geo t2.node us2 = S ++ ⟨k, new, high⟩ :: ⟨low, s.node, k⟩ :: T ∧
    Looser (A.map Prod.fst) S ∧ s.high ≤ high ∧ (low ≤ s.low ∨ T = []) ∧ (∀ e ∈ M, low ≤ e.1) ∧
    Looser (B.map Prod.fst) T
  moves : Moves h t2.heap (addrs us) (addrs us2)

section Run
variable {insertLevel : Inserting} {t t2 : Tree} {a new : Nat} {node : Node} {L M : List Entry}
    {m : Entry}
  (given : mem.addr t.heap = some new) (here : t.heap.node a = some node) (ne : a ≠ new)
  (view : View geo node (L ++ m :: M)) (half : (L ++ [m]).length = geo.noPairs / 2)
include given here ne view half

theorem split_start :
    split geo mem insertLevel t a level =
      insertLevel { t with heap := t.heap.put new fun _ => 0 } m.1 new (level + 1) >>= fun p =>
        match p with
        | (t, .error e) => do
          let heap ← t.heap.free new
          return ({ t with heap := heap }, .error e)
        | (t, .ok ()) => do
          let new' ← t.heap.get new
          let old ← t.heap.get a
          let parts := splitLoop geo (L ++ [m]).length new' old 0 (L ++ [m]).length
          return ({ t with heap := (t.heap.put new parts.1).put a (splitRest geo parts.2) },
              .ok ()) := by
  have border : bkey geo node (geo.noPairs / 2 - 1) = m.1 := by
    rw [← half, List.length_append, List.length_singleton, Nat.add_sub_cancel]
    exact view.key_at
  have found : (t.heap.put new fun _ => 0).node a = some node := by
    rw [put_node, Function.update_of_ne ne]
    exact here
  unfold split btreeNodeAlloc
  rw [given]
  simp only [Option.map_some, bind, Except.bind]
  rw [get_ok found, half]
  simp only [border]
  rfl

theorem split_run
    (up : insertLevel { t with heap := t.heap.put new fun _ => 0 } m.1 new (level + 1) =
    .ok (t2, .ok ()))
    (hereN : t2.heap.node new = some fun _ => 0) (here2 : t2.heap.node a = some node) :
    split geo mem insertLevel t a level =
      .ok ({ t2 with heap := (t2.heap.put new (splitLoop geo (L ++ [m]).length (fun _ => 0) node 0
        (L ++ [m]).length).1).put a (splitRest geo (splitLoop geo (L ++ [m]).length
        (fun _ => 0) node 0
        (L ++ [m]).length).2) }, .ok ()) := by
  rw [split_start given here ne view half, up]
  simp only [bind, Except.bind]
  rw [get_ok hereN, get_ok here2]
  rfl

theorem split_refused {e : Errno}
    (up : insertLevel { t with heap := t.heap.put new fun _ => 0 } m.1 new (level + 1) =
    .ok (t2, .error e)) (live : t2.heap.node new ≠ none) :
    split geo mem insertLevel t a level = .ok ({ t2 with heap := t2.heap.drop new }, .error e) := by
  rw [split_start given here ne view half, up]
  simp only [bind, Except.bind]
  rw [free_ok live]
  rfl

end Run

theorem Remains.freed {h : Heap} {new : Nat} {X : List Nat} {S : List (Span Key Nat)} {t2 : Tree}
    {ws : List Level} (remains : Remains geo (h.put new fun _ => 0) level X S t2 ws)
    (fresh : h.node new = none)
    (out : new ∉ X) : Remains geo h level X S { t2 with heap := t2.heap.drop new } ws := by
  obtain ⟨outN, _⟩ := remains.moves.beside (a := new) (by simp) out
  have freed := Moves.freed t2.heap new (addrs ws)
  refine ⟨?_, remains.filled, remains.looser, ?_⟩
  · exact remains.standing.beside (Moves.freed t2.heap new []) fun a ha mem =>
      outN (List.mem_singleton.mp mem ▸ ha)
  · have taken := Moves.take fresh X fun _ => 0
    have raised := remains.moves.frame [new]
    exact (taken.trans raised).trans freed

/-- The parts of a node that is split, beside the levels that admit the new node. -/
theorem split_made {insertLevel : Inserting} {t t2 : Tree} {A B : Level} {s : Span Key Nat}
    {L M : List Entry}
    {m : Entry} {new : Nat} {us2 : List Level} (given : mem.addr t.heap = some new)
    (st : Standing geo t level ((A ++ (s, L ++ m :: M) :: B) :: us))
    (wide : ∀ p, p ∈ A ∨ p ∈ B → 2 ≤ p.2.length) (full : (L ++ m :: M).length = geo.noPairs)
    (half : (L ++ [m]).length = geo.noPairs / 2) (low : s.low ≤ key)
    (high : (key : WithTop Key) < s.high)
    (made : insertLevel { t with heap := t.heap.put new fun _ => 0 } m.1 new (level + 1) =
    .ok (t2, .ok ()))
    (admits : Admits geo (t.heap.put new fun _ => 0) level us A B s m.1 new M t2 us2) :
    ∃ t' r' us', split geo mem insertLevel t s.node level = .ok (t', .ok ()) ∧
      Relieved geo t.heap level (A ++ (s, L ++ m :: M) :: B) us key t' r' us' := by
  have four := geo.four
  obtain ⟨nonzero, fresh⟩ := mem.fresh t.heap new given
  have sizes : (L ++ [m]).length + M.length = geo.noPairs := by
    rw [← full]
    simp
    omega
  obtain ⟨S, bound, least, T, floor_, left, le_high, lowS, lowM, right⟩ := admits.floor
  obtain ⟨A', hungA, rfl⟩ := rehang left
  obtain ⟨B', hungB, rfl⟩ := rehang right
  obtain ⟨_, stored, _, tower⟩ := st.tower
  have page := stored (s, L ++ m :: M) (by simp)
  obtain ⟨node, here, view⟩ := page.node
  -- what the levels above do not concern: the node, its neighbours and the new node
  have nodup := st.nodup
  simp only [addrs_cons, levelAddrs_append, levelAddrs_cons] at nodup
  have alive : ∀ a, a ∈ levelAddrs A ∨ a = s.node ∨ a ∈ levelAddrs B → t.heap.node a ≠ none := by
    intro a ha
    simp only [levelAddrs, List.mem_map] at ha
    rcases ha with ⟨p, hp, rfl⟩ | rfl | ⟨p, hp, rfl⟩
    · exact (stored p (by simp [hp])).live_node
    · exact page.live_node
    · exact (stored p (by simp [hp])).live_node
  have apart : ∀ a, a ∈ levelAddrs A ∨ a = s.node ∨ a ∈ levelAddrs B → a ∉ addrs us ∧ a ≠ new := by
    intro a ha
    constructor
    · intro mem
      exact (List.nodup_append.mp nodup).2.2 a (by simpa using ha) a mem rfl
    · rintro rfl
      exact alive a ha fresh
  have aboveN : new ∉ addrs us := fun mem => tower.live mem fresh
  have kept : ∀ a, a ∈ levelAddrs A ∨ a = s.node ∨ a ∈ levelAddrs B →
      a ∉ addrs us2 ∧ t2.heap.node a = t.heap.node a := by
    intro a ha
    obtain ⟨out, other⟩ := apart a ha
    have same : (t.heap.put new fun _ => 0).node a = t.heap.node a := by
      rw [put_node, Function.update_of_ne other]
    have after := admits.moves.beside (same ▸ alive a ha) out
    rw [same] at after
    exact after
  obtain ⟨outN, hereN⟩ := admits.moves.beside (a := new) (by simp) aboveN
  rw [put_node, Function.update_self] at hereN
  obtain ⟨outA, hereA⟩ := kept s.node (.inr (.inl rfl))
  have ne := (apart s.node (.inr (.inl rfl))).2
  have run := split_run given here ne view half made hereN (hereA.trans here)
  have moves3 := (Moves.put t2.heap (X := [new, s.node]) List.mem_cons_self
    (splitLoop geo (L ++ [m]).length (fun _ => 0) node 0 (L ++ [m]).length).1).trans (Moves.put _
    (List.mem_cons_of_mem _ List.mem_cons_self)
    (splitRest geo (splitLoop geo (L ++ [m]).length (fun _ => 0) node 0 (L ++ [m]).length).2))
  have storedA : ∀ p, p ∈ A ∨ p ∈ B → Stored geo ((t2.heap.put new
      (splitLoop geo (L ++ [m]).length (fun _ => 0) node 0 (L ++ [m]).length).1).put s.node
      (splitRest geo (splitLoop geo (L ++ [m]).length (fun _ => 0) node 0 (L ++ [m]).length).2))
          p := by
    intro p hp
    have mem : p.1.node ∈ levelAddrs A ∨ p.1.node = s.node ∨ p.1.node ∈ levelAddrs B := by
      rcases hp with hp | hp
      · exact .inl (List.mem_map_of_mem hp)
      · exact .inr (.inr (List.mem_map_of_mem hp))
    have st_p := stored p (by rcases hp with hp | hp <;> simp [hp])
    have other : p.1.node ≠ s.node := by
      have once := (List.nodup_append.mp nodup).1
      rw [List.nodup_append] at once
      simp only [List.nodup_cons, List.mem_cons] at once
      rcases hp with hp | hp
      · exact once.2.2 _ (List.mem_map_of_mem hp) _ (.inl rfl)
      · rintro same
        exact once.2.1.1 (same ▸ List.mem_map_of_mem hp)
    apply st_p.congr
    rw [put_node, Function.update_of_ne other, put_node, Function.update_of_ne (apart _ mem).2]
    exact (kept _ mem).2
  have nodeN : ((t2.heap.put new
      (splitLoop geo (L ++ [m]).length (fun _ => 0) node 0 (L ++ [m]).length).1).put s.node
      (splitRest geo (splitLoop geo (L ++ [m]).length (fun _ => 0) node 0 (L ++
      [m]).length).2)).node new =
      some (splitLoop geo (L ++ [m]).length (fun _ => 0) node 0 (L ++ [m]).length).1 := by
    rw [put_node, Function.update_of_ne ne.symm, put_node, Function.update_self]
  have viewS : View geo node ((L ++ [m]) ++ M) := by
    rw [← List.append_cons]
    exact view
  obtain ⟨okL, okM⟩ := page.ok.split new s.node
  have outRow : ∀ a, a ∈ levelAddrs A ∨ a ∈ levelAddrs B → a ∉ addrs us2 := fun a ha =>
    (kept a (by rcases ha with ha | ha <;> simp [ha])).1
  refine ⟨_, A' ++ (⟨m.1, new, bound⟩, L ++ [m]) :: (⟨least, s.node, m.1⟩, M) :: B', us2, run,
    ⟨⟨⟨?_, ?_, admits.filled, admits.standing.tower.beside moves3 ?_⟩, ?_, ?_⟩, ?_, ?_, ?_, ?_⟩, ?_⟩
  · rw [floor_]
    simp
  · intro p hp
    simp only [List.mem_append, List.mem_cons] at hp
    rcases hp with hp | rfl | rfl | hp
    · exact rehung_stored hungA (fun q hq => storedA q (.inl hq)) p hp
    · refine ⟨⟨_, nodeN, viewS.splitNew (by omega)⟩, ⟨okL.sorted, okL.low, ?_⟩, ?_, nonzero⟩
      · exact fun e he => (okL.high e he).trans_le le_high
      · exact fun e he => page.live e (by simp at he ⊢; grind)
    · refine ⟨⟨_, Function.update_self _ _ _, viewS.splitOld _ half (by simpa using full)⟩,
        ⟨okM.sorted, lowM, okM.high⟩, ?_, page.addr⟩
      exact fun e he => page.live e (by simp [he])
    · exact rehung_stored hungB (fun q hq => storedA q (.inr hq)) p hp
  · intro a ha mem
    simp only [List.mem_cons, List.not_mem_nil, or_false] at mem
    rcases mem with rfl | rfl
    · exact outN ha
    · exact outA ha
  · have once := admits.standing.nodup
    simp only [addrs_cons, levelAddrs_append, levelAddrs_cons, rehung_addrs hungA,
      rehung_addrs hungB,
      List.nodup_append, List.nodup_cons, List.mem_append, List.mem_cons] at nodup ⊢
    grind
  · have height := admits.standing.height
    rw [List.length_cons]
    dsimp only
    omega
  · intro _ p hp
    simp only [List.mem_append, List.mem_cons] at hp
    rcases hp with hp | rfl | rfl | hp
    · obtain ⟨q, hq, same, _⟩ := hungA.page hp
      rw [same]
      exact wide q (.inl hq)
    · dsimp only
      omega
    · dsimp only
      omega
    · obtain ⟨q, hq, same, _⟩ := hungB.page hp
      rw [same]
      exact wide q (.inr hq)
  · simp only [rowEntries_append, rowEntries_cons, hungA.entries, hungB.entries]
    simp
  · simp only [below_append, below_cons]
    rw [spans_divided, List.append_assoc (spans _ _)]
    exact .append hungA.below (.append (spans_looser le_high _) (.append (.refl _) hungB.below))
  · have taken := Moves.take fresh (addrs ((A ++ (s, L ++ m :: M) :: B) :: us)) fun _ => 0
    have raised := admits.moves.frame (new :: levelAddrs (A ++ (s, L ++ m :: M) :: B))
    have written := moves3.widen (Y := new :: levelAddrs (A ++ (s, L ++ m :: M) :: B) ++
      addrs us2) (by simp)
    refine ((taken.trans raised).trans written).perm (fun a => Iff.rfl) fun a => ?_
    simp only [addrs_cons, levelAddrs_append, levelAddrs_cons, rehung_addrs hungA,
      rehung_addrs hungB,
      List.mem_append, List.mem_cons]
    grind
  · by_cases under : key < m.1
    · refine ⟨A' ++ [(⟨m.1, new, bound⟩, L ++ [m])], ⟨least, s.node, m.1⟩, M, B',
        by simp, ?_, ?_, by omega⟩
      · rcases lowS with lowS | none_
        · exact .inl (lowS.trans low)
        · exact .inr (List.map_eq_nil_iff.mp none_)
      · exact WithTop.coe_lt_coe.mpr under
    · exact ⟨A', _, L ++ [m], _, rfl, .inl (not_lt.mp under), high.trans_le le_high, by omega⟩

/-- Splitting a full node, or finding no memory for it. -/
theorem split_spec {insertLevel : Inserting} {t : Tree} {A B : Level} {s : Span Key Nat}
    {es : List Entry}
    (st : Standing geo t level ((A ++ (s, es) :: B) :: us))
    (wide : ∀ p, p ∈ A ∨ p ∈ B → 2 ≤ p.2.length)
    (full : es.length = geo.noPairs) (low : s.low ≤ key) (high : (key : WithTop Key) < s.high)
    (up : ∀ new L m M, es = L ++ m :: M → M ≠ [] → new ≠ 0 → t.heap.node new = none → ∃ t2 us2,
      insertLevel { t with heap := t.heap.put new fun _ => 0 } m.1 new (level + 1) =
        .ok (t2, .ok ()) ∧
        Admits geo (t.heap.put new fun _ => 0) level us A B s m.1 new M t2 us2 ∨
      insertLevel { t with heap := t.heap.put new fun _ => 0 } m.1 new (level + 1) =
        .ok (t2, .error .ENOMEM) ∧
        mem.Refuses ∧ Remains geo (t.heap.put new fun _ => 0) (level +
          1) (addrs us) (floor geo t.node us) t2 us2) :
    Ends geo mem t.heap level (A ++ (s, es) :: B) us (split geo mem insertLevel t s.node level)
      (Relieved geo t.heap level (A ++ (s, es) :: B) us key) := by
  have four := geo.four
  have every : ∀ p ∈ A ++ (s, es) :: B, 2 ≤ p.2.length := by
    intro p hp
    simp only [List.mem_append, List.mem_cons] at hp
    rcases hp with hp | rfl | hp
    · exact wide p (.inl hp)
    · dsimp only
      omega
    · exact wide p (.inr hp)
  cases given : mem.addr t.heap with
  | none =>
    refine ⟨t, _, _, .inr ⟨?_, ⟨_, given⟩, st, fun _ => every, rfl, .refl _, .refl _ _⟩⟩
    unfold split btreeNodeAlloc
    rw [given]
    rfl
  | some new =>
    obtain ⟨nonzero, fresh⟩ := mem.fresh t.heap new given
    obtain ⟨L, m, M, rfl, half⟩ : ∃ L m M, es = L ++ m :: M ∧
        (L ++ [m]).length = geo.noPairs / 2 := by
      have taken : es.take (geo.noPairs / 2) ≠ [] := by
        apply List.ne_nil_of_length_pos
        rw [List.length_take]
        omega
      obtain ⟨L, m, last⟩ := (List.eq_nil_or_concat _).resolve_left taken
      rw [List.concat_eq_append] at last
      refine ⟨L, m, es.drop (geo.noPairs / 2), ?_, ?_⟩
      · rw [List.append_cons, ← last, List.take_append_drop]
      · rw [← last, List.length_take]
        omega
    have more : M ≠ [] := by
      apply List.ne_nil_of_length_pos
      simp only [List.length_append, List.length_cons, List.length_nil] at full half
      omega
    obtain ⟨t2, us2, ⟨made, admits⟩ | ⟨refused, none_, remains⟩⟩ :=
      up new L m M rfl more nonzero fresh
    · obtain ⟨t', r', us', run, relieved⟩ := split_made given st wide full half low high made admits
      exact ⟨t', r', us', .inl ⟨run, relieved⟩⟩
    · have page := st.tower.2.1 (s, L ++ m :: M) (by simp)
      obtain ⟨node, here, view⟩ := page.node
      have ne : s.node ≠ new := by
        rintro same
        exact page.live_node (same ▸ fresh)
      have out : new ∉ addrs us := fun mem => st.tower.2.2.2.live mem fresh
      obtain ⟨r', settled⟩ := (remains.freed fresh out).settled st fun _ => every
      have live : t2.heap.node new ≠ none := by
        rw [(remains.moves.beside (a := new) (by simp) out).2]
        simp
      exact ⟨_, r', us2, .inr ⟨split_refused given here ne view half refused live, none_, settled⟩⟩

end Btree
