import CommonLib.Btree.Siblings

/- Two neighbours merged into one: the levels above lose the entry of the right one, whose key
   goes to the left one. -/
namespace Btree
open OrderedTree
variable {geo : Geo} {us : List Level} {level : Nat}

def Lowers (geo : Geo) (level n : Nat) (removeLevel : Removing) : Prop :=
  ∀ t A B s E el er F us, us.length = n →
    Standing geo t level ((A ++ (s, E ++ el :: er :: F) :: B) :: us) →
    Filled ((A ++ (s, E ++ el :: er :: F) :: B) :: us) →
    ∃ t' ws, removeLevel t (.pair s.node E.length) level = .ok (t', el.2) ∧
      Remains geo t.heap level (addrs ((A ++ (s, E ++ el :: er :: F) :: B) :: us))
        (below (A ++ (s, E ++ er :: F) :: B)) t' ws

section Merge
variable {t : Tree} {A B Au Bu : Level} {sp : Span Key Nat} {E F L R : List Entry} {el er : Entry}
  {removeLevel : Removing}

theorem merge_run (level : Nat) {l r p : Node} {t' : Tree} {ret : Nat} (lp : el.2 ≠ sp.node)
    (hl : t.heap.node el.2 = some l) (hr : t.heap.node er.2 = some r)
    (hp : t.heap.node sp.node = some p)
    (room : L.length + R.length ≤ geo.noPairs)
    (up : removeLevel ⟨t.node, t.height,
    (t.heap.put el.2 (copyPairs geo l L.length r 0 R.length)).put sp.node
      (setval geo (setval geo p er.2 E.length) el.2 (E.length + 1))⟩ (.pair sp.node E.length)
      (level + 1) =
      .ok (t', ret)) (live : t'.heap.node er.2 ≠ none) :
    merge geo removeLevel t level el.2 L.length er.2 R.length sp.node E.length =
      .ok { t' with heap := t'.heap.drop er.2 } := by
  have parent : (t.heap.put el.2 (copyPairs geo l L.length r 0 R.length)).node sp.node =
      some p := by
    rw [put_node, Function.update_of_ne lp.symm]
    exact hp
  unfold merge
  rw [get_ok hl, get_ok hr]
  simp only [bind, Except.bind]
  rw [if_neg (by omega), get_ok parent]
  simp only [up]
  rw [free_ok live]
  rfl

theorem View.exchange {p : Node} (view : View geo p (E ++ el :: er :: F)) :
    View geo (Btree.setval geo (Btree.setval geo p er.2 E.length) el.2 (E.length + 1))
      (E ++ (el.1, er.2) :: (er.1, el.2) :: F) := by
  have first := view.setval er.2
  rw [List.append_cons] at first
  have second := first.setval el.2
  rw [List.length_append, List.length_singleton, ← List.append_cons] at second
  exact second

theorem Neighbours.exchange {h : Heap} {root : Nat} {p x : Node}
    (n : Neighbours geo h root us A B Au Bu sp E F el er L R)
    (viewP : View geo p (E ++ el :: er :: F)) :
    Tower geo ((h.put el.2 x).put sp.node
      (setval geo (setval geo p er.2 E.length) el.2 (E.length + 1))) root
      ((Au ++ (sp, E ++ (el.1, er.2) :: (er.1, el.2) :: F) :: Bu) :: us) := by
  obtain ⟨_, lp, _⟩ := n.distinct
  have nodup := n.nodup
  rw [addrs_cons] at nodup
  obtain ⟨_, nodup_u, across⟩ := List.nodup_append.mp nodup
  have moves1 := Moves.put h (X := [el.2]) List.mem_cons_self x
  have tower1 := n.tower.2.2.2.beside moves1 fun a ha mem =>
    across el.2 (by simp) a ha (List.mem_singleton.mp mem).symm
  have old := tower1.2.1 (sp, E ++ el :: er :: F) (by simp)
  refine tower1.write nodup_u (Moves.put _ List.mem_cons_self _)
    ⟨⟨_, Function.update_self _ _ _, viewP.exchange⟩, ?_, ?_, old.addr⟩
  · exact old.ok.keys (by simp)
  · intro e he
    have live := old.live
    simp only [List.mem_append, List.mem_cons] at he
    rcases he with he | rfl | rfl | he
    · exact live e (by simp [he])
    · exact live er (by simp)
    · exact live el (by simp)
    · exact live e (by simp [he])

theorem Neighbours.others {h : Heap} {root : Nat}
    (n : Neighbours geo h root us A B Au Bu sp E F el er L R)
    {a : Nat} (mem : a ∈ levelAddrs A ∨ a ∈ levelAddrs B) :
    a ≠ el.2 ∧ a ≠ er.2 ∧ a ≠ sp.node ∧ a ∉ addrs ((Au ++ (sp, E ++ el :: er :: F) :: Bu) :: us) ∧
      h.node a ≠ none := by
  have out := n.apart a (by rcases mem with mem | mem <;> simp [mem])
  simp only [List.mem_cons, List.not_mem_nil, or_false, not_or] at out
  refine ⟨out.1, out.2.1, out.2.2, ?_, ?_⟩
  · intro above
    have nodup := n.nodup
    rw [addrs_cons] at nodup
    exact (List.nodup_append.mp nodup).2.2 a
      (by rcases mem with mem | mem <;> simp [mem]) a above rfl
  · have stored := n.tower.2.1
    rcases mem with mem | mem
    · obtain ⟨p, hp, rfl⟩ := List.mem_map.mp mem
      exact (stored p (by simp [hp])).live_node
    · obtain ⟨p, hp, rfl⟩ := List.mem_map.mp mem
      exact (stored p (by simp [hp])).live_node

theorem merge_spec (n : Neighbours geo t.heap t.node us A B Au Bu sp E F el er L R)
    (lowers : Lowers geo (level + 1) us.length removeLevel)
    (tall : t.height + 1 = level + (us.length + 2))
    (wide : ∀ p, p ∈ A ∨ p ∈ B → 2 ≤ p.2.length) (room : L.length + R.length ≤ geo.noPairs)
    (two : 2 ≤ L.length + R.length) :
    ∃ t' r' us', merge geo removeLevel t level el.2 L.length er.2 R.length sp.node E.length =
      .ok t' ∧
      Settled geo t.heap level (A ++ (⟨el.1, el.2, cut sp.high E⟩,
        L) :: (⟨er.1, er.2, el.1⟩, R) :: B)
        ((Au ++ (sp, E ++ el :: er :: F) :: Bu) :: us) t' r' us' := by
  obtain ⟨lr, lp, rp⟩ := n.distinct
  obtain ⟨l, hl, viewL⟩ := n.storedL.node
  obtain ⟨r, hr, viewR⟩ := n.storedR.node
  obtain ⟨p, hp, viewP⟩ := n.storedP.node
  dsimp only at hl hr hp viewL viewR viewP
  have joined : View geo (copyPairs geo l L.length r 0 R.length) (L ++ R) := by
    have view : View geo r ([] ++ R ++ []) := by simpa using viewR
    exact viewL.copy view (by simpa using room)
  have nodup := n.nodup
  rw [addrs_cons] at nodup
  obtain ⟨nodup_r, nodup_u, across⟩ := List.nodup_append.mp nodup
  -- the levels above with the children exchanged
  generalize heap : (t.heap.put el.2 (copyPairs geo l L.length r 0 R.length)).put sp.node
    (setval geo (setval geo p er.2 E.length) el.2 (E.length + 1)) = h2
  have tower2 := n.exchange (x := copyPairs geo l L.length r 0 R.length) viewP
  rw [heap] at tower2
  have standing2 : Standing geo ⟨t.node, t.height, h2⟩ (level + 1)
      ((Au ++ (sp, E ++ (el.1, er.2) :: (er.1, el.2) :: F) :: Bu) :: us) := by
    refine ⟨tower2, ?_, ?_⟩
    · simpa using nodup_u
    · simp only [List.length_cons]
      omega
  have filled2 : Filled ((Au ++ (sp, E ++ (el.1, er.2) :: (er.1, el.2) :: F) :: Bu) :: us) := by
    have filled := n.tower.2.2.1
    intro v hv q hq
    rcases List.mem_cons.mp hv with rfl | hv
    · simp only [List.mem_append, List.mem_cons] at hq
      rcases hq with hq | rfl | hq
      · exact filled _ List.mem_cons_self q (by simp [hq])
      · simpa using filled _ List.mem_cons_self (sp, E ++ el :: er :: F) (by simp)
      · exact filled _ List.mem_cons_self q (by simp [hq])
    · exact filled v (List.mem_cons_of_mem _ hv) q hq
  obtain ⟨t', ws, up, lowered⟩ := lowers _ Au Bu sp E (el.1, er.2) (er.1,
    el.2) F us rfl standing2 filled2
  -- the spans that the levels above leave to this one
  have looser := lowered.looser
  rw [below_focus, ← n.left, ← n.right] at looser
  obtain ⟨S, T, floor_, left, rest⟩ := looser.split
  cases rest with
  | @cons _ s _ T here right =>
    obtain ⟨node, low, high⟩ := here
    obtain ⟨A', hungA, rfl⟩ := rehang left
    obtain ⟨B', hungB, rfl⟩ := rehang right
    have same2 : ∀ a, a ≠ el.2 → a ≠ sp.node → h2.node a = t.heap.node a := by
      intro a other other'
      rw [← heap, put_node, Function.update_of_ne other', put_node, Function.update_of_ne other]
    have nodeL : h2.node el.2 = some (copyPairs geo l L.length r 0 R.length) := by
      rw [← heap, put_node, Function.update_of_ne lp, put_node, Function.update_self]
    have liveR : h2.node er.2 ≠ none := by
      rw [same2 _ lr.symm rp, hr]
      exact Option.some_ne_none _
    have apart : ∀ a, a = el.2 ∨ a = er.2 →
        a ∉ addrs ((Au ++ (sp, E ++ (el.1, er.2) :: (er.1, el.2) :: F) :: Bu) :: us) := by
      intro a ha mem
      refine across a ?_ a (by simpa using mem) rfl
      rcases ha with rfl | rfl <;> simp
    obtain ⟨outL, hereL⟩ := lowered.moves.beside (nodeL ▸ Option.some_ne_none _)
      (apart el.2 (.inl rfl))
    obtain ⟨outR, hereR⟩ := lowered.moves.beside liveR (apart er.2 (.inr rfl))
    have run := merge_run level lp hl hr hp room (by rw [heap]; exact up) (hereR ▸ liveR)
    have kept : ∀ a, a ∈ levelAddrs A ∨ a ∈ levelAddrs B →
        a ∉ addrs ws ∧ (t'.heap.drop er.2).node a = t.heap.node a := by
      intro a ha
      obtain ⟨ne1, ne2, ne3, out, live⟩ := n.others ha
      have same := same2 a ne1 ne3
      obtain ⟨out', after⟩ := lowered.moves.beside (same ▸ live) (by simpa using out)
      refine ⟨out', ?_⟩
      rw [drop_node, Function.update_of_ne ne2, after, same]
    have storedA : ∀ q, q ∈ A ∨ q ∈ B → Stored geo (t'.heap.drop er.2) q := by
      intro q hq
      have mem : q.1.node ∈ levelAddrs A ∨ q.1.node ∈ levelAddrs B :=
        hq.imp (fun hq => List.mem_map_of_mem hq) fun hq => List.mem_map_of_mem hq
      exact (n.tower.2.1 q (by rcases hq with hq | hq <;> simp [hq])).congr (kept _ mem).2
    have joinedOk := n.joined el.2
    refine ⟨_, A' ++ (s, L ++ R) :: B', ws, run, ⟨⟨?_, ?_, lowered.filled, ?_⟩, ?_, ?_⟩, ?_,
      ?_, ?_, ?_⟩
    · rw [floor_]
      simp
    · intro q hq
      simp only [List.mem_append, List.mem_cons] at hq
      rcases hq with hq | rfl | hq
      · exact rehung_stored hungA (fun q hq => storedA q (.inl hq)) q hq
      · refine ⟨⟨_, ?_, joined⟩, ⟨joinedOk.sorted, ?_, ?_⟩, ?_, ?_⟩
        · rw [node, drop_node, Function.update_of_ne lr, hereL, nodeL]
        · exact fun e he => low.trans (joinedOk.low e he)
        · exact fun e he => (joinedOk.high e he).trans_le high
        · intro e he
          rcases List.mem_append.mp he with he | he
          · exact n.storedL.live e he
          · exact n.storedR.live e he
        · rw [node]
          exact n.storedL.addr
      · exact rehung_stored hungB (fun q hq => storedA q (.inr hq)) q hq
    · apply lowered.standing.tower.beside (Moves.freed t'.heap er.2 [])
      intro a ha mem
      exact outR (List.mem_singleton.mp mem ▸ ha)
    · have once := lowered.standing.nodup
      have outA := fun a ha => (kept a ha).1
      simp only [addrs_cons, levelAddrs_append, levelAddrs_cons, rehung_addrs hungA,
        rehung_addrs hungB, node,
        List.nodup_append, List.nodup_cons, List.mem_append, List.mem_cons] at nodup_r ⊢
      grind
    · have height := lowered.standing.height
      rw [List.length_cons]
      dsimp only
      omega
    · intro _ q hq
      simp only [List.mem_append, List.mem_cons] at hq
      rcases hq with hq | rfl | hq
      · obtain ⟨x, hx, same, _⟩ := hungA.page hq
        rw [same]
        exact wide x (.inl hx)
      · simpa using two
      · obtain ⟨x, hx, same, _⟩ := hungB.page hq
        rw [same]
        exact wide x (.inr hx)
    · simp only [rowEntries_append, rowEntries_cons, hungA.entries, hungB.entries,
        List.append_assoc]
    · have le : (el.1 : WithTop Key) ≤ cut (cut sp.high E) L :=
        le_cut n.keys.2.1.le fun e he => WithTop.coe_le_coe.mpr (n.storedL.ok.low e he)
      have seam := (spans_seam le R).trans (spans_looser high (L ++ R))
      simp only [below_append, below_cons]
      rw [← List.append_assoc (spans _ L)]
      exact .append hungA.below (.append seam hungB.below)
    · have written : Moves t.heap h2
          (levelAddrs (A ++ (⟨el.1, el.2, cut sp.high E⟩, L) :: (⟨er.1, er.2, el.1⟩, R) :: B) ++
            addrs ((Au ++ (sp, E ++ (el.1, er.2) :: (er.1, el.2) :: F) :: Bu) :: us))
          (levelAddrs (A ++ (⟨el.1, el.2, cut sp.high E⟩, L) :: (⟨er.1, er.2, el.1⟩, R) :: B) ++
            addrs ((Au ++ (sp, E ++ (el.1, er.2) :: (er.1, el.2) :: F) :: Bu) :: us)) := by
        rw [← heap]
        exact (Moves.put t.heap (by simp) _).trans (Moves.put _ (by simp) _)
      have raised := lowered.moves.frame
        (levelAddrs (A ++ (⟨el.1, el.2, cut sp.high E⟩, L) :: (⟨er.1, er.2, el.1⟩, R) :: B))
      have freed := Moves.freed t'.heap er.2 (levelAddrs A ++ el.2 :: levelAddrs B ++ addrs ws)
      refine ((written.trans raised).trans (freed.perm (fun a => ?_) fun a => Iff.rfl)).perm
        (fun a => by simp) fun a => ?_
      · simp only [levelAddrs_append, levelAddrs_cons, List.mem_append, List.mem_cons]
        grind
      · simp only [addrs_cons, levelAddrs_append, levelAddrs_cons, rehung_addrs hungA,
          rehung_addrs hungB,
          node, List.mem_append, List.mem_cons]

end Merge
end Btree
