import CommonLib.Btree.Split

/- Inserting at a level: whatever is stolen or split on the way, the level gains the one
   entry, and the span that covers its key is parted there. -/
namespace Btree
open OrderedTree
variable {geo : Geo} {mem : Calloc} {us : List Level} {key : Key} {level : Nat}

/-! ### Where a parent takes the new node -/

theorem Inserted.filled {h : Heap} {r r' : Level} {us' : List Level} {val : Nat} {t' : Tree}
    (made : Inserted geo h level r us key val t' r' us') (more : rowEntries r ≠ []) :
        Filled (r' :: us') := by
  obtain ⟨P, Q, old, new⟩ := made.entries
  have pos := List.length_pos_iff.mpr more
  apply made.standing.filled made.wide
  rw [new]
  rw [old] at pos
  simp only [List.length_append, List.length_cons] at pos ⊢
  omega

theorem absent_above {t : Tree} {A B : Level} {s : Span Key Nat} {es : List Entry}
    {u : Level} {k : Key}
    (st : Standing geo t level ((A ++ (s, es) :: B) :: u :: us)) (low : s.low < k)
    (high : (k : WithTop Key) < s.high) : ∀ e ∈ rowEntries u, e.1 ≠ k := by
  intro e he same
  obtain ⟨spans_, _, _, tower⟩ := st.tower
  have apart := Tower.apart tower
  have below_ : floor geo t.node (u :: us) = A.map Prod.fst ++ s :: B.map Prod.fst := by
    rw [← spans_, List.map_append, List.map_cons]
  rw [← below_entries, List.mem_map] at he
  obtain ⟨x, hx, rfl⟩ := he
  obtain ⟨S, T, eq⟩ := List.append_of_mem hx
  have cover : floor geo t.node (u :: us) = S ++ x :: T := eq
  rw [cover] at apart below_
  have proper := Tower.proper tower x hx
  dsimp only at same
  rw [same] at proper
  obtain ⟨_, rfl, _⟩ := apart_cover apart below_ same.le proper low.le high
  exact absurd same low.ne

theorem Inserted.admits {t t2 : Tree} {A B : Level} {s : Span Key Nat} {es L M : List Entry}
    {u r' : Level}
    {us' : List Level} {m : Entry} {new : Nat} {h1 : Heap}
    (st : Standing geo t level ((A ++ (s, es) :: B) :: u :: us)) (parts : es = L ++ m :: M)
    (more : M ≠ [])
    (made : Inserted geo h1 (level + 1) u us m.1 new t2 r' us') :
    Admits geo h1 level (u :: us) A B s m.1 new M t2 (r' :: us') := by
  obtain ⟨spans_, stored, _, tower⟩ := st.tower
  have page := (stored (s, es) (by simp)).ok
  rw [parts] at page
  obtain ⟨x, hx⟩ := List.exists_mem_of_ne_nil M more
  have step := (List.pairwise_cons.mp (List.pairwise_append.mp page.sorted).2.1).1 x hx
  have low : s.low < m.1 := (page.low x (by simp [hx])).trans_lt step
  have high := page.high m (by simp)
  have below_ : below u = A.map Prod.fst ++ s :: B.map Prod.fst := by
    rw [show below u = floor geo t.node (u :: us) from rfl, ← spans_, List.map_append,
      List.map_cons]
  obtain ⟨S, bound, least, T, after, left, le_high, le_low, right⟩ :=
    made.parted _ s _ below_ low high
  refine ⟨made.standing, made.filled ?_,
    ⟨S, bound, least, T, after, left, le_high, .inl le_low, ?_, right⟩,
    made.moves⟩
  · rw [← below_entries, below_]
    simp
  · exact fun e he => le_low.trans (page.low e (by simp [he]))

/-! ### Growing -/

theorem grow_top {t : Tree} {root : Nat} {node : Node} {es : List Entry}
    (here : t.heap.node root = some node)
    (view : View geo node es) (ok : PageOk (top geo root, es)) (live : ∀ e ∈ es, e.2 ≠ 0)
    (addr : root ≠ 0)
    (at_root : t.node = root) (height : t.height = level) :
    Standing geo t level [[(top geo root, es)]] := by
  refine ⟨⟨?_, ?_, by simp [Filled], trivial⟩, by simp, by simp [height]⟩
  · rw [at_root]
    rfl
  · intro p hp
    rw [List.mem_singleton.mp hp]
    exact ⟨⟨node, here, view⟩, ok, live, addr⟩

theorem btreeGrow_refused {t : Tree} (none_ : mem.addr t.heap = none) :
    btreeGrow geo mem t = .ok (t, .error .ENOMEM) := by
  unfold btreeGrow btreeNodeAlloc
  rw [none_]
  rfl

theorem btreeGrow_first {t : Tree} {a : Nat} (given : mem.addr t.heap = some a)
    (empty : t.node = 0) :
    ∃ t', btreeGrow geo mem t = .ok (t', .ok ()) ∧
      Standing geo t' (t.height + 1) [[(top geo t'.node, [])]] ∧
          Moves t.heap t'.heap [] [t'.node] := by
  obtain ⟨nonzero, fresh⟩ := mem.fresh t.heap a given
  refine ⟨⟨a, t.height + 1, t.heap.put a fun _ => 0⟩, ?_, ?_, .take fresh [] _⟩
  · unfold btreeGrow btreeNodeAlloc
    rw [given, empty]
    rfl
  · apply grow_top (Function.update_self _ _ _) view_zero _ (by simp) nonzero rfl rfl
    exact ⟨.nil, by simp, by simp⟩

theorem btreeGrow_root {t : Tree} {a : Nat} (given : mem.addr t.heap = some a) {es : List Entry}
    {e : Entry}
    (page : Stored geo t.heap (top geo t.node, es ++ [e])) :
    ∃ t', btreeGrow geo mem t = .ok (t', .ok ()) ∧
      Standing geo t' (t.height + 1) [[(top geo t'.node, [(e.1, t.node)])]] ∧
      Moves t.heap t'.heap [] [t'.node] := by
  obtain ⟨nonzero, fresh⟩ := mem.fresh t.heap a given
  obtain ⟨node, here, view⟩ := page.node
  dsimp only [top] at here view
  have ne : t.node ≠ a := by
    rintro same
    rw [same, fresh] at here
    exact nomatch here
  have len := view.key_length (e := e) (by simp)
  have fill := view.getfill page.live (Nat.zero_le _)
  have border : bkey geo node ((es ++ [e]).length - 1) = e.1 := view.key_last
  have some_ : (es ++ [e]).length ≠ 0 := by simp
  have root : View geo (setval geo (setkeyb geo (fun _ => 0) e.1 0) t.node 0) [(e.1, t.node)] := by
    have zero : View geo (fun _ => 0) ([] ++ []) := view_zero
    have four := geo.four
    exact zero.insert (e := (e.1, t.node)) (by simpa using (by omega : 0 < geo.noPairs)) len
  refine ⟨⟨a, t.height + 1, (t.heap.put a fun _ => 0).put a
    (setval geo (setkeyb geo (fun _ => 0) e.1 0) t.node 0)⟩, ?_, ?_, ?_⟩
  · have found : (t.heap.put a fun _ => 0).node t.node = some node := by
      rw [put_node, Function.update_of_ne ne]
      exact here
    have new : (t.heap.put a fun _ => 0).node a = some fun _ => 0 := Function.update_self _ _ _
    unfold btreeGrow btreeNodeAlloc
    rw [given]
    simp only [Option.map_some]
    have addr : t.node ≠ 0 := page.addr
    rw [if_neg addr, get_ok found, get_ok new]
    simp only [bind, Except.bind, fill, if_neg some_, border]
    rfl
  · apply grow_top (Function.update_self _ _ _) root _ _ nonzero rfl rfl
    · refine ⟨List.pairwise_singleton _ _, ?_, ?_⟩
      · intro x hx
        rw [List.mem_singleton.mp hx]
        have zero := zero_le_key e.1
        rw [len] at zero
        exact zero
      · exact fun x _ => WithTop.coe_lt_top x.1
    · intro x hx
      rw [List.mem_singleton.mp hx]
      exact page.addr
  · exact (Moves.take fresh [] _).trans (.put _ List.mem_cons_self _)

/-! ### The whole insertion at a level -/

theorem below_found {A B : Level} {s : Span Key Nat} {es : List Entry} (key : Key) :
    below (A ++ (⟨min s.low key, s.node, s.high⟩, es) :: B) = below (A ++ (s, es) :: B) :=
  below_low A B s _ es rfl

theorem entries_found {A B : Level} {s : Span Key Nat} {es : List Entry} (key : Key) :
    rowEntries (A ++ (⟨min s.low key, s.node, s.high⟩, es) :: B) =
        rowEntries (A ++ (s, es) :: B) := by
  simp

theorem wide_found {A B : Level} {s : Span Key Nat} {es : List Entry} {us' : List Level} (key : Key)
    (wide : Wide (A ++ (s, es) :: B) us) (same : us'.length = us.length) :
    Wide (A ++ (⟨min s.low key, s.node, s.high⟩, es) :: B) us' := by
  intro some p hp
  have some' : us ≠ [] := by
    rintro rfl
    exact some (List.length_eq_zero_iff.mp same)
  simp only [List.mem_append, List.mem_cons] at hp
  rcases hp with hp | rfl | hp
  · exact wide some' p (by simp [hp])
  · exact wide some' (s, es) (by simp)
  · exact wide some' p (by simp [hp])

theorem insert_found {insertLevel : Inserting} {t : Tree} {n val : Nat} {h1 : Heap}
    {us1 : List Level}
    {r A B : Level} {s : Span Key Nat} {es : List Entry} (st : Standing geo t level (r :: us))
    (wide : Wide r us) (len : key.length = geo.keylen) (live : val ≠ 0)
    (absent : ∀ e ∈ rowEntries r, e.1 ≠ key)
    (run : findLevel geo t key level = .ok ({ t with heap := h1 }, s.node))
    (found : Found geo t.heap t.node us r key h1 us1 A s es B) (room : es.length < geo.noPairs) :
    ∃ t' r' us', insertRetry geo mem insertLevel key val level (n + 1) t = .ok (t', .ok ()) ∧
      Inserted geo t.heap level r us key val t' r' us' := by
  have st1 := found.standing st
  obtain ⟨rfl, high, _, addrs1, length1, moves1⟩ := found
  have page := st1.tower.2.1 (⟨min s.low key, s.node, s.high⟩, es) (by simp)
  obtain ⟨node, here, view⟩ := page.node
  obtain ⟨E, F, rfl, above, rest⟩ := exists_cut page.ok.sorted key
  have next : ∀ e ∈ F, e.1 < key := by
    intro e he
    exact lt_of_le_of_ne (rest e he) (absent e (by simp [he]))
  have pass := insertRetry_room mem insertLevel val n run here view page.live len above next room
  have made := insert_here st1 (wide_found key wide length1) view len live (min_le_right _ _)
    high above next room
  refine ⟨_, _, _, pass, made.standing, made.wide, ?_, ?_, ?_⟩
  · have entries := made.entries
    rwa [entries_found] at entries
  · have parted := made.parted
    rwa [below_found] at parted
  · have moves := made.moves
    simp only [addrs_cons, levelAddrs_append, levelAddrs_cons, addrs1] at moves ⊢
    refine (moves1.widen ?_).trans moves
    exact fun a ha => List.mem_append_right _ ha

theorem insert_room (mem : Calloc) (insertLevel : Inserting) (n : Nat) {t : Tree} {val : Nat}
    {r : Level}
    (st : Standing geo t level (r :: us)) (wide : Wide r us) (len : key.length = geo.keylen)
    (live : val ≠ 0)
    (absent : ∀ e ∈ rowEntries r, e.1 ≠ key)
    (room : ∃ A s es B, r = A ++ (s, es) :: B ∧ (s.low ≤ key ∨ B = []) ∧
    (key : WithTop Key) < s.high ∧
      es.length < geo.noPairs) :
    ∃ t' r' us', insertRetry geo mem insertLevel key val level (n + 1) t = .ok (t', .ok ()) ∧
      Inserted geo t.heap level r us key val t' r' us' := by
  obtain ⟨h1, us1, A, s, es, B, run, found⟩ := findLevel_spec st len
  apply insert_found st wide len live absent run found
  obtain ⟨A', s', es', B', row, low', high', room⟩ := room
  obtain ⟨_, _, rfl, _⟩ := found.unique row low' high'
  exact room

def Rises (geo : Geo) (mem : Calloc) (level n : Nat) (insertLevel : Inserting) : Prop :=
  ∀ t u us key val, us.length = n → Standing geo t level (u :: us) → Wide u us →
    key.length = geo.keylen →
    val ≠ 0 → (∀ e ∈ rowEntries u, e.1 ≠ key) →
    Ends geo mem t.heap level u us (insertRetry geo mem insertLevel key val level 2 t)
      (Inserted geo t.heap level u us key val)

theorem btreeInsertLevel_stay {fuel val : Nat} {t : Tree} (live : val ≠ 0)
    (low : level ≤ t.height) :
    btreeInsertLevel geo mem (fuel + 1) t key val level =
      insertRetry geo mem (btreeInsertLevel geo mem fuel) key val level 2 t := by
  rw [btreeInsertLevel, if_neg live, if_neg (by omega)]
  rfl

theorem btreeInsertLevel_grow {fuel val : Nat} {t t' : Tree} (live : val ≠ 0)
    (high : t.height < level)
    (grown : btreeGrow geo mem t = .ok (t', .ok ())) :
    btreeInsertLevel geo mem (fuel + 1) t key val level =
      insertRetry geo mem (btreeInsertLevel geo mem fuel) key val level 2 t' := by
  rw [btreeInsertLevel, if_neg live, if_pos high, grown]
  rfl

theorem btreeInsertLevel_refused {fuel val : Nat} {t : Tree} (live : val ≠ 0)
    (high : t.height < level)
    (none_ : mem.addr t.heap = none) :
    btreeInsertLevel geo mem (fuel + 1) t key val level = .ok (t, .error .ENOMEM) := by
  rw [btreeInsertLevel, if_neg live, if_pos high, btreeGrow_refused none_]
  rfl

theorem split_below {fuel : Nat} {t : Tree} {A B u : Level} {s : Span Key Nat} {es : List Entry}
    (rises : Rises geo mem (level + 1) us.length (btreeInsertLevel geo mem fuel))
    (st : Standing geo t level ((A ++ (s, es) :: B) :: u :: us))
    (wide : Wide (A ++ (s, es) :: B) (u :: us))
    (full : es.length = geo.noPairs) (low : s.low ≤ key) (high : (key : WithTop Key) < s.high) :
    Ends geo mem t.heap level (A ++ (s, es) :: B) (u :: us)
      (split geo mem (btreeInsertLevel geo mem (fuel + 1)) t s.node level)
      (Relieved geo t.heap level (A ++ (s, es) :: B) (u :: us) key) := by
  have wide' := wide (List.cons_ne_nil _ _)
  refine split_spec st ?_ full low high ?_
  · intro p hp
    exact wide' p (by rcases hp with hp | hp <;> simp [hp])
  · intro new L m M parts more nonzero fresh
    obtain ⟨_, stored, filled, tower⟩ := st.tower
    have page := stored (s, es) (by simp)
    rw [parts] at page
    obtain ⟨x, hx⟩ := List.exists_mem_of_ne_nil M more
    have step := (List.pairwise_cons.mp (List.pairwise_append.mp page.ok.sorted).2.1).1 x hx
    have lowM : s.low < m.1 := (page.ok.low x (by simp [hx])).trans_lt step
    have highM := page.ok.high m (by simp)
    obtain ⟨node, _, view⟩ := page.node
    have taken := Moves.take fresh [] fun _ => 0
    have st1 : Standing geo { t with heap := t.heap.put new fun _ => 0 } (level + 1) (u :: us) :=
      st.up.beside taken fun a _ => List.not_mem_nil
    have tall : level + 1 ≤ ({ t with heap := t.heap.put new fun _ => 0 } : Tree).height := by
      have height := st.height
      simp only [List.length_cons] at height
      dsimp only
      omega
    obtain ⟨t2, u', us', ⟨run, made⟩ | ⟨run, none_, settled⟩⟩ := rises _ u us m.1 new rfl st1
      (fun _ => filled u List.mem_cons_self)
      (view.key_length (by simp)) nonzero (absent_above st lowM highM)
    · exact ⟨t2, u' :: us', .inl ⟨(btreeInsertLevel_stay nonzero tall).trans run,
        made.admits st parts more⟩⟩
    · exact ⟨t2, u' :: us', .inr ⟨(btreeInsertLevel_stay nonzero tall).trans run, none_,
        settled.standing,
        settled.filled (Filled.many filled st.upper_ne), settled.looser, settled.moves⟩⟩

theorem split_root {fuel : Nat} {t : Tree} {A B : Level} {s : Span Key Nat} {es : List Entry}
    (st : Standing geo t level [A ++ (s, es) :: B]) (full : es.length = geo.noPairs)
    (low : s.low ≤ key) (high : (key : WithTop Key) < s.high) :
    Ends geo mem t.heap level (A ++ (s, es) :: B) []
      (split geo mem (btreeInsertLevel geo mem (fuel + 1)) t s.node level)
      (Relieved geo t.heap level (A ++ (s, es) :: B) [] key) := by
  obtain ⟨spans_, stored, _, _⟩ := st.tower
  obtain ⟨A', es', B', row, hA, hB⟩ := level_focus (S := []) spans_
  obtain rfl := List.map_eq_nil_iff.mp hA
  obtain rfl := List.map_eq_nil_iff.mp hB
  obtain ⟨rfl, rest⟩ | ⟨C, rfl, rest⟩ := List.append_eq_cons_iff.mp row
  · obtain ⟨page, rfl⟩ := List.cons.inj rest
    obtain ⟨rfl, rfl⟩ := Prod.mk.inj page
    have height : t.height = level := by
      have height := st.height
      simp only [List.length_singleton] at height
      omega
    refine split_spec st (by simp) full low high ?_
    intro new L m M parts more nonzero fresh
    have page := stored (top geo t.node, es) (by simp)
    obtain ⟨M, e, rfl⟩ := (List.eq_nil_or_concat M).resolve_left more
    rw [List.concat_eq_append] at parts
    have taken := Moves.take fresh [] fun _ => 0
    have kept := (taken.beside page.live_node List.not_mem_nil).2
    have page1 : Stored geo (t.heap.put new fun _ => 0) (top geo t.node, (L ++ m :: M) ++ [e]) := by
      have same : es = (L ++ m :: M) ++ [e] := by rw [parts, List.append_assoc, List.cons_append]
      rw [← same]
      exact page.congr kept
    have lower : t.height < level + 1 := by omega
    cases given : mem.addr (t.heap.put new fun _ => 0) with
    | none =>
      refine ⟨⟨t.node, t.height, t.heap.put new fun _ => 0⟩, [],
        .inr ⟨?_, ⟨_, given⟩, ⟨trivial, List.nodup_nil, ?_⟩, by simp [Filled],
        .refl _, .refl _ _⟩⟩
      · exact btreeInsertLevel_refused (t := { t with heap := t.heap.put new fun _ => 0 })
          nonzero lower given
      · rw [List.length_nil]
        exact congrArg (· + 1) height
    | some root =>
      obtain ⟨t1, grown, st1, moves1⟩ :=
        btreeGrow_root (t := { t with heap := t.heap.put new fun _ => 0 }) given page1
      have st1 : Standing geo t1 (level + 1) [[(top geo t1.node, [(e.1, t.node)])]] := height ▸ st1
      have len : m.1.length = geo.keylen := by
        obtain ⟨node, _, view⟩ := page1.node
        exact view.key_length (by simp)
      have step : e.1 < m.1 := by
        have sorted := page1.ok.sorted
        rw [List.append_assoc, List.cons_append] at sorted
        exact (List.pairwise_cons.mp (List.pairwise_append.mp sorted).2.1).1 e (by simp)
      have absent : ∀ x ∈ rowEntries [(top geo t1.node, [(e.1, t.node)])], x.1 ≠ m.1 := by
        intro x hx
        obtain rfl : x = (e.1, t.node) := by simpa [rowEntries] using hx
        exact step.ne
      have four := geo.four
      obtain ⟨t2, r', us', run, made⟩ := insert_room mem (btreeInsertLevel geo mem fuel) 1 st1
        (fun more => absurd rfl more) len nonzero absent
        ⟨[], _, _, [], rfl, .inr rfl, WithTop.coe_lt_top _,
          by simpa using (by omega : 1 < geo.noPairs)⟩
      refine ⟨t2, r' :: us', .inl ⟨(btreeInsertLevel_grow
        (t := { t with heap := t.heap.put new fun _ => 0 })
        nonzero lower grown).trans run, ?_⟩⟩
      obtain ⟨S, bound, least, T, floor_, left, le_high, le_low, right⟩ :=
        made.parted [] ⟨e.1, t.node, ⊤⟩ [] rfl step (WithTop.coe_lt_top _)
      refine ⟨made.standing, made.filled
        (by simp [rowEntries]), ⟨S, bound, least, T, floor_, left, le_high,
        .inr ?_, ?_, right⟩, moves1.trans made.moves⟩
      · cases right
        rfl
      · intro x hx
        rw [List.concat_eq_append] at hx
        have sorted := page1.ok.sorted
        rw [List.append_assoc, List.cons_append] at sorted
        have tail := (List.pairwise_cons.mp (List.pairwise_append.mp sorted).2.1).2
        rcases List.mem_append.mp hx with hx | hx
        · exact le_low.trans ((List.pairwise_append.mp tail).2.2 x hx e List.mem_cons_self).le
        · rw [List.mem_singleton.mp hx]
          exact le_low
  · exact absurd rest (by simp)

section Neighbours
variable {t : Tree} {A B u Au Bu : Level} {s sp : Span Key Nat} {es E F : List Entry}
    {us' : List Level} {h' : Heap}
  {p : Node}

theorem Parent.roomL (parent : Parent geo t level A s es B u us key h' us' Au sp E F Bu)
    (view : View geo p (E ++ (s.low, s.node) :: F)) (wide : ∀ p ∈ A ++ (s, es) :: B, 2 ≤ p.2.length)
    (full : es.length = geo.noPairs) (low : s.low ≤ key) (high : (key : WithTop Key) < s.high) :
    ∃ noLeft, (0 < E.length ∧ (∃ node,
        h'.get (bval geo p (E.length - 1)) = .ok node ∧ getfill geo node 0 = noLeft) ∨
        ¬ 0 < E.length ∧ noLeft = geo.noPairs) ∧
      (2 ≤ geo.noPairs - noLeft → ∃ h2 r' us2,
        stealR geo h' (bval geo p (E.length - 1)) noLeft s.node geo.noPairs sp.node (E.length - 1)
          ((geo.noPairs - noLeft) / 2) = .ok h2 ∧
        Relieved geo h' level (A ++ (s, es) :: B) (u :: us') key ⟨t.node, t.height,
            h2⟩ r' us2) := by
  have four := geo.four
  have tall : t.height + 1 = level + (us'.length + 2) := parent.standing.height
  by_cases more : E = []
  · exact ⟨geo.noPairs, .inr ⟨by simp [more], rfl⟩, fun room => by omega⟩
  · obtain ⟨A', L, E', el, rfl, rfl, bound, row, upper, n⟩ := parent.neighbourL more
    obtain ⟨l, got, fill⟩ := n.storedL.fill
    have last : (E' ++ [el]).length - 1 = E'.length := by simp
    have val : bval geo p E'.length = el.2 := view.val_before
    rw [last, val]
    rw [row] at wide ⊢
    refine ⟨L.length, .inl ⟨by simp, l, got, fill⟩, fun room => ?_⟩
    have roomL := n.storedL.room
    dsimp only at roomL
    obtain ⟨h2, stolen, moves, divided⟩ := n.stealR (i := (geo.noPairs - L.length) / 2) (by omega)
      (by omega) (by omega)
    have two := wide (⟨el.1, el.2, cut sp.high E'⟩, L) (by simp)
    dsimp only at two
    have high' : (key : WithTop Key) < cut sp.high E' := (bound ▸ high).trans n.keys.2.1
    obtain ⟨r', us2, made⟩ := Divided.relieved n
      (fun p hp => wide p (by rcases hp with hp | hp <;> simp [hp]))
      tall moves divided low high' ⟨by omega, by omega⟩ ⟨by omega, by omega⟩
    rw [upper]
    rw [full] at stolen
    exact ⟨h2, r', us2, stolen, made⟩

theorem Parent.roomR (parent : Parent geo t level A s es B u us key h' us' Au sp E F Bu)
    (view : View geo p (E ++ (s.low, s.node) :: F))
    (live : ∀ e ∈ E ++ (s.low, s.node) :: F, e.2 ≠ 0)
    (wide : ∀ p ∈ A ++ (s, es) :: B, 2 ≤ p.2.length)
    (full : es.length = geo.noPairs) (low : s.low ≤ key) (high : (key : WithTop Key) < s.high) :
    ∃ noRight, (E.length + 1 < getfill geo p E.length ∧ (∃ node,
        h'.get (bval geo p (E.length + 1)) = .ok node ∧ getfill geo node 0 = noRight) ∨
        ¬ E.length + 1 < getfill geo p E.length ∧ noRight = geo.noPairs) ∧
      (2 ≤ geo.noPairs - noRight → ∃ h2 r' us2,
        stealL geo h' s.node geo.noPairs (bval geo p (E.length + 1)) noRight sp.node E.length
          ((geo.noPairs - noRight) / 2) = .ok h2 ∧
        Relieved geo h' level (A ++ (s, es) :: B) (u :: us') key ⟨t.node, t.height,
            h2⟩ r' us2) := by
  have four := geo.four
  have tall : t.height + 1 = level + (us'.length + 2) := parent.standing.height
  have fillP := view.getfill live (show E.length ≤ (E ++ (s.low, s.node) :: F).length by simp)
  rw [fillP]
  by_cases more : F = []
  · exact ⟨geo.noPairs, .inr ⟨by simp [more], rfl⟩, fun room => by omega⟩
  · obtain ⟨R, B', er, F', rfl, rfl, row, n⟩ := parent.neighbourR more
    obtain ⟨r, got, fill⟩ := n.storedR.fill
    have val : bval geo p (E.length + 1) = er.2 := view.val_after
    rw [val]
    rw [row] at wide ⊢
    refine ⟨R.length, .inl ⟨by simp, r, got, fill⟩, fun room => ?_⟩
    have roomR := n.storedR.room
    dsimp only at roomR
    obtain ⟨h2, stolen, moves, divided⟩ := n.stealL (i := (geo.noPairs - R.length) / 2) (by omega)
      (by omega) (by omega)
    have two := wide (⟨er.1, er.2, s.low⟩, R) (by simp)
    dsimp only at two
    have low' : er.1 ≤ key := n.keys.1.le.trans low
    obtain ⟨r', us2, made⟩ := Divided.relieved n
      (fun p hp => wide p (by rcases hp with hp | hp <;> simp [hp]))
      tall moves divided low' (parent.high ▸ high) ⟨by omega, by omega⟩ ⟨by omega, by omega⟩
    rw [parent.row]
    rw [full] at stolen
    exact ⟨h2, r', us2, stolen, made⟩

end Neighbours

/-- `rebalance_insert` where the position of the child and the fill of its neighbours are known. -/
theorem rebalanceInsert_run {insertLevel : Inserting} {t : Tree} {h' : Heap}
    {child parent i noLeft noRight : Nat} {p : Node} (inner : ¬ level = t.height)
    (run : findLevel geo t key (level + 1) = .ok ({ t with heap := h' }, parent))
    (here : h'.node parent = some p) (pos : getpos geo p key = i)
    (val : pairVal geo p i = .ok child)
    (look : 0 < i ∧ (∃ node, h'.get (bval geo p (i - 1)) = .ok node ∧ getfill geo node 0 = noLeft) ∨
      ¬ 0 < i ∧ noLeft = geo.noPairs)
    (look' : i + 1 < getfill geo p i ∧ (∃ node, h'.get (bval geo p (i + 1)) = .ok node ∧
      getfill geo node 0 = noRight) ∨ ¬ i + 1 < getfill geo p i ∧ noRight = geo.noPairs) :
    rebalanceInsert geo mem insertLevel t key child level =
      if 2 ≤ geo.noPairs - noLeft then
        (stealR geo h' (bval geo p (i - 1)) noLeft child geo.noPairs parent (i - 1)
          ((geo.noPairs - noLeft) / 2)).map fun h2 => (⟨t.node, t.height, h2⟩, .ok ())
      else if 2 ≤ geo.noPairs - noRight then
        (stealL geo h' child geo.noPairs (bval geo p (i + 1)) noRight parent i
          ((geo.noPairs - noRight) / 2)).map fun h2 => (⟨t.node, t.height, h2⟩, .ok ())
      else split geo mem insertLevel { t with heap := h' } child level := by
  unfold rebalanceInsert
  rw [if_neg inner, run]
  simp only [bind, Except.bind]
  rw [get_ok here]
  simp only [pos, val, ne_eq, not_true_eq_false, if_false]
  rcases look with ⟨some, node, got, fill⟩ | ⟨none, rfl⟩
  · simp only [if_pos some, got, pure, Except.pure, fill]
    rcases look' with ⟨some', node', got', fill'⟩ | ⟨none', rfl⟩
    · simp only [if_pos some', got', fill']
      rfl
    · simp only [if_neg none']
      rfl
  · simp only [if_neg none, pure, Except.pure]
    rcases look' with ⟨some', node', got', fill'⟩ | ⟨none', rfl⟩
    · simp only [if_pos some', got', fill']
      rfl
    · simp only [if_neg none']
      rfl

theorem rebalanceInsert_below {fuel : Nat} {t : Tree} {A B u : Level} {s : Span Key Nat}
    {es : List Entry}
    (rises : Rises geo mem (level + 1) us.length (btreeInsertLevel geo mem fuel))
    (st : Standing geo t level ((A ++ (s, es) :: B) :: u :: us))
    (wide : Wide (A ++ (s, es) :: B) (u :: us))
    (full : es.length = geo.noPairs) (len : key.length = geo.keylen) (low : s.low ≤ key)
    (high : (key : WithTop Key) < s.high) :
    Ends geo mem t.heap level (A ++ (s, es) :: B) (u :: us)
      (rebalanceInsert geo mem (btreeInsertLevel geo mem (fuel + 1)) t key s.node level)
      (Relieved geo t.heap level (A ++ (s, es) :: B) (u :: us) key) := by
  have inner : ¬ level = t.height := by
    have height := st.height
    simp only [List.length_cons] at height
    omega
  obtain ⟨h', us', Au, sp, E, F, Bu, run, parent⟩ := findParent_spec st len low high
  obtain ⟨p, here, view, live, pos, child⟩ := parent.position len low
  have wide' := wide (List.cons_ne_nil _ _)
  obtain ⟨noLeft, look, left⟩ := parent.roomL view wide' full low high
  obtain ⟨noRight, look', right⟩ := parent.roomR view live wide' full low high
  rw [rebalanceInsert_run inner run here pos child look look']
  split
  · rename_i roomL
    obtain ⟨h2, r', us2, stolen, made⟩ := left roomL
    rw [stolen]
    exact ⟨_, r', us2, .inl ⟨rfl, parent.settled made.toSettled, made.room⟩⟩
  · split
    · rename_i roomR
      obtain ⟨h2, r', us2, stolen, made⟩ := right roomR
      rw [stolen]
      exact ⟨_, r', us2, .inl ⟨rfl, parent.settled made.toSettled, made.room⟩⟩
    · have rises' : Rises geo mem (level + 1) us'.length (btreeInsertLevel geo mem fuel) := by
        rw [parent.length]
        exact rises
      obtain ⟨t', r', us2, ⟨made, relieved⟩ | ⟨refused, none_, settled⟩⟩ :=
        split_below rises' parent.standing (fun _ => wide') full low high
      · exact ⟨t', r', us2, .inl ⟨made, parent.settled relieved.toSettled, relieved.room⟩⟩
      · exact ⟨t', r', us2, .inr ⟨refused, none_, parent.settled settled⟩⟩

theorem rebalanceInsert_root {fuel : Nat} {t : Tree} {A B : Level} {s : Span Key Nat}
    {es : List Entry}
    (st : Standing geo t level [A ++ (s, es) :: B]) (full : es.length = geo.noPairs)
    (low : s.low ≤ key)
    (high : (key : WithTop Key) < s.high) :
    Ends geo mem t.heap level (A ++ (s, es) :: B) []
      (rebalanceInsert geo mem (btreeInsertLevel geo mem (fuel + 1)) t key s.node level)
      (Relieved geo t.heap level (A ++ (s, es) :: B) [] key) := by
  have root : level = t.height := by
    have height := st.height
    simp only [List.length_singleton] at height
    omega
  unfold rebalanceInsert
  rw [if_pos root]
  exact split_root st full low high

theorem insertRetry_twice {insertLevel : Inserting} {n : Nat}
    (relieves : ∀ (t : Tree) (A B : Level) (s : Span Key Nat) (es : List Entry) (us : List Level)
    (key : Key),
      us.length = n → Standing geo t level ((A ++ (s, es) :: B) :: us) →
        Wide (A ++ (s, es) :: B) us →
      es.length = geo.noPairs → key.length = geo.keylen →
        s.low ≤ key → (key : WithTop Key) < s.high →
      Ends geo mem t.heap level (A ++ (s, es) :: B) us
        (rebalanceInsert geo mem insertLevel t key s.node level)
        (Relieved geo t.heap level (A ++ (s, es) :: B) us key)) :
    Rises geo mem level n insertLevel := by
  intro t r us key val size st wide len live absent
  obtain ⟨h1, us1, A, s, es, B, run, found⟩ := findLevel_spec st len
  have st1 := found.standing st
  have page := st1.tower.2.1 (⟨min s.low key, s.node, s.high⟩, es) (by simp)
  have fits := page.room
  dsimp only at fits
  rcases Nat.lt_or_eq_of_le fits with room | full
  · obtain ⟨t', r', us', done, made⟩ := insert_found st wide len live absent run found room
    exact ⟨t', r', us', .inl ⟨done, made⟩⟩
  · obtain ⟨rfl, high, _, addrs1, length1, moves1⟩ := found
    obtain ⟨node, here, view⟩ := page.node
    obtain ⟨E, F, rfl, above, rest⟩ := exists_cut page.ok.sorted key
    have next : ∀ e ∈ F, e.1 < key := by
      intro e he
      exact lt_of_le_of_ne (rest e he) (absent e (by simp [he]))
    -- the levels are as before, but for the heap and the keys lowered on the way down
    have back : ∀ {t2 r2 us2}, Settled geo h1 level (A ++
      (⟨min s.low key, s.node, s.high⟩, E ++ F) :: B) us1
        t2 r2 us2 → Settled geo t.heap level (A ++ (s, E ++ F) :: B) us t2 r2 us2 := by
      intro t2 r2 us2 made
      obtain ⟨standing, wide2, entries, looser, moves⟩ := made
      rw [entries_found] at entries
      rw [below_found] at looser
      refine ⟨standing, wide2, entries, looser, ?_⟩
      simp only [addrs_cons, levelAddrs_append, levelAddrs_cons, addrs1] at moves ⊢
      refine (moves1.widen ?_).trans moves
      exact fun a ha => List.mem_append_right _ ha
    obtain ⟨t2, r2, us2, ⟨made, relieved⟩ | ⟨made, none_, settled⟩⟩ := relieves _ _ _ _ _ us1 key
      (length1.trans size) st1 (wide_found key wide length1) full len (min_le_right _ _) high
    · have again := insertRetry_full mem insertLevel val 1 run here view page.live len above next full made
      have settled := back relieved.toSettled
      obtain ⟨t', r', us', done, inserted⟩ :=
        insert_room mem insertLevel 0 relieved.standing relieved.wide len
        live (by rw [settled.entries]; exact absent) relieved.room
      refine ⟨t', r', us', .inl ⟨again.trans done, inserted.standing, inserted.wide, ?_, ?_, ?_⟩⟩
      · rw [← settled.entries]
        exact inserted.entries
      · exact inserted.parted.of_looser settled.looser
      · exact settled.moves.trans inserted.moves
    · exact ⟨t2, r2, us2,
        .inr ⟨insertRetry_refused mem insertLevel val 1 run here view page.live len above
        next full made, none_, back settled⟩⟩

/-- An insertion at a level, by induction on the number of levels above it. -/
theorem insertRetry_spec (mem : Calloc) (n fuel : Nat) (enough : n < fuel) (level : Nat) :
    Rises geo mem level n (btreeInsertLevel geo mem fuel) := by
  induction n generalizing fuel level with
  | zero =>
    obtain ⟨fuel, rfl⟩ := Nat.exists_eq_succ_of_ne_zero (Nat.ne_of_gt enough)
    apply insertRetry_twice
    intro t A B s es us key size st wide full len low high
    obtain rfl := List.eq_nil_of_length_eq_zero size
    exact rebalanceInsert_root st full low high
  | succ n ih =>
    obtain ⟨fuel, rfl⟩ := Nat.exists_eq_succ_of_ne_zero (Nat.ne_of_gt (Nat.zero_lt_of_lt enough))
    apply insertRetry_twice
    intro t A B s es us key size st wide full len low high
    obtain ⟨u, us, rfl⟩ := List.exists_cons_of_length_eq_add_one size
    have rises := ih fuel (Nat.lt_of_succ_lt_succ enough) (level + 1)
    rw [← Nat.succ.inj size] at rises
    exact rebalanceInsert_below rises st wide full len low high

end Btree
