import CommonLib.Btree.Tower

/- `find_level`: it ends at the node of the level whose span covers the key, and on its
   way lowers the keys that were larger than the key to it. -/
namespace Btree
open OrderedTree
variable {geo : Geo} {h : Heap} {key : Key} {root : Nat} {us : List Level}

theorem findLoop_succ (key : Key) (n : Nat) (h : Heap) (a : Nat) :
    findLoop geo key (n + 1) h a = findLoop geo key n h a >>= fun p =>
        findStep geo p.1 key p.2 := by
  induction n generalizing h a with
  | zero =>
    unfold findLoop
    cases step : findStep geo h key a with
    | error fault => simp [step, bind, Except.bind]
    | ok p => simp [step, bind, Except.bind, findLoop]
  | succ n ih =>
    rw [findLoop]
    conv_rhs => rw [findLoop]
    cases findStep geo h key a with
    | error fault => rfl
    | ok p => exact ih p.1 p.2

theorem findStep_spec {p : Page Key Nat} (st : Stored geo h p) (some : p.2 ≠ [])
    (len : key.length = geo.keylen) (low : p.1.low ≤ key) (high : (key : WithTop Key) < p.1.high) :
    ∃ h' E e F, p.2 = E ++ e :: F ∧ (∀ x ∈ E, key < x.1) ∧ (e.1 ≤ key ∨ F = []) ∧
      findStep geo h key p.1.node = .ok (h', e.2) ∧ Moves h h' [p.1.node] [p.1.node] ∧
      Stored geo h' (p.1, E ++ (min e.1 key, e.2) :: F) := by
  obtain ⟨s, es⟩ := p
  obtain ⟨E, F, rfl, above, rest⟩ := exists_cut st.ok.sorted key
  obtain ⟨node, here, view⟩ := st.node
  have pos := view.getpos len above rest
  have room := view.room
  have step : findStep geo h key s.node =
      if E.length = geo.noPairs ∨ bval geo node E.length = 0 then
        if E.length = 0 then .error .bug
        else .ok (h.put s.node (setkeyb geo node key (E.length - 1)), bval geo node (E.length - 1))
      else .ok (h, bval geo node E.length) := by
    unfold findStep
    rw [get_ok here]
    simp only [bind, Except.bind, pos]
    rfl
  cases F with
  | cons e F =>
    have val := view.val_at
    have live := st.live e (by simp)
    have under : e.1 ≤ key := rest e List.mem_cons_self
    refine ⟨h, E, e, F, rfl, above, .inl under, ?_, .refl _ _, ?_⟩
    · rw [List.length_append, List.length_cons] at room
      rw [step, if_neg, val]
      rw [val]
      rintro (full | null)
      · omega
      · exact live null
    · rw [min_eq_left under]
      exact st
  | nil =>
    rw [List.append_nil] at *
    obtain ⟨E, e, rfl⟩ := (List.eq_nil_or_concat E).resolve_left some
    rw [List.concat_eq_append] at *
    have under : key ≤ e.1 := (above e (by simp)).le
    have last : (E ++ [e]).length - 1 = E.length := by simp
    have cond : (E ++ [e]).length = geo.noPairs ∨ bval geo node (E ++ [e]).length = 0 := by
      rcases Nat.lt_or_eq_of_le room with free | full
      · exact .inr (congrArg Prod.snd (view.val_past (le_refl _) free))
      · exact .inl full
    refine ⟨_, E, e, [], rfl, fun x hx => above x (by simp [hx]), .inr rfl, ?_,
      .put h (List.mem_singleton.mpr rfl) (setkeyb geo node key E.length), ?_⟩
    · rw [step, if_pos cond, if_neg (by simp), last, view.val_at]
    · rw [min_eq_right under]
      refine ⟨⟨_, Function.update_self _ _ _, view.setkeyb len⟩, ?_, ?_, st.addr⟩
      · exact st.ok.lower under low (by simp)
      · intro x hx
        rcases List.mem_append.mp hx with hx | hx
        · exact st.live x (by simp [hx])
        · obtain rfl := List.mem_singleton.mp hx
          exact st.live e (by simp)

/-- Where `find_level` ends: at the page of `r` whose span covers the key, a span that
    now starts at the key at the latest. -/
structure Found (geo : Geo) (h : Heap) (root : Nat) (us : List Level) (r : Level) (key : Key)
    (h' : Heap)
    (us' : List Level) (A : Level) (s : Span Key Nat) (es : List Entry) (B : Level) : Prop where
  level : r = A ++ (s, es) :: B
  high : (key : WithTop Key) < s.high
  tower : Tower geo h' root ((A ++ (⟨min s.low key, s.node, s.high⟩, es) :: B) :: us')
  addrs : addrs us' = addrs us
  length : us'.length = us.length
  moves : Moves h h' (Btree.addrs us) (Btree.addrs us)

theorem Found.unique {r A B A' B' : Level} {s s' : Span Key Nat} {es es' : List Entry} {h' : Heap}
    {us' : List Level} (found : Found geo h root us r key h' us' A s es B)
    (row : r = A' ++ (s', es') :: B')
    (low : s'.low ≤ key ∨ B' = []) (high : (key : WithTop Key) < s'.high) :
    A = A' ∧ s = s' ∧ es = es' ∧ B = B' := by
  have apart := Tower.apart found.tower.2.2.2
  rw [← found.tower.1, List.map_append, List.map_cons] at apart
  have same := found.level.symm.trans row
  have spans_ := congrArg (List.map Prod.fst) same
  rw [List.map_append, List.map_append, List.map_cons, List.map_cons] at spans_
  obtain ⟨left, rfl, _⟩ := apart_lowered apart spans_ found.high
    (low.imp id fun none_ => by rw [none_]; rfl) high
  have lengths := congrArg List.length left
  rw [List.length_map, List.length_map] at lengths
  obtain ⟨rfl, rest⟩ := List.append_inj same lengths
  obtain ⟨page, rfl⟩ := List.cons.inj rest
  exact ⟨rfl, rfl, congrArg Prod.snd page, rfl⟩

theorem findLoop_spec (us : List Level) (r : Level) (tower : Tower geo h root (r :: us))
    (nodup : (addrs (r :: us)).Nodup) (len : key.length = geo.keylen) :
    ∃ h' us' A s es B, findLoop geo key us.length h root = .ok (h', s.node) ∧
      Found geo h root us r key h' us' A s es B := by
  induction us generalizing r with
  | nil =>
    obtain ⟨spans, stored, _⟩ := tower
    obtain ⟨A, es, B, rfl, hA, hB⟩ := level_focus (S := []) spans
    obtain rfl := List.map_eq_nil_iff.mp hA
    obtain rfl := List.map_eq_nil_iff.mp hB
    have least : min (top geo root).low key = (top geo root).low := by
      apply min_eq_left
      have zero := zero_le_key key
      rw [len] at zero
      exact zero
    refine ⟨h, [], [], top geo root, es, [], rfl, rfl, WithTop.coe_lt_top _, ?_, rfl,
      rfl, .refl _ _⟩
    rw [least]
    exact ⟨rfl, stored, by simp [Filled], trivial⟩
  | cons u us ih =>
    obtain ⟨spans, stored, filled, rest⟩ := tower
    rw [addrs_cons] at nodup
    obtain ⟨_, nodupU, apart⟩ := List.nodup_append.mp nodup
    obtain ⟨h1, us1, A1, t, es1, B1, run1, found⟩ := ih u rest nodupU
    obtain ⟨rfl, high, tower1, addrs1, length1, moves1⟩ := found
    have fill := filled _ List.mem_cons_self
    have st1 := tower1.2.1 _ (List.mem_append_right A1 List.mem_cons_self)
    have two : 2 ≤ es1.length := fill (t, es1) (by simp)
    have some : es1 ≠ [] := List.ne_nil_of_length_pos (by omega)
    obtain ⟨h', E, e, F, rfl, above, under, run2, moves2, st2⟩ :=
      findStep_spec st1 some len (min_le_right _ _) high
    have nodup1 : (addrs ((A1 ++ ((⟨min t.low key, t.node, t.high⟩ : Span Key Nat),
      E ++ e :: F) :: B1) ::
        us1)).Nodup := by
      rw [addrs_cons, addrs1]
      simpa using nodupU
    have tower2 := tower1.write nodup1 moves2 st2
    have sameF : OrderedTree.spans (min e.1 key : Key) F = OrderedTree.spans e.1 F := by
      rcases under with le | rfl
      · rw [min_eq_left le]
      · rfl
    obtain ⟨A, es, B, rfl, hA, hB⟩ := level_focus (spans.trans (below_focus A1 B1 t E F e))
    have moves : Moves h h' (addrs ((A1 ++ (t, E ++ e :: F) :: B1) :: us))
        (addrs ((A1 ++ (t, E ++ e :: F) :: B1) :: us)) := by
      refine (moves1.widen (List.subset_append_right _ _)).trans (moves2.widen ?_)
      simp
    refine ⟨h', _, A, ⟨e.1, e.2, cut t.high E⟩, es, B, ?_, rfl, lt_cut high above,
      ⟨?_, ?_, ?_, tower2⟩, ?_, ?_, moves⟩
    · rw [List.length_cons, findLoop_succ, run1]
      exact run2
    · rw [floor, below_focus, sameF, List.map_append, List.map_cons, hA, hB]
    · intro p hp
      have away : ∀ q ∈ A ++ ((⟨e.1, e.2, cut t.high E⟩ : Span Key Nat), es) :: B,
          h'.node q.1.node = h.node q.1.node := by
        intro q hq
        refine (moves.beside (stored q hq).live_node fun mem => ?_).2
        exact apart _ (List.mem_map_of_mem hq) _ mem rfl
      rcases List.mem_append.mp hp with hp | hp
      · exact (stored p (by simp [hp])).congr (away p (by simp [hp]))
      · rcases List.mem_cons.mp hp with rfl | hp
        · have old := (stored (⟨e.1, e.2, cut t.high E⟩, es) (by simp)).congr (away _ (by simp))
          exact old.loosen rfl (min_le_left _ _) le_rfl
        · exact (stored p (by simp [hp])).congr (away p (by simp [hp]))
    · intro v hv p hp
      rcases List.mem_cons.mp hv with rfl | hv
      · rcases List.mem_append.mp hp with hp | hp
        · exact fill p (by simp [hp])
        · rcases List.mem_cons.mp hp with rfl | hp
          · simpa using two
          · exact fill p (by simp [hp])
      · exact tower1.2.2.1 v hv p hp
    · rw [addrs_cons, addrs_cons, addrs1]
      simp
    · rw [List.length_cons, List.length_cons, length1]

/-- The tree from `level` up: the levels `us`, with the lowest one at `level`. -/
structure Standing (geo : Geo) (t : Tree) (level : Nat) (us : List Level) : Prop where
  tower : Tower geo t.heap t.node us
  nodup : (addrs us).Nodup
  height : t.height + 1 = level + us.length

theorem findLevel_spec {t : Tree} {level : Nat} {r : Level} (st : Standing geo t level (r :: us))
    (len : key.length = geo.keylen) :
    ∃ h' us' A s es B, findLevel geo t key level = .ok ({ t with heap := h' }, s.node) ∧
      Found geo t.heap t.node us r key h' us' A s es B := by
  obtain ⟨h', us', A, s, es, B, run, found⟩ := findLoop_spec us r st.tower st.nodup len
  have steps : t.height - level = us.length := by
    have := st.height
    rw [List.length_cons] at this
    omega
  have live := (found.tower.2.1 _ (List.mem_append_right A List.mem_cons_self)).addr
  refine ⟨h', us', A, s, es, B, ?_, found⟩
  unfold findLevel
  rw [steps, run]
  simp only [bind, Except.bind]
  rw [if_neg live]
  rfl

end Btree
