import CommonLib.Btree.Merge

/- Removing at a level: the node loses the entry, and where it is left with too few it is
   merged with a neighbour or takes some of its entries. -/
namespace Btree
open OrderedTree
variable {geo : Geo} {us : List Level} {level : Nat} {key : Key}

/-! ### A node with few entries -/

theorem rebalance_run {removeLevel : Removing} {t : Tree} {kp : KeyPtr} {h' : Heap}
    {child fill parent i left noLeft right noRight : Nat} {p : Node}
    (before : deref geo t.heap kp = .ok key)
    (run : findLevel geo t key (level + 1) = .ok ({ t with heap := h' }, parent))
    (here : h'.node parent = some p) (after : deref geo h' kp = .ok key)
    (pos : getpos geo p key = i)
    (val : pairVal geo p i = .ok child)
    (look : 0 < i ∧ bval geo p (i - 1) = left ∧
    (∃ node, h'.get left = .ok node ∧ getfill geo node 0 = noLeft) ∨
      ¬ 0 < i ∧ left = 0 ∧ noLeft = 0)
    (look' : i + 1 < getfill geo p i ∧ bval geo p (i + 1) = right ∧
      (∃ node, h'.get right = .ok node ∧ getfill geo node 0 = noRight) ∨
      ¬ i + 1 < getfill geo p i ∧ right = 0 ∧ noRight = 0) :
    rebalance geo removeLevel t kp level child fill =
      if 0 < i ∧ fill + noLeft ≤ geo.noPairs then
        merge geo removeLevel { t with heap := h' } level left noLeft child fill parent (i - 1)
      else if i + 1 < getfill geo p i ∧ fill + noRight ≤ geo.noPairs then
        merge geo removeLevel { t with heap := h' } level child fill right noRight parent i
      else if 1 < fill then .ok { t with heap := h' }
      else if left ≠ 0 then
        if (noLeft - fill) / 2 < 1 then .error .bug
        else (stealL geo h' left noLeft child fill parent (i - 1) ((noLeft - fill) / 2)).map
          fun h => ⟨t.node, t.height, h⟩
      else if right ≠ 0 then
        if (noRight - fill) / 2 < 1 then .error .bug
        else (stealR geo h' child fill right noRight parent i ((noRight - fill) / 2)).map
          fun h => ⟨t.node, t.height, h⟩
      else .error .bug := by
  unfold rebalance
  rw [before]
  simp only [bind, Except.bind]
  rw [run]
  simp only []
  rw [get_ok here, after]
  simp only [pos, val, ne_eq, not_true_eq_false, if_false]
  rcases look with ⟨some, rfl, node, got, rfl⟩ | ⟨none, rfl, rfl⟩
  · simp only [if_pos some, got, pure, Except.pure]
    rcases look' with ⟨some', rfl, node', got', rfl⟩ | ⟨none', rfl, rfl⟩
    · simp only [some', decide_true, if_true, got']
      rfl
    · simp only [none', decide_false, Bool.false_eq_true, if_false]
      rfl
  · simp only [if_neg none, pure, Except.pure]
    rcases look' with ⟨some', rfl, node', got', rfl⟩ | ⟨none', rfl, rfl⟩
    · simp only [some', decide_true, if_true, got']
      rfl
    · simp only [none', decide_false, Bool.false_eq_true, if_false]
      rfl

section Neighbours
variable {t : Tree} {A B u Au Bu : Level} {s sp : Span Key Nat} {es E F : List Entry}
    {us' : List Level} {h' : Heap}
  {p : Node} {removeLevel : Removing}

theorem Parent.relieveL (parent : Parent geo t level A s es B u us key h' us' Au sp E F Bu)
    (lowers : Lowers geo (level + 1) us'.length removeLevel)
    (view : View geo p (E ++ (s.low, s.node) :: F))
    (wide : ∀ p, p ∈ A ∨ p ∈ B → 2 ≤ p.2.length) (some : 1 ≤ es.length) (more : E ≠ []) :
    ∃ left noLeft, bval geo p (E.length - 1) = left ∧
      (∃ node, h'.get left = .ok node ∧ getfill geo node 0 = noLeft) ∧ left ≠ 0 ∧
      (es.length + noLeft ≤ geo.noPairs → ∃ t' r' us2,
        merge geo removeLevel { t with heap := h' } level left noLeft s.node es.length sp.node
          (E.length - 1) =
          .ok t' ∧ Settled geo h' level (A ++ (s, es) :: B) (u :: us') t' r' us2) ∧
      (geo.noPairs < es.length + noLeft → ¬ 1 < es.length → ¬ (noLeft - es.length) / 2 < 1 ∧
      ∃ h2 r' us2,
        stealL geo h' left noLeft s.node es.length sp.node (E.length - 1)
          ((noLeft - es.length) / 2) = .ok h2 ∧
        Settled geo h' level (A ++ (s, es) :: B) (u :: us') ⟨t.node, t.height, h2⟩ r' us2) := by
  have four := geo.four
  have tall : t.height + 1 = level + (us'.length + 2) := parent.standing.height
  obtain ⟨A', L, E', el, rfl, rfl, bound, row, upper, n⟩ := parent.neighbourL more
  obtain ⟨l, got, fill⟩ := n.storedL.fill
  have last : (E' ++ [el]).length - 1 = E'.length := by simp
  have val : bval geo p E'.length = el.2 := view.val_before
  have two := wide (⟨el.1, el.2, cut sp.high E'⟩, L) (by simp)
  have roomL := n.storedL.room
  dsimp only at two roomL
  have wide' : ∀ q, q ∈ A' ∨ q ∈ B → 2 ≤ q.2.length :=
    fun q hq => wide q (by rcases hq with hq | hq <;> simp [hq])
  rw [last, val, row, upper]
  refine ⟨el.2, L.length, rfl, ⟨l, got, fill⟩, n.storedL.addr, fun fits => ?_,
    fun beyond single => ?_⟩
  · exact merge_spec (t := { t with heap := h' }) n lowers tall wide' (by omega) (by omega)
  · obtain ⟨h2, stolen, moves, divided⟩ := n.stealL (i := (L.length - es.length) / 2) (by omega)
      (by omega) (by omega)
    obtain ⟨M, m, S, made, _⟩ := divided.settled n wide' tall moves (by omega) (by omega)
    exact ⟨by omega, h2, _, _, stolen, made⟩

theorem Parent.relieveR (parent : Parent geo t level A s es B u us key h' us' Au sp E F Bu)
    (lowers : Lowers geo (level + 1) us'.length removeLevel)
    (view : View geo p (E ++ (s.low, s.node) :: F))
    (wide : ∀ p, p ∈ A ∨ p ∈ B → 2 ≤ p.2.length) (some : 1 ≤ es.length) (more : F ≠ []) :
    ∃ right noRight, bval geo p (E.length + 1) = right ∧
      (∃ node, h'.get right = .ok node ∧ getfill geo node 0 = noRight) ∧ right ≠ 0 ∧
      (es.length + noRight ≤ geo.noPairs → ∃ t' r' us2,
        merge geo removeLevel { t with heap := h' }
          level s.node es.length right noRight sp.node E.length =
          .ok t' ∧ Settled geo h' level (A ++ (s, es) :: B) (u :: us') t' r' us2) ∧
      (geo.noPairs < es.length + noRight → ¬ 1 < es.length → ¬ (noRight - es.length) / 2 < 1 ∧
      ∃ h2 r' us2,
        stealR geo h' s.node es.length right noRight sp.node E.length ((noRight - es.length) / 2) =
          .ok h2 ∧
        Settled geo h' level (A ++ (s, es) :: B) (u :: us') ⟨t.node, t.height, h2⟩ r' us2) := by
  have four := geo.four
  have tall : t.height + 1 = level + (us'.length + 2) := parent.standing.height
  obtain ⟨R, B', er, F', rfl, rfl, row, n⟩ := parent.neighbourR more
  obtain ⟨r, got, fill⟩ := n.storedR.fill
  have val : bval geo p (E.length + 1) = er.2 := view.val_after
  have two := wide (⟨er.1, er.2, s.low⟩, R) (by simp)
  have roomR := n.storedR.room
  dsimp only at two roomR
  have wide' : ∀ q, q ∈ A ∨ q ∈ B' → 2 ≤ q.2.length :=
    fun q hq => wide q (by rcases hq with hq | hq <;> simp [hq])
  rw [val, row, parent.row]
  refine ⟨er.2, R.length, rfl, ⟨r, got, fill⟩, n.storedR.addr, fun fits => ?_,
    fun beyond single => ?_⟩
  · exact merge_spec (t := { t with heap := h' }) n lowers tall wide' (by omega) (by omega)
  · obtain ⟨h2, stolen, moves, divided⟩ := n.stealR (i := (R.length - es.length) / 2) (by omega)
      (by omega) (by omega)
    obtain ⟨M, m, S, made, _⟩ := divided.settled n wide' tall moves (by omega) (by omega)
    exact ⟨by omega, h2, _, _, stolen, made⟩

end Neighbours

/-- `rebalance` of a node below the root. -/
theorem rebalance_spec {removeLevel : Removing} {t : Tree} {kp : KeyPtr} {A B u : Level}
    {s : Span Key Nat}
    {es : List Entry} (lowers : Lowers geo (level + 1) us.length removeLevel)
    (st : Standing geo t level ((A ++ (s, es) :: B) :: u :: us))
    (wide : ∀ p, p ∈ A ∨ p ∈ B → 2 ≤ p.2.length) (some : 1 ≤ es.length)
    (len : key.length = geo.keylen) (low : s.low ≤ key) (high : (key : WithTop Key) < s.high)
    (points : ∀ h, h.node s.node = t.heap.node s.node → deref geo h kp = .ok key) :
    ∃ t' r' us', rebalance geo removeLevel t kp level s.node es.length = .ok t' ∧
      Settled geo t.heap level (A ++ (s, es) :: B) (u :: us) t' r' us' := by
  obtain ⟨h', us', Au, sp, E, F, Bu, run, parent⟩ := findParent_spec st len low high
  obtain ⟨p, here, view, live, pos, child⟩ := parent.position len low
  have four := geo.four
  have st1 := parent.standing
  have tall : t.height + 1 = level + (us'.length + 2) := st1.height
  have lowers' : Lowers geo (level + 1) us'.length removeLevel := by
    rw [parent.length]
    exact lowers
  have after : deref geo h' kp = .ok key := by
    apply points
    have page := st.tower.2.1 (s, es) (by simp)
    refine (parent.moves.beside page.live_node fun mem => ?_).2
    have nodup := st.nodup
    rw [addrs_cons] at nodup
    exact (List.nodup_append.mp nodup).2.2 s.node (by simp) _ (List.mem_append_right _ mem) rfl
  obtain ⟨left, noLeft, look, mergeL, stolen⟩ : ∃ left noLeft,
      (0 < E.length ∧ bval geo p (E.length - 1) = left ∧
        (∃ node, h'.get left = .ok node ∧ getfill geo node 0 = noLeft) ∨
        ¬ 0 < E.length ∧ left = 0 ∧ noLeft = 0) ∧
      (0 < E.length → es.length + noLeft ≤ geo.noPairs → ∃ t' r' us2,
        merge geo removeLevel { t with heap := h' } level left noLeft s.node es.length sp.node
          (E.length - 1) =
          .ok t' ∧ Settled geo h' level (A ++ (s, es) :: B) (u :: us') t' r' us2) ∧
      (0 < E.length → geo.noPairs < es.length + noLeft → ¬ 1 < es.length →
        left ≠ 0 ∧ ¬ (noLeft - es.length) / 2 < 1 ∧ ∃ h2 r' us2,
        stealL geo h' left noLeft s.node es.length sp.node (E.length - 1)
          ((noLeft - es.length) / 2) = .ok h2 ∧
        Settled geo h' level (A ++ (s, es) :: B) (u :: us') ⟨t.node, t.height, h2⟩ r' us2) := by
    by_cases more : E = []
    · have none_ : ¬ 0 < E.length := by simp [more]
      exact ⟨0, 0, .inr ⟨none_, rfl, rfl⟩, fun h => absurd h none_, fun h => absurd h none_⟩
    · obtain ⟨left, noLeft, val, fill, nonzero, merged, stolen⟩ :=
        parent.relieveL lowers' view wide some more
      exact ⟨left, noLeft, .inl ⟨List.length_pos_iff.mpr more, val, fill⟩, fun _ => merged,
        fun _ beyond single => ⟨nonzero, stolen beyond single⟩⟩
  have fillP := view.getfill live (show E.length ≤ (E ++ (s.low, s.node) :: F).length by simp)
  obtain ⟨right, noRight, look', mergeR, stolen'⟩ : ∃ right noRight,
      (E.length + 1 < getfill geo p E.length ∧ bval geo p (E.length + 1) = right ∧
        (∃ node, h'.get right = .ok node ∧ getfill geo node 0 = noRight) ∨
        ¬ E.length + 1 < getfill geo p E.length ∧ right = 0 ∧ noRight = 0) ∧
      (E.length + 1 < getfill geo p E.length → es.length + noRight ≤ geo.noPairs → ∃ t' r' us2,
        merge geo removeLevel { t with heap := h' }
          level s.node es.length right noRight sp.node E.length =
          .ok t' ∧ Settled geo h' level (A ++ (s, es) :: B) (u :: us') t' r' us2) ∧
      (E.length + 1 < getfill geo p E.length → geo.noPairs < es.length + noRight → ¬ 1 < es.length →
        right ≠ 0 ∧ ¬ (noRight - es.length) / 2 < 1 ∧ ∃ h2 r' us2,
        stealR geo h' s.node es.length right noRight sp.node E.length ((noRight - es.length) / 2) =
          .ok h2 ∧
        Settled geo h' level (A ++ (s, es) :: B) (u :: us') ⟨t.node, t.height, h2⟩ r' us2) := by
    rw [fillP]
    by_cases more : F = []
    · have none_ : ¬ E.length + 1 < (E ++ (s.low, s.node) :: F).length := by simp [more]
      exact ⟨0, 0, .inr ⟨none_, rfl, rfl⟩, fun h => absurd h none_, fun h => absurd h none_⟩
    · have pos_ := List.length_pos_iff.mpr more
      obtain ⟨right, noRight, val, fill, nonzero, merged, stolen⟩ :=
        parent.relieveR lowers' view wide some more
      refine ⟨right, noRight, .inl ⟨?_, val, fill⟩, fun _ => merged,
        fun _ beyond single => ⟨nonzero, stolen beyond single⟩⟩
      rw [List.length_append, List.length_cons]
      omega
  rw [rebalance_run (points _ rfl) run here after pos child look look']
  by_cases fitsL : 0 < E.length ∧ es.length + noLeft ≤ geo.noPairs
  · obtain ⟨t', r', us2, done, made⟩ := mergeL fitsL.1 fitsL.2
    rw [if_pos fitsL]
    exact ⟨t', r', us2, done, parent.settled made⟩
  rw [if_neg fitsL]
  by_cases fitsR : E.length + 1 < getfill geo p E.length ∧ es.length + noRight ≤ geo.noPairs
  · obtain ⟨t', r', us2, done, made⟩ := mergeR fitsR.1 fitsR.2
    rw [if_pos fitsR]
    exact ⟨t', r', us2, done, parent.settled made⟩
  rw [if_neg fitsR]
  by_cases more : 1 < es.length
  · rw [if_pos more]
    refine ⟨_, _, _, rfl, parent.settled ⟨st1, fun _ q hq => ?_, rfl, .refl _, .refl _ _⟩⟩
    simp only [List.mem_append, List.mem_cons] at hq
    rcases hq with hq | rfl | hq
    · exact wide q (.inl hq)
    · exact more
    · exact wide q (.inr hq)
  rw [if_neg more]
  by_cases beside : 0 < E.length
  · obtain ⟨some_, enough, h2, r', us2, done, made⟩ := stolen beside (by omega) more
    rw [if_pos some_, if_neg enough, done]
    exact ⟨_, r', us2, rfl, parent.settled made⟩
  · -- the parent has two entries at least, so there is a neighbour to the right
    have two := st1.tower.2.2.1 _ List.mem_cons_self (sp, E ++ (s.low, s.node) :: F)
      (by simp [parent.row])
    have beside' : E.length + 1 < getfill geo p E.length := by
      rw [fillP]
      simp only [List.length_append, List.length_cons] at two ⊢
      omega
    obtain ⟨some_, enough, h2, r', us2, done, made⟩ := stolen' beside' (by omega) more
    have none_ : ¬ left ≠ 0 := by
      rcases look with ⟨some', _⟩ | ⟨_, rfl, _⟩
      · exact absurd some' beside
      · exact fun h => h rfl
    rw [if_neg none_, if_pos some_, if_neg enough, done]
    exact ⟨_, r', us2, rfl, parent.settled made⟩

/-! ### The entry taken out of its node -/

theorem Standing.brothers {t : Tree} {A B u : Level} {s : Span Key Nat} {es : List Entry}
    (st : Standing geo t level ((A ++ (s, es) :: B) :: u :: us)) : A ≠ [] ∨ B ≠ [] := by
  obtain ⟨spans_, _, filled, _⟩ := st.tower
  by_contra alone
  obtain ⟨rfl, rfl⟩ : A = [] ∧ B = [] := by simpa using alone
  have two := Filled.many filled st.upper_ne
  have count := congrArg List.length spans_
  have entries := congrArg List.length (below_entries u)
  rw [List.length_map] at entries
  have one : 1 = (below u).length := count
  omega

theorem Found.kept {t : Tree} {r A B : Level} {s : Span Key Nat} {es : List Entry} {h1 : Heap}
    {us1 : List Level}
    (st : Standing geo t level (r :: us))
    (found : Found geo t.heap t.node us r key h1 us1 A s es B) :
    h1.node s.node = t.heap.node s.node := by
  have page := st.tower.2.1 (s, es) (by rw [found.level]; simp)
  refine (found.moves.beside page.live_node fun mem => ?_).2
  have nodup := st.nodup
  rw [addrs_cons] at nodup
  refine (List.nodup_append.mp nodup).2.2 s.node ?_ _ mem rfl
  rw [found.level]
  simp

theorem Standing.shorten {t : Tree} {A B : Level} {s : Span Key Nat} {es fs : List Entry}
    {node : Node}
    (st : Standing geo t level ((A ++ (s, es) :: B) :: us)) (view : View geo node fs)
    (sub : fs.Sublist es) :
    Standing geo { t with heap := t.heap.put s.node node } level ((A ++ (s, fs) :: B) :: us) := by
  have page := st.tower.2.1 (s, es) (by simp)
  refine ⟨st.tower.write st.nodup (Moves.put _ List.mem_cons_self _)
    ⟨⟨_, Function.update_self _ _ _, view⟩, page.ok.sublist sub, ?_, page.addr⟩, ?_, st.height⟩
  · exact fun e he => page.live e (sub.subset he)
  · simpa using st.nodup

theorem removeLevel_start (fuel : Nat) {t : Tree} (kp : KeyPtr) {h1 : Heap} {a : Nat} {node : Node}
    (below_ : ¬ t.height < level) (before : deref geo t.heap kp = .ok key)
    (run : findLevel geo t key level = .ok ({ t with heap := h1 }, a))
    (here : h1.node a = some node)
    (after : deref geo h1 kp = .ok key) {pos fill : Nat} (at_ : getpos geo node key = pos)
    (used : getfill geo node pos = fill) :
    btreeRemoveLevel geo (fuel + 1) t kp level =
      if level = 1 ∧ keycmp geo node pos key ≠ 0 then .ok ({ t with heap := h1 }, 0)
      else pairVal geo node pos >>= fun ret =>
        if fill = 0 then .error .bounds
        else
          let node := clearpair geo (shiftDown geo node pos (pos + 1) (fill - 1 - pos)) (fill - 1)
          (if fill - 1 < geo.noPairs / 2 then
            if level < t.height then
              rebalance geo (btreeRemoveLevel geo fuel)
                { t with heap := h1.put a node } kp level a (fill - 1)
            else btreeShrink geo { t with heap := h1.put a node } (fill - 1)
          else .ok { t with heap := h1.put a node }).map fun t => (t, ret) := by
  rw [btreeRemoveLevel, if_neg below_, before]
  simp only [bind, Except.bind]
  rw [run]
  simp only []
  rw [get_ok here, after]
  simp only [at_, used]
  split
  · rfl
  · cases pairVal geo node pos with
    | error fault => rfl
    | ok ret =>
      dsimp only
      split
      · rfl
      · split
        · split
          · rfl
          · rfl
        · rfl

theorem remove_pass (fuel : Nat) {t : Tree} {kp : KeyPtr} {A B : Level} {s : Span Key Nat}
    {E F : List Entry}
    {e : Entry} (st : Standing geo t level ((A ++ (s, E ++ e :: F) :: B) :: us))
    (points : ∀ h, h.node s.node = t.heap.node s.node → deref geo h kp = .ok e.1) :
    ∃ h1 us1 node, addrs us1 = addrs us ∧ us1.length = us.length ∧ h1.node s.node = some node ∧
      View geo node (E ++ F) ∧ Standing geo { t with heap := h1 } level
        ((A ++ (s, E ++ F) :: B) :: us1) ∧
      Moves t.heap h1 (addrs ((A ++ (s, E ++ F) :: B) :: us))
        (addrs ((A ++ (s, E ++ F) :: B) :: us)) ∧
      btreeRemoveLevel geo (fuel + 1) t kp level =
        (if (E ++ F).length < geo.noPairs / 2 then
          if level < t.height then
            rebalance geo (btreeRemoveLevel geo fuel) { t with heap := h1 } kp level s.node
              (E ++ F).length
          else btreeShrink geo { t with heap := h1 } (E ++ F).length
        else .ok { t with heap := h1 }).map fun t => (t, e.2) := by
  have page := st.tower.2.1 (s, E ++ e :: F) (by simp)
  have low := page.ok.low e (by simp)
  have high := page.ok.high e (by simp)
  have len : e.1.length = geo.keylen := by
    obtain ⟨node, _, view⟩ := page.node
    exact view.key_length (by simp)
  obtain ⟨h', us', A', s', es', B', run, found⟩ := findLevel_spec st len
  obtain ⟨rfl, rfl, rfl, rfl⟩ := found.unique rfl (.inl low) high
  have st1 := found.standing st
  have same : (⟨min s'.low e.1, s'.node, s'.high⟩ : Span Key Nat) = s' := by rw [min_eq_left low]
  rw [same] at st1
  have page1 := st1.tower.2.1 (s', E ++ e :: F) (by simp)
  obtain ⟨node, here, view⟩ := page1.node
  obtain ⟨_, sorted, above⟩ := List.pairwise_append.mp page.ok.sorted
  have rest : ∀ x ∈ e :: F, x.1 ≤ e.1 := by
    intro x hx
    rcases List.mem_cons.mp hx with rfl | hx
    · exact le_rfl
    · exact ((List.pairwise_cons.mp sorted).1 x hx).le
  have pos := view.getpos len (fun x hx => above x hx e List.mem_cons_self) rest
  have fill := view.getfill page.live (show E.length ≤ (E ++ e :: F).length by simp)
  have cmp : keycmp geo node E.length e.1 = 0 := (keycmp_zero node _ len).mpr view.key_at
  have moves := Moves.put h' (X := [s'.node]) List.mem_cons_self
    (clearpair geo (shiftDown geo node E.length (E.length + 1) F.length) (E.length + F.length))
  refine ⟨_, us', _, found.addrs, found.length, Function.update_self _ _ _, view.remove,
    st1.shorten view.remove ((List.sublist_cons_self e F).append_left E), ?_, ?_⟩
  · refine (found.moves.widen ?_).trans (moves.widen ?_)
    · exact fun a ha => List.mem_append_right _ ha
    · simp
  · have below_ : ¬ t.height < level := by
      have height := st.height
      rw [List.length_cons] at height
      omega
    have count : (E ++ e :: F).length - 1 = (E ++ F).length := by simp
    have last : (E ++ F).length - E.length = F.length := by simp
    have some_ : (E ++ e :: F).length ≠ 0 := by simp
    rw [removeLevel_start fuel kp below_ (points _ rfl) run here
      (points _ (found.kept st)) pos fill]
    simp only [cmp, ne_eq, not_true_eq_false, and_false, if_false, view.pairVal, bind, Except.bind,
      if_neg some_,
      count, last]
    rw [List.length_append]

def Removed (geo : Geo) (h : Heap) (level : Nat) (t : Tree) (r : Level) (us : List Level)
    (t' : Tree) : Prop :=
  (∃ r' us', Settled geo h level r us t' r' us' ∧ rowEntries r ≠ [] ∧
    (1 < t.height → 2 ≤ (rowEntries r).length)) ∨
  us = [] ∧ ∃ es, r = [(top geo t.node, es)] ∧ t'.height = t.height - 1 ∧
    (es = [] ∧ t'.node = 0 ∨ ∃ x, es = [x] ∧ t'.node = x.2 ∧ 1 < t.height) ∧
    Moves h t'.heap [t.node] []

theorem btreeShrink_spec {t : Tree} {es : List Entry} {node : Node}
    (st : Standing geo t level [[(top geo t.node, es)]])
    (here : t.heap.node t.node = some node) (view : View geo node es) :
    ∃ t', btreeShrink geo t es.length = .ok t' ∧
      Removed geo t.heap level t [(top geo t.node, es)] [] t' := by
  have flat : rowEntries [(top geo t.node, es)] = es := by simp [rowEntries]
  unfold btreeShrink
  by_cases drop : es.length = 0 ∨ es.length = 1 ∧ 1 < t.height
  · rw [if_pos drop, get_ok here]
    simp only [bind, Except.bind]
    rw [free_ok (here ▸ Option.some_ne_none node)]
    refine ⟨_, rfl, .inr ⟨rfl, es, rfl, rfl, ?_, .freed _ _ _⟩⟩
    rcases drop with none_ | ⟨single, tall⟩
    · obtain rfl := List.eq_nil_of_length_eq_zero none_
      have four := geo.four
      exact .inl ⟨rfl, congrArg Prod.snd (view.val_past (le_refl _) (by simp; omega))⟩
    · obtain ⟨x, rfl⟩ := List.length_eq_one_iff.mp single
      exact .inr ⟨x, rfl, View.val_at (A := []) view, tall⟩
  · rw [if_neg drop]
    refine ⟨t, rfl, .inl ⟨_, _, ⟨st, fun more => absurd rfl more, rfl, .refl _, .refl _ _⟩, ?_,
      fun tall => ?_⟩⟩
    · rw [flat]
      rintro rfl
      exact drop (.inl rfl)
    · rw [flat]
      omega

theorem remove_rest {n fuel : Nat} {t : Tree} (kp : KeyPtr) {A B : Level} {s : Span Key Nat}
    {es : List Entry}
    {node : Node} (size : us.length = n)
    (lowers : 0 < n → Lowers geo (level + 1) (n - 1) (btreeRemoveLevel geo fuel))
    (st : Standing geo t level ((A ++ (s, es) :: B) :: us)) (others : Wide (A ++ B) us)
    (some : us ≠ [] → 1 ≤ es.length) (here : t.heap.node s.node = Option.some node)
    (view : View geo node es)
    (len : key.length = geo.keylen) (low : s.low ≤ key) (high : (key : WithTop Key) < s.high)
    (next : ∀ h, h.node s.node = Option.some node → deref geo h kp = .ok key) :
    ∃ t', (if es.length < geo.noPairs / 2 then
          if level < t.height then rebalance geo
            (btreeRemoveLevel geo fuel) t kp level s.node es.length
          else btreeShrink geo t es.length
        else .ok t) = .ok t' ∧ Removed geo t.heap level t (A ++ (s, es) :: B) us t' := by
  have four := geo.four
  have height := st.height
  cases us with
  | nil =>
    obtain ⟨rfl, rfl, rfl⟩ : A = [] ∧ B = [] ∧ s = top geo t.node := by
      have spans_ := st.tower.1
      cases A with
      | nil =>
        obtain ⟨same, rest⟩ := List.cons.inj spans_
        exact ⟨rfl, List.map_eq_nil_iff.mp rest, same⟩
      | cons p A => exact absurd (List.cons.inj spans_).2 (by simp)
    have flat : rowEntries [(top geo t.node, es)] = es := by simp [rowEntries]
    have root : ¬ level < t.height := by
      rw [List.length_singleton] at height
      omega
    rw [if_neg root]
    split
    · exact btreeShrink_spec st here view
    · refine ⟨t, rfl, .inl ⟨_, _, ⟨st, fun more => absurd rfl more, rfl, .refl _, .refl _ _⟩, ?_,
        fun _ => ?_⟩⟩
      · rw [List.nil_append, flat]
        exact List.ne_nil_of_length_pos (by omega)
      · rw [List.nil_append, flat]
        omega
  | cons u us =>
    have others' := others (List.cons_ne_nil _ _)
    have some' := some (List.cons_ne_nil _ _)
    have wide : ∀ p, p ∈ A ∨ p ∈ B → 2 ≤ p.2.length :=
      fun p hp => others' p (List.mem_append.mpr hp)
    have many : 2 ≤ (rowEntries (A ++ (s, es) :: B)).length := by
      rw [rowEntries_append, rowEntries_cons, List.length_append, List.length_append]
      rcases st.brothers with more | more
      · obtain ⟨p, v, rfl⟩ := List.exists_cons_of_ne_nil more
        have two := wide p (.inl List.mem_cons_self)
        simp only [rowEntries_cons, List.length_append]
        omega
      · obtain ⟨p, v, rfl⟩ := List.exists_cons_of_ne_nil more
        have two := wide p (.inr List.mem_cons_self)
        simp only [rowEntries_cons, List.length_append]
        omega
    have more := List.ne_nil_of_length_pos (Nat.lt_of_lt_of_le Nat.zero_lt_two many)
    have inner : level < t.height := by
      simp only [List.length_cons] at height
      omega
    rw [if_pos inner]
    split
    · have lowers' : Lowers geo (level + 1) us.length (btreeRemoveLevel geo fuel) := by
        rw [List.length_cons] at size
        rw [show us.length = n - 1 by omega]
        exact lowers (by omega)
      obtain ⟨t', r', us', done, made⟩ :=
        rebalance_spec lowers' st wide some' len low high fun h same =>
        next h (same.trans here)
      exact ⟨t', done, .inl ⟨r', us', made, more, fun _ => many⟩⟩
    · refine ⟨_, rfl, .inl ⟨_, _, ⟨st, fun _ p hp => ?_, rfl, .refl _, .refl _ _⟩, more,
        fun _ => many⟩⟩
      simp only [List.mem_append, List.mem_cons] at hp
      rcases hp with hp | rfl | hp
      · exact wide p (.inl hp)
      · dsimp only
        omega
      · exact wide p (.inr hp)

theorem Removed.from {h h1 : Heap} {t t1 : Tree} {r : Level} {us1 : List Level} {t' : Tree}
    (removed : Removed geo h1 level t1 r us1 t') (node : t1.node = t.node)
    (height : t1.height = t.height)
    (same : addrs us1 = addrs us) (length : us1.length = us.length)
    (moves : Moves h h1 (addrs (r :: us)) (addrs (r :: us))) : Removed geo h level t r us t' := by
  rcases removed with ⟨r', us', made, more, many⟩ | ⟨rfl, es, rfl, low, left, gone⟩
  · refine .inl ⟨r', us', ⟨made.standing, made.wide, made.entries, made.looser, moves.trans ?_⟩,
      more,
      height ▸ many⟩
    have after := made.moves
    simp only [addrs_cons, same] at after ⊢
    exact after
  · obtain rfl := List.eq_nil_of_length_eq_zero length.symm
    rw [node] at moves gone ⊢
    rw [height] at low left
    have before : Moves h h1 [t.node] [t.node] := by simpa [top] using moves
    exact .inr ⟨rfl, es, rfl, low, left, before.trans gone⟩

/-- What the level becomes when one of its entries is removed. -/
theorem remove_level {n fuel : Nat} {t : Tree} (kp : KeyPtr) {A B : Level} {s : Span Key Nat}
    {E F : List Entry}
    {e : Entry} (size : us.length = n)
    (lowers : 0 < n → Lowers geo (level + 1) (n - 1) (btreeRemoveLevel geo fuel))
    (st : Standing geo t level ((A ++ (s, E ++ e :: F) :: B) :: us))
    (wide : Wide (A ++ (s, E ++ e :: F) :: B) us)
    (points : ∀ h, h.node s.node = t.heap.node s.node → deref geo h kp = .ok e.1)
    (len : key.length = geo.keylen) (low : s.low ≤ key) (high : (key : WithTop Key) < s.high)
    (next : ∀ h node, h.node s.node = some node → View geo node (E ++ F) →
    deref geo h kp = .ok key) :
    ∃ t', btreeRemoveLevel geo (fuel + 1) t kp level = .ok (t', e.2) ∧
      Removed geo t.heap level t (A ++ (s, E ++ F) :: B) us t' := by
  obtain ⟨h1, us1, node, addrs1, length1, here, view, st1, moves1, run⟩ :=
    remove_pass fuel st points
  have inner : ∀ {v : List Level}, v.length = us.length → v ≠ [] → us ≠ [] := by
    rintro v same some rfl
    exact some (List.eq_nil_of_length_eq_zero same)
  have others : Wide (A ++ B) us1 := by
    intro some p hp
    exact wide (inner length1 some) p (by rcases List.mem_append.mp hp with hp | hp <;> simp [hp])
  have left : us1 ≠ [] → 1 ≤ (E ++ F).length := by
    intro some
    have two := wide (inner length1 some) (s, E ++ e :: F) (by simp)
    simp only [List.length_append, List.length_cons] at two ⊢
    omega
  obtain ⟨t', rest, removed⟩ := remove_rest kp
    (length1.trans size) lowers st1 others left here view len low high
    fun h same => next h node same view
  refine ⟨t', ?_, removed.from rfl rfl addrs1 length1 moves1⟩
  rw [run, rest]
  rfl

theorem deref_pair {h : Heap} {a : Nat} {node : Node} {E F : List Entry} {e : Entry}
    (here : h.node a = some node)
    (view : View geo node (E ++ e :: F)) : deref geo h (.pair a E.length) = .ok e.1 := by
  simp only [deref]
  rw [get_ok here]
  exact congrArg Except.ok view.key_at

theorem lowers_of_above {n fuel : Nat} (inner : 1 < level)
    (above : 0 < n → Lowers geo (level + 1) (n - 1) (btreeRemoveLevel geo fuel)) :
    Lowers geo level n (btreeRemoveLevel geo (fuel + 1)) := by
  intro t A B s E el er F us size st filled
  have page := st.tower.2.1 (s, E ++ el :: er :: F) (by simp)
  obtain ⟨node, here, view⟩ := page.node
  obtain ⟨t', run, made⟩ := remove_level (.pair s.node E.length) (F := er :: F) size above st
    (fun _ => filled _ List.mem_cons_self) (fun h same => deref_pair (same.trans here) view)
    (view.key_length (e := er) (by simp)) (page.ok.low er (by simp)) (page.ok.high er (by simp))
    fun h node here view => deref_pair here view
  rcases made with ⟨r', us', made, _, many⟩ | ⟨rfl, es, row, height, node_, moves⟩
  · have tall : 1 < t.height := by
      have height := st.height
      rw [List.length_cons] at height
      omega
    have addrs_ : addrs ((A ++ (s, E ++ er :: F) :: B) :: us) =
        addrs ((A ++ (s, E ++ el :: er :: F) :: B) :: us) := by simp
    exact ⟨t', _, run, made.standing, made.filled (many tall), made.looser, addrs_ ▸ made.moves⟩
  · obtain ⟨rfl, rfl, rfl, rfl⟩ : A = [] ∧ B = [] ∧ s = top geo t.node ∧ E ++ er :: F = es := by
      cases A with
      | nil =>
        obtain ⟨page, rfl⟩ := List.cons.inj row
        exact ⟨rfl, rfl, congrArg Prod.fst page, congrArg Prod.snd page⟩
      | cons p A => exact absurd (List.cons.inj row).2 (by simp)
    rcases node_ with ⟨none_, _⟩ | ⟨x, single, child, tall⟩
    · exact absurd none_ (by simp)
    · have levels := st.height
      rw [List.length_singleton] at levels
      refine ⟨t', [], run, ⟨trivial, List.nodup_nil, ?_⟩,
        by simp [Filled], ?_, by simpa [top] using moves⟩
      · rw [height, List.length_nil]
        omega
      · rw [single]
        have low := page.ok.low x (by
          have mem : x ∈ E ++ er :: F := by simp [single]
          rcases List.mem_append.mp mem with mem | mem <;> simp [mem])
        exact .cons ⟨child, low, le_rfl⟩ .nil

/-- A removal at an inner level, by induction on the number of levels above it. -/
theorem removeLevel_spec (n fuel : Nat) (enough : n < fuel) (level : Nat) (inner : 1 < level) :
    Lowers geo level n (btreeRemoveLevel geo fuel) := by
  induction n generalizing fuel level with
  | zero =>
    obtain ⟨fuel, rfl⟩ := Nat.exists_eq_succ_of_ne_zero (Nat.ne_of_gt enough)
    exact lowers_of_above inner fun more => absurd more (lt_irrefl 0)
  | succ n ih =>
    obtain ⟨fuel, rfl⟩ := Nat.exists_eq_succ_of_ne_zero (Nat.ne_of_gt (Nat.zero_lt_of_lt enough))
    exact lowers_of_above inner fun _ =>
      ih fuel (Nat.lt_of_succ_lt_succ enough) (level + 1) (by omega)

end Btree
