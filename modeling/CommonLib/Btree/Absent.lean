import CommonLib.Btree.Contract

/- Removing a key that is not stored: `btree_remove_level` compares it with the pair at its
   position, which may be an empty pair, or lie past the last one. -/
namespace Btree
open OrderedTree
variable {geo : Geo} {h : Heap} {key : Key} {root : Nat} {us : List Level}

section Leaf
variable (geo : Geo) (h : Heap) (key : Key)

def childFor (a : Nat) : Nat :=
  match h.node a with
  | none => 0
  | some node =>
    let i := getpos geo node key
    if i = geo.noPairs ∨ bval geo node i = 0 then bval geo node (i - 1) else bval geo node i

def leafFor : Nat → Nat → Nat
  | 0, a => a
  | n + 1, a => childFor geo h key (leafFor n a)

/-- In its leaf the key is taken for one that is stored: it is all zero like the empty pairs,
    or the leaf is full of larger keys and the values at its start read like the key. -/
def FalseMatch (t : Tree) : Prop :=
  t.height ≠ 0 ∧ ∃ node, t.heap.node (leafFor geo t.heap key (t.height - 1) t.node) = some node ∧
    (getfill geo node 0 < geo.noPairs ∧ key = zeroKey geo ∨
      getfill geo node 0 = geo.noPairs ∧ (∀ i < geo.noPairs, key < bkey geo node i) ∧
        bkey geo node geo.noPairs = key)

end Leaf

/-! ### The leaf of a key -/

def Last (key : Key) (p : Page Key Nat) (B : Level) : Prop :=
  (key : WithTop Key) < p.1.high ∧ ∀ q ∈ B, q.1.high ≤ key

theorem Last.unique {A B A' B' : Level} {p p' : Page Key Nat} (last : Last key p B)
    (last' : Last key p' B')
    (same : A ++ p :: B = A' ++ p' :: B') : p = p' := by
  rcases List.append_eq_append_iff.mp same with ⟨M, _, rest⟩ | ⟨M, _, rest⟩
  · cases M with
    | nil => exact (List.cons.inj rest).1
    | cons x M =>
      have after := last.2 p' (by rw [(List.cons.inj rest).2]; simp)
      exact absurd (last'.1.trans_le after) (lt_irrefl _)
  · cases M with
    | nil => exact (List.cons.inj rest).1.symm
    | cons x M =>
      have after := last'.2 p (by rw [(List.cons.inj rest).2]; simp)
      exact absurd (last.1.trans_le after) (lt_irrefl _)

theorem childFor_spec {s : Span Key Nat} {E F : List Entry} {node : Node}
    (here : h.node s.node = some node)
    (view : View geo node (E ++ F)) (live : ∀ e ∈ E ++ F, e.2 ≠ 0) (some_ : E ++ F ≠ [])
    (len : key.length = geo.keylen) (above : ∀ e ∈ E, key < e.1) (rest : ∀ e ∈ F, e.1 ≤ key) :
    ∃ E' e F', E ++ F = E' ++ e :: F' ∧ childFor geo h key s.node = e.2 ∧ (∀ x ∈ E', key < x.1) ∧
      (e.1 ≤ key ∨ F' = []) := by
  have pos := view.getpos len above rest
  have room := view.room
  rw [List.length_append] at room
  unfold childFor
  rw [here]
  simp only [pos]
  cases F with
  | nil =>
    rw [List.append_nil] at *
    obtain ⟨E, e, rfl⟩ := (List.eq_nil_or_concat E).resolve_left some_
    rw [List.concat_eq_append] at *
    refine ⟨E, e, [], rfl, ?_, fun x hx => above x (by simp [hx]), .inr rfl⟩
    have last : (E ++ [e]).length - 1 = E.length := by simp
    rw [if_pos, last, view.val_at]
    rcases Nat.lt_or_eq_of_le view.room with free | full
    · exact .inr (congrArg Prod.snd (view.val_past (le_refl _) free))
    · exact .inl full
  | cons e F =>
    refine ⟨E, e, F, rfl, ?_, above, .inl (rest e List.mem_cons_self)⟩
    rw [List.length_cons] at room
    rw [if_neg, view.val_at]
    rw [view.val_at]
    rintro (full | null)
    · omega
    · exact live e (by simp) null

theorem leafFor_spec (us : List Level) (r : Level) (tower : Tower geo h root (r :: us))
    (len : key.length = geo.keylen) :
    ∃ A p B, r = A ++ p :: B ∧ p.1.node = leafFor geo h key us.length root ∧ Last key p B := by
  induction us generalizing r with
  | nil =>
    obtain ⟨p, rfl, same⟩ := List.map_eq_singleton_iff.mp tower.1
    refine ⟨[], p, [], rfl, by rw [same]; rfl, ?_, by simp⟩
    rw [same]
    exact WithTop.coe_lt_top _
  | cons u us ih =>
    obtain ⟨spans_, _, filled, rest⟩ := tower
    obtain ⟨A, p, B, rfl, node_, high, after⟩ := ih u rest
    obtain ⟨s, es⟩ := p
    have page := rest.2.1 (s, es) (by simp)
    have two := filled _ List.mem_cons_self (s, es) (by simp)
    obtain ⟨node, here, view⟩ := page.node
    obtain ⟨E, F, rfl, above, under⟩ := exists_cut page.ok.sorted key
    obtain ⟨E', e, F', parts, child, above', bound⟩ := childFor_spec here view page.live
      (List.ne_nil_of_length_pos (by dsimp only at two; omega)) len above under
    rw [parts] at spans_
    obtain ⟨A', es', B', rfl, _, right⟩ := level_focus (spans_.trans (below_focus A B s E' F' e))
    refine ⟨A', (⟨e.1, e.2, cut s.high E'⟩, es'), B', rfl, ?_, lt_cut high above', ?_⟩
    · rw [List.length_cons, leafFor, ← node_, child]
    · intro q hq
      have span := List.mem_map_of_mem (f := Prod.fst) hq
      rw [right] at span
      rcases List.mem_append.mp span with span | span
      · rcases bound with le | rfl
        · have sorted := page.ok.sorted
          rw [parts] at sorted
          obtain ⟨next, sortedF⟩ := List.pairwise_cons.mp (List.pairwise_append.mp sorted).2.1
          have lower : ∀ f ∈ F', s.low ≤ f.1 := fun f hf => page.ok.low f (by rw [parts]; simp [hf])
          have inside := (spans_bounds (e.1 : WithTop Key) sortedF
            (fun f hf => WithTop.coe_lt_coe.mpr (next f hf)) lower).2 _ span
          exact inside.2.2.trans (WithTop.coe_le_coe.mpr le)
        · exact absurd span List.not_mem_nil
      · obtain ⟨p, hp, span⟩ := List.mem_flatMap.mp span
        have inside := ((rest.2.1 p (by simp [hp])).ok.spans.2 _ span).2.2
        exact inside.trans (after p hp)

theorem Found.leafFor {t : Tree} {r A B : Level} {s : Span Key Nat} {es : List Entry} {h1 : Heap}
    {us1 : List Level} (st : Standing geo t 1 (r :: us)) (len : key.length = geo.keylen)
    (found : Found geo t.heap t.node us r key h1 us1 A s es B) :
    leafFor geo t.heap key (t.height - 1) t.node = s.node := by
  obtain ⟨A', p, B', row, node, last⟩ := leafFor_spec us r st.tower len
  have apart := Tower.apart found.tower.2.2.2
  rw [← found.tower.1, List.map_append, List.map_cons] at apart
  have after := (List.pairwise_cons.mp (List.pairwise_append.mp apart).2.1).1
  have last' : Last key (s, es) B := by
    refine ⟨found.high, fun q hq => ?_⟩
    have le := after q.1 (List.mem_map_of_mem hq)
    exact le.trans (WithTop.coe_le_coe.mpr (min_le_right _ _))
  obtain rfl := last.unique last' (row.symm.trans found.level)
  have height := st.height
  rw [List.length_cons] at height
  rw [show t.height - 1 = us.length by omega]
  exact node.symm

/-! ### The removal -/

theorem Standing.page_ne {t : Tree} {level : Nat} {A B : Level} {s : Span Key Nat} {es : List Entry}
    (st : Standing geo t level ((A ++ (s, es) :: B) :: us)) (wide : Wide (A ++ (s, es) :: B) us)
    (more : rowEntries (A ++ (s, es) :: B) ≠ []) : es ≠ [] := by
  rintro rfl
  cases us with
  | nil =>
    obtain ⟨p, single, _⟩ := List.map_eq_singleton_iff.mp st.tower.1
    have mem : (s, []) ∈ A ++ (s, []) :: B := by simp
    rw [single] at more mem
    rw [← List.mem_singleton.mp mem] at more
    exact more rfl
  | cons u us =>
    have two := wide (List.cons_ne_nil _ _) (s, []) (by simp)
    exact absurd two (by simp)

/-- The comparison of `btree_remove_level` for a key that is not in its leaf. -/
theorem falseMatch_iff {t : Tree} {a : Nat} {node : Node} {E F : List Entry} (some_ : t.height ≠ 0)
    (leaf : leafFor geo t.heap key (t.height - 1) t.node = a) (here : t.heap.node a = some node)
    (view : View geo node (E ++ F)) (live : ∀ e ∈ E ++ F, e.2 ≠ 0) (len : key.length = geo.keylen)
    (above : ∀ e ∈ E, key < e.1) (next : ∀ e ∈ F, e.1 < key) :
    FalseMatch geo key t ↔ keycmp geo node E.length key = 0 := by
  have fill := view.getfill live (Nat.zero_le _)
  have room := view.room
  have found : FalseMatch geo key t ↔ (getfill geo node 0 < geo.noPairs ∧ key = zeroKey geo ∨
      getfill geo node 0 = geo.noPairs ∧ (∀ i < geo.noPairs, key < bkey geo node i) ∧
        bkey geo node geo.noPairs = key) := by
    constructor
    · rintro ⟨_, node', here', holds⟩
      obtain rfl := Option.some.inj (here.symm.trans (leaf ▸ here'))
      exact holds
    · exact fun holds => ⟨some_, node, by rw [leaf]; exact here, holds⟩
  rw [found, fill, keycmp_zero node _ len]
  cases F with
  | cons f F =>
    have less := next f List.mem_cons_self
    rw [List.length_append, List.length_cons] at room
    rw [view.key_at]
    constructor
    · rintro (⟨_, rfl⟩ | ⟨_, larger, _⟩)
      · have least := zero_le_key f.1
        rw [view.key_length (e := f) (by simp)] at least
        exact absurd less least.not_gt
      · have at_ := larger E.length (by omega)
        rw [view.key_at] at at_
        exact absurd less at_.not_gt
    · exact fun same => absurd same less.ne
  | nil =>
    rw [List.append_nil] at *
    rcases Nat.lt_or_eq_of_le room with free | full
    · have empty : bkey geo node E.length = zeroKey geo :=
        congrArg Prod.fst (view.val_past (le_refl _) free)
      rw [empty]
      constructor
      · rintro (⟨_, rfl⟩ | ⟨full, _⟩)
        · rfl
        · omega
      · exact fun same => .inl ⟨free, same.symm⟩
    · rw [full]
      constructor
      · rintro (⟨free, _⟩ | ⟨_, _, same⟩)
        · exact absurd free (lt_irrefl _)
        · exact same
      · refine fun same => .inr ⟨rfl, fun i hi => ?_, same⟩
        rw [view.key_get (full ▸ hi)]
        exact above _ (List.getElem_mem _)

theorem removed_last {t : Tree} {h1 : Heap} {A B : Level} {s : Span Key Nat} {E : List Entry}
    {e : Entry}
    {node : Node} (st : Standing geo ⟨t.node, t.height, h1⟩ 1 ((A ++ (s, E ++ [e]) :: B) :: us))
    (wide : Wide (A ++ (s, E ++ [e]) :: B) us) (view : View geo node (E ++ [e]))
    (len : key.length = geo.keylen)
    (low : s.low ≤ key) (high : (key : WithTop Key) < s.high) :
    ∃ t', (if E.length < geo.noPairs / 2 then
          if 1 < t.height then
            rebalance geo (btreeRemoveLevel geo t.height)
              { t with heap := h1.put s.node (clearpair geo node E.length) }
              (.buffer key) 1 s.node E.length
          else btreeShrink geo { t with heap := h1.put s.node (clearpair geo node E.length) }
            E.length
        else .ok { t with heap := h1.put s.node (clearpair geo node E.length) }) = .ok t' ∧
      Holds geo t' (rowEntries A ++ E ++ rowEntries B) := by
  have height := st.height
  rw [List.length_cons] at height
  have view' : View geo (clearpair geo node E.length) E := view.dropRight
  have short := st.shorten view' (List.sublist_append_left E [e])
  have others : Wide (A ++ B) us := fun inner p hp =>
    wide inner p (by rcases List.mem_append.mp hp with hp | hp <;> simp [hp])
  have left : us ≠ [] → 1 ≤ E.length := by
    intro inner
    have two := wide inner (s, E ++ [e]) (by simp)
    simp only [List.length_append, List.length_singleton] at two
    omega
  have lowers : 0 < us.length → Lowers geo (1 + 1) (us.length - 1) (btreeRemoveLevel geo t.height) := by
    intro inner
    dsimp only at height
    exact removeLevel_spec (us.length - 1) t.height (by omega) 2 (by omega)
  obtain ⟨t', rest, removed⟩ := remove_rest (.buffer key) rfl lowers short others left
    (Function.update_self _ _ _)
    view' len low high fun _ _ => rfl
  refine ⟨t', rest, ?_⟩
  have held := removed.holds height
  simpa using held

/-- An absent key is left alone, unless it is falsely matched: then another entry is lost. -/
theorem Holds.removeAbsent {t : Tree} {es : List Entry} (holds : Holds geo t es)
    (len : key.length = geo.keylen)
    (absent : contents es key = none) :
    ¬ FalseMatch geo key t ∧ (∃ t', btreeRemove geo t key = .ok (t', 0) ∧ Holds geo t' es) ∨
    FalseMatch geo key t ∧ ∀ t' ret, btreeRemove geo t key = .ok (t', ret) →
      ∃ P e Q, es = P ++ e :: Q ∧ Holds geo t' (P ++ Q) := by
  rcases holds with ⟨none_, flat, rfl⟩ | ⟨r, us, st, wide, rfl, more⟩
  · refine .inl ⟨fun falsely => falsely.1 flat, t, ?_, .inl ⟨none_, flat, rfl⟩⟩
    unfold btreeRemove
    rw [if_pos flat]
  · have height := st.height
    rw [List.length_cons] at height
    have some_ : t.height ≠ 0 := by omega
    obtain ⟨h1, us1, A, s, es, B, run, found⟩ := findLevel_spec st len
    have leaf := found.leafFor st len
    have kept := found.kept st
    have st1 := found.standing st
    have page := st1.tower.2.1 (⟨min s.low key, s.node, s.high⟩, es) (by simp)
    obtain ⟨rfl, high, _, addrs1, length1, _⟩ := found
    obtain ⟨node, here, view⟩ := page.node
    obtain ⟨E, F, rfl, above, rest⟩ := exists_cut page.ok.sorted key
    have next : ∀ e ∈ F, e.1 < key := fun e he =>
      lt_of_le_of_ne (rest e he) (contents_none_iff.mp absent e (by simp [he]))
    have falsely := falseMatch_iff some_ leaf (kept.symm.trans here) view page.live len above next
    have pos := view.getpos len above rest
    have fill := view.getfill page.live (show E.length ≤ (E ++ F).length by simp)
    have start : btreeRemove geo t key = _ :=
      (if_neg some_).trans (removeLevel_start t.height (.buffer key)
      (by omega) rfl run here rfl pos fill)
    rw [start]
    by_cases matched : FalseMatch geo key t
    · refine .inr ⟨matched, ?_⟩
      rw [if_neg fun differs => differs.2 (falsely.mp matched)]
      intro t' ret done
      -- the position is past the entries, and the last of them is cleared
      obtain rfl : F = [] := by
        cases F with
        | nil => rfl
        | cons f F =>
          have same := (keycmp_zero node _ len).mp (falsely.mp matched)
          rw [view.key_at] at same
          exact absurd same (next f List.mem_cons_self).ne
      rw [List.append_nil] at *
      have some' : E ≠ [] := by
        rintro rfl
        exact st.page_ne wide more rfl
      obtain ⟨E, e, rfl⟩ := (List.eq_nil_or_concat E).resolve_left some'
      rw [List.concat_eq_append] at *
      have size : (E ++ [e]).length ≠ 0 := by simp
      have last : (E ++ [e]).length - 1 = E.length := by simp
      have none_left : E.length - (E ++ [e]).length = 0 := by simp
      cases read : pairVal geo node (E ++ [e]).length with
      | error fault =>
        rw [read] at done
        exact nomatch done
      | ok val =>
        rw [read] at done
        simp only [bind, Except.bind, if_neg size, last, none_left] at done
        obtain ⟨t2, rest, held⟩ := removed_last st1 (wide_found key wide length1) view len
          (min_le_right _ _) high
        have rest' : _ = Except.ok t2 := rest
        rw [shiftDown, rest'] at done
        obtain ⟨rfl, _⟩ := Prod.mk.inj (Except.ok.inj done)
        exact ⟨rowEntries A ++ E, e, rowEntries B, by simp, held⟩
    · rw [if_pos ⟨rfl, fun same => matched (falsely.mpr same)⟩]
      refine .inl ⟨matched, _, rfl, .inr ⟨_, us1, st1, wide_found key wide length1, ?_, ?_⟩⟩
      · exact entries_found key
      · exact more

/-! ### Runs that remove whatever key they like -/

/-- The calls that are made: no key is inserted twice, but any key may be removed. -/
def Call.Loose (geo : Geo) (m : Store) : Call → Prop
  | .insert _ key val => key.length = geo.keylen ∧ m key = none ∧ val ≠ 0
  | .remove key => key.length = geo.keylen
  | .lookup key => key.length = geo.keylen

theorem Reached.loose_holds {t : Tree} (reached : Reached geo (Call.Loose geo) t) :
    Holds geo t (stored geo t) := by
  induction reached with
  | init h => exact init_holds h
  | @call t t' c r before allowed done ih =>
    -- a call that the interface allows, or a removal of an absent key
    have ended : c.Ok geo (contents (stored geo t)) → Holds geo t' (stored geo t') := by
      intro ok
      obtain ⟨t2, _, es, stepped, held, _⟩ := step_spec ih c ok
      obtain ⟨rfl, _⟩ := Prod.mk.inj (Except.ok.inj (stepped.symm.trans done))
      rw [held.stored]
      exact held
    cases c with
    | insert mem key val => exact ended allowed
    | lookup key => exact ended allowed
    | remove key =>
      by_cases absent : contents (stored geo t) key = none
      · obtain ⟨t2, ret, removed, same⟩ : ∃ t2 ret, btreeRemove geo t key = .ok (t2, ret) ∧
          t2 = t' := by
          simp only [step] at done
          cases removed : btreeRemove geo t key with
          | error fault =>
            rw [removed] at done
            cases done
          | ok p =>
            rw [removed] at done
            exact ⟨p.1, p.2, rfl, (Prod.mk.inj (Except.ok.inj done)).1⟩
        subst same
        rcases ih.removeAbsent allowed absent with ⟨_, t3, run, held⟩ | ⟨_, lost⟩
        · obtain ⟨rfl, _⟩ := Prod.mk.inj (Except.ok.inj (run.symm.trans removed))
          rw [held.stored]
          exact held
        · obtain ⟨P, e, Q, _, held⟩ := lost _ _ removed
          rw [held.stored]
          exact held
      · exact ended ⟨allowed, absent⟩

/-- Removing an absent key returns NULL and keeps the map just when the key is not falsely matched. -/
theorem absent_kept_iff (geo : Geo) (t : Tree) (reached : Reached geo (Call.Loose geo) t)
    (key : Key)
    (len : key.length = geo.keylen) (absent : contents (stored geo t) key = none) :
    (∃ t', btreeRemove geo t key = .ok (t', 0) ∧
    contents (stored geo t') = contents (stored geo t)) ↔
      ¬ FalseMatch geo key t := by
  have holds := reached.loose_holds
  rcases holds.removeAbsent len absent with ⟨clean, t', run, held⟩ | ⟨falsely, lost⟩
  · refine ⟨fun _ => clean, fun _ => ⟨t', run, ?_⟩⟩
    rw [held.stored]
  · refine ⟨?_, fun clean => absurd falsely clean⟩
    rintro ⟨t', run, same⟩ _
    obtain ⟨P, e, Q, parts, held⟩ := lost _ _ run
    have sorted := holds.decreasing
    rw [held.stored, parts] at same
    rw [parts] at sorted
    have gone := congrFun (contents_remove sorted) e.1
    rw [same, contents_at sorted, Function.update_self] at gone
    exact nomatch gone

theorem oneKey_kept_iff : ∃ t, stored btreeGeo32 t = [([5], 7)] ∧
    ((∃ t', btreeRemove btreeGeo32 t [3] = .ok (t', 0) ∧
      contents (stored btreeGeo32 t') = contents (stored btreeGeo32 t)) ↔
        ¬ FalseMatch btreeGeo32 [3] t) :=
  ⟨_, rfl, absent_kept_iff btreeGeo32 _
    (.call (c := .insert bump [5] 7) (.init emptyHeap) ⟨rfl, rfl, by decide⟩ rfl) [3] rfl rfl⟩

/-- Key 5 alone is stored; a removal of key 0 returns NULL and takes key 5 away. -/
theorem zeroKey_takes_another : ∃ t t', Reached btreeGeo32 (Call.Loose btreeGeo32) t ∧
    contents (stored btreeGeo32 t) [0] = none ∧ btreeRemove btreeGeo32 t [0] = .ok (t', 0) ∧
    contents (stored btreeGeo32 t) [5] = some 7 ∧ contents (stored btreeGeo32 t') [5] = none := by
  refine ⟨_, _, .call (c := .insert bump [5] 7) (.init emptyHeap) ⟨rfl, rfl,
    by decide⟩ rfl, ?_, rfl, ?_, ?_⟩
  · rfl
  · rfl
  · rfl

end Btree
