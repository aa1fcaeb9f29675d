import CommonLib.Btree.Descend
import CommonLib.OrderedTree.OrderedList
import Mathlib.Order.OrderDual

/- `btree_lookup`: it answers for the entries of the leaves, whatever the keys of the inner
   nodes have become. -/
namespace Btree
open OrderedTree
variable {geo : Geo} {h : Heap} {key : Key} {root : Nat} {us : List Level}

/-! ### The map in the leaves -/

def rank (e : Entry) : Keyᵒᵈ := OrderDual.toDual e.1

def contents (es : List Entry) : Key → Option Nat :=
  fun k => (lookup rank es (OrderDual.toDual k)).map Prod.snd

def Decreasing (es : List Entry) : Prop := es.Pairwise fun e f => f.1 < e.1

theorem Decreasing.ordered {es : List Entry} (sorted : Decreasing es) : Ordered rank es :=
  sorted.imp fun less => less

theorem contents_at {E F : List Entry} {e : Entry} (sorted : Decreasing (E ++ e :: F)) :
    contents (E ++ e :: F) e.1 = some e.2 := by
  have found : lookup rank (E ++ e :: F) (OrderDual.toDual e.1) = some e := lookup_at sorted.ordered
  rw [contents, found]
  rfl

theorem contents_none_iff {es : List Entry} : contents es key = none ↔ ∀ e ∈ es, e.1 ≠ key := by
  rw [contents, Option.map_eq_none_iff, lookup_none_iff]
  rfl

/-! ### The leaf -/

theorem firstFrom_stop (p : Nat → Bool) (i n : Nat) :
    firstFrom p i n = i + n ∨ firstFrom p i n < i + n ∧ p (firstFrom p i n) = true := by
  induction n generalizing i with
  | zero => exact .inl rfl
  | succ n ih =>
    unfold firstFrom
    by_cases here : p i = true
    · rw [if_pos here]
      exact .inr ⟨by omega, here⟩
    · rw [if_neg here]
      rcases ih (i + 1) with past | ⟨inside, stop⟩
      · exact .inl (by omega)
      · exact .inr ⟨by omega, stop⟩

theorem View.search {node : Node} {es : List Entry} (v : View geo node es) (sorted : Decreasing es)
    (len : key.length = geo.keylen) :
    (if firstFrom (fun i => keycmp geo node i key = 0) 0 geo.noPairs = geo.noPairs then 0
      else bval geo node (firstFrom (fun i => keycmp geo node i key = 0) 0 geo.noPairs)) =
      (contents es key).getD 0 := by
  by_cases mem : ∃ e ∈ es, e.1 = key
  · obtain ⟨e, he, rfl⟩ := mem
    obtain ⟨E, F, rfl⟩ := List.append_of_mem he
    have room := v.room
    rw [List.length_append, List.length_cons] at room
    have first : firstFrom (fun i => keycmp geo node i e.1 = 0) 0 geo.noPairs = E.length := by
      apply firstFrom_eq (Nat.zero_le _) (by omega)
      · intro j _ hj
        have inside : j < (E ++ e :: F).length := by
          rw [List.length_append]
          omega
        have before : (E ++ e :: F)[j] = E[j] := List.getElem_append_left hj
        rw [decide_eq_false_iff_not, keycmp_zero node j len, v.key_get inside, before]
        exact ((List.pairwise_append.mp sorted).2.2 _
          (List.getElem_mem hj) e List.mem_cons_self).ne'
      · intro _
        rw [decide_eq_true_eq, keycmp_zero node _ len]
        exact v.key_at
    rw [first, if_neg (by omega), v.val_at, contents_at sorted]
    rfl
  · have absent : contents es key = none := contents_none_iff.mpr fun e he same => mem ⟨e, he, same⟩
    rw [absent]
    rcases firstFrom_stop (fun i => keycmp geo node i key =
      0) 0 geo.noPairs with past | ⟨inside, stop⟩
    · rw [if_pos (by omega)]
      rfl
    · rw [Nat.zero_add] at inside
      rw [decide_eq_true_eq, keycmp_zero node _ len] at stop
      rw [if_neg (by omega)]
      refine congrArg Prod.snd (v.val_past (Nat.le_of_not_lt fun less => ?_) inside)
      exact mem ⟨_, List.getElem_mem less, (v.key_get less).symm.trans stop⟩

/-! ### The descent -/

theorem lookupLoop_succ (h : Heap) (key : Key) (n : Nat) {a : Nat} (live : a ≠ 0) :
    lookupLoop geo h key (n + 1) a = lookupLoop geo h key n a >>= fun b =>
      if b = 0 then .ok 0 else lookupLoop geo h key 1 b := by
  induction n generalizing a with
  | zero =>
    have start : lookupLoop geo h key 0 a = .ok a := rfl
    rw [start]
    simp only [bind, Except.bind]
    rw [if_neg live]
  | succ n ih =>
    rw [lookupLoop]
    conv_rhs => rw [lookupLoop]
    cases h.get a with
    | error fault => rfl
    | ok node =>
      simp only [bind, Except.bind]
      split
      · rfl
      · split
        · rfl
        · rename_i child
          exact ih child

theorem lookupLoop_one {s : Span Key Nat} {E F : List Entry} {node : Node}
    (here : h.node s.node = some node)
    (view : View geo node (E ++ F)) (live : ∀ e ∈ E ++ F, e.2 ≠ 0) (len : key.length = geo.keylen)
    (above : ∀ e ∈ E, key < e.1) (rest : ∀ e ∈ F, e.1 ≤ key) :
    lookupLoop geo h key 1 s.node = .ok (F.head?.elim 0 Prod.snd) := by
  have pos := view.getpos len above rest
  have room := view.room
  rw [List.length_append] at room
  rw [lookupLoop, get_ok here]
  simp only [bind, Except.bind, pos, lookupLoop]
  cases F with
  | nil =>
    rw [List.append_nil] at view
    by_cases full : E.length = geo.noPairs
    · rw [if_pos full]
      rfl
    · rw [if_neg full, if_pos]
      · rfl
      · exact congrArg Prod.snd (view.val_past (le_refl _) (by omega))
  | cons e F =>
    rw [List.length_cons] at room
    rw [if_neg (by omega), view.val_at, if_neg (live e (by simp))]
    rfl

theorem Tower.root_live {u : Level} (tower : Tower geo h root (u :: us)) : root ≠ 0 := by
  induction us generalizing u with
  | nil =>
    obtain ⟨p, rfl, same⟩ := List.map_eq_singleton_iff.mp tower.1
    have addr := (tower.2.1 p List.mem_cons_self).addr
    rw [same] at addr
    exact addr
  | cons v us ih => exact ih tower.2.2.2

def covers (key : Key) (p : Page Key Nat) : Prop := p.1.low ≤ key ∧ (key : WithTop Key) < p.1.high

theorem Tower.ascend {r u : Level} (tower : Tower geo h root (r :: u :: us)) {p : Page Key Nat}
    (mem : p ∈ r)
    (cover : covers key p) : ∃ q ∈ u, covers key q ∧ ∃ e ∈ q.2, e.1 ≤ key := by
  obtain ⟨spans_, _, _, rest⟩ := tower
  obtain ⟨S, T, below_⟩ := List.append_of_mem (spans_ ▸ List.mem_map_of_mem mem)
  obtain ⟨Au, sp, E, F, Bu, rfl, _, _, _, low, high, _⟩ :=
    parent_focus below_ (Tower.apart rest) (fun q hq => (rest.2.1 q hq).ok) cover.1 cover.2
  exact ⟨(sp, E ++ (p.1.low, p.1.node) :: F),
    by simp, ⟨low, high⟩, (p.1.low, p.1.node), by simp, cover.1⟩

theorem Tower.cover_unique {u : Level} (tower : Tower geo h root (u :: us)) {p q : Page Key Nat}
    (hp : p ∈ u)
    (hq : q ∈ u) (coverP : covers key p) (coverQ : covers key q) : p = q := by
  obtain ⟨A, B, rfl⟩ := List.append_of_mem hp
  obtain ⟨A', B', row⟩ := List.append_of_mem hq
  have apart := Tower.apart tower.2.2.2
  rw [← tower.1, List.map_append, List.map_cons] at apart
  have spans_ := congrArg (List.map Prod.fst) row
  rw [List.map_append, List.map_append, List.map_cons, List.map_cons] at spans_
  obtain ⟨left, _, _⟩ := apart_cover apart spans_ coverP.1 coverP.2 coverQ.1 coverQ.2
  have lengths := congrArg List.length left
  rw [List.length_map, List.length_map] at lengths
  exact (List.cons.inj (List.append_inj row lengths).2).1

/-- The descent ends at the node of the level whose span covers the key, or there is none. -/
theorem lookupLoop_spec (us : List Level) (r : Level) (tower : Tower geo h root (r :: us))
    (len : key.length = geo.keylen) :
    ∃ b, lookupLoop geo h key us.length root = .ok b ∧
      (b = 0 ∧ (∀ p ∈ r, ¬ covers key p) ∨ b ≠ 0 ∧ ∃ p ∈ r, p.1.node = b ∧ covers key p) := by
  induction us generalizing r with
  | nil =>
    obtain ⟨p, rfl, same⟩ := List.map_eq_singleton_iff.mp tower.1
    have least := zero_le_key key
    rw [len] at least
    refine ⟨root, rfl, .inr ⟨tower.root_live, p, List.mem_cons_self, by rw [same]; rfl, ?_⟩⟩
    unfold covers
    rw [same]
    exact ⟨least, WithTop.coe_lt_top _⟩
  | cons u us ih =>
    obtain ⟨spans_, _, _, rest⟩ := id tower
    obtain ⟨b, run, found⟩ := ih u rest
    rw [List.length_cons, lookupLoop_succ h key us.length rest.root_live, run]
    simp only [bind, Except.bind]
    rcases found with ⟨rfl, none_⟩ | ⟨live, p, hp, rfl, cover⟩
    · rw [if_pos rfl]
      refine ⟨0, rfl, .inl ⟨rfl, fun q hq cover => ?_⟩⟩
      obtain ⟨p, hp, above, _⟩ := tower.ascend hq cover
      exact none_ p hp above
    · rw [if_neg live]
      obtain ⟨s, es⟩ := p
      have page := rest.2.1 _ hp
      obtain ⟨node, here, view⟩ := page.node
      obtain ⟨E, F, rfl, above, under⟩ := exists_cut page.ok.sorted key
      rw [lookupLoop_one here view page.live len above under]
      cases F with
      | nil =>
        refine ⟨0, rfl, .inl ⟨rfl, fun q hq cover' => ?_⟩⟩
        obtain ⟨p, hp', above', e, he, le⟩ := tower.ascend hq cover'
        obtain rfl := rest.cover_unique hp hp' cover above'
        rw [List.append_nil] at he
        exact absurd le (above e he).not_ge
      | cons e F =>
        obtain ⟨A, B, rfl⟩ := List.append_of_mem hp
        obtain ⟨A', es', B', rfl, _⟩ := level_focus (spans_.trans (below_focus A B s E F e))
        exact ⟨e.2, rfl, .inr ⟨page.live e (by simp), (⟨e.1, e.2, cut s.high E⟩, es'), by simp, rfl,
          under e List.mem_cons_self, lt_cut cover.2 above⟩⟩

theorem Standing.decreasing {t : Tree} {level : Nat} {r : Level}
    (st : Standing geo t level (r :: us)) :
    Decreasing (rowEntries r) := by
  apply rowEntries_sorted _ fun p hp => (st.tower.2.1 p hp).ok
  rw [st.tower.1]
  exact Tower.apart st.tower.2.2.2

theorem contents_cover {t : Tree} {level : Nat} {r : Level} (st : Standing geo t level (r :: us))
    {p : Page Key Nat} (mem : p ∈ r) (cover : covers key p) :
    contents (rowEntries r) key = contents p.2 key := by
  by_cases here : ∃ e ∈ p.2, e.1 = key
  · obtain ⟨e, he, rfl⟩ := here
    have sorted := st.decreasing
    have sortedP := (st.tower.2.1 p mem).ok.sorted
    obtain ⟨A, B, rfl⟩ := List.append_of_mem mem
    obtain ⟨E, F, eq⟩ := List.append_of_mem he
    have row : rowEntries (A ++ p :: B) = (rowEntries A ++ E) ++ e :: (F ++ rowEntries B) := by
      rw [rowEntries_append, rowEntries_cons, eq]
      simp
    rw [row] at sorted ⊢
    rw [eq] at sortedP ⊢
    rw [contents_at sorted, contents_at sortedP]
  · have absent : contents p.2 key = none :=
      contents_none_iff.mpr fun e he same => here ⟨e, he, same⟩
    rw [absent, contents_none_iff]
    intro e he same
    obtain ⟨q, hq, he⟩ := List.mem_flatMap.mp he
    have ok := (st.tower.2.1 q hq).ok
    have cover' : covers key q := ⟨same ▸ ok.low e he, same ▸ ok.high e he⟩
    obtain rfl := st.tower.cover_unique mem hq cover cover'
    exact here ⟨e, he, same⟩

theorem btreeLookup_spec {t : Tree} {r : Level} (st : Standing geo t 1 (r :: us))
    (len : key.length = geo.keylen) :
    btreeLookup geo t key = .ok ((contents (rowEntries r) key).getD 0) := by
  obtain ⟨b, run, found⟩ := lookupLoop_spec us r st.tower len
  have height := st.height
  rw [List.length_cons] at height
  have steps : t.height - 1 = us.length := by omega
  unfold btreeLookup
  rw [if_neg (by omega), steps, run]
  simp only [bind, Except.bind]
  rcases found with ⟨rfl, none_⟩ | ⟨live, p, hp, rfl, cover⟩
  · rw [if_pos rfl]
    have absent : contents (rowEntries r) key = none := by
      refine contents_none_iff.mpr fun e he same => ?_
      obtain ⟨p, hp, he⟩ := List.mem_flatMap.mp he
      have ok := (st.tower.2.1 p hp).ok
      exact none_ p hp ⟨same ▸ ok.low e he, same ▸ ok.high e he⟩
    rw [absent]
    rfl
  · rw [if_neg live]
    have page := st.tower.2.1 p hp
    obtain ⟨node, here, view⟩ := page.node
    rw [get_ok here, contents_cover st hp cover, ← view.search page.ok.sorted len]
    simp only [pure, Except.pure]
    split
    · rfl
    · rfl

end Btree
