import CommonLib.RadixTree.Nodes
import CommonLib.RadixTree.Keys

/- `ngx_radix32tree_insert` and `ngx_radix128tree_insert`. -/
namespace RadixTree
open SearchTree

abbrev Table := List Side → Option (BitVec 64)

def content (value : BitVec 64) : Option (BitVec 64) := if value = noValue then none else some value

def values (whole : Shape) : Table := table (fun x => content x.value) whole

def leaf (q : Nat) (value : BitVec 64) : Shape := .node ⟨q, value⟩ .nil .nil

section Places
variable {pool : Pool} {t : Tree} {q : Nat} {path : Path Cell} {s : Side} {rest l r sub : Shape}
  {x : Cell}

theorem hang_holds (h : Holds pool t [q] (⟨s, x, rest⟩ :: path) .nil) :
    ∃ t1 t2, t.clear q (addr x) = some t1 ∧ t1.setChild (addr x) s q = some t2 ∧
      t2.asked = t.asked ∧ Holds pool t2 [] (⟨s, x, rest⟩ :: path) (leaf q noValue) := by
  obtain ⟨spare, chain, mapped, all⟩ := h.stock
  obtain ⟨apart, pos⟩ := apart_of_perm pool all
  obtain ⟨node, here⟩ : ∃ node, t.mem q = some node :=
    Option.isSome_iff_exists.mp (mapped q (by simp))
  obtain ⟨above, beside, outer⟩ := h.ctx
  simp only [addrs_nil, List.nil_append, addrsAround_cons, List.nodup_append, List.nodup_cons,
    List.mem_append, List.mem_cons] at apart pos mapped
  have other : addr x ≠ q := by grind
  have step1 := modify_eq here fun _ => ⟨0, 0, addr x, noValue⟩
  have X1 := (put_other (t := t) (n := ⟨0, 0, addr x, noValue⟩) other).trans above
  have step2 := setChild_eq X1 q
  have untouched : ∀ p, p ≠ q → p ≠ addr x → ((t.put q ⟨0, 0, addr x, noValue⟩).put (addr x)
      (seen s x q (ptr 0 rest) (up 0 path))).mem p = t.mem p := by
    intro p notQ notX
    rw [put_other notX, put_other notQ]
  refine ⟨_, _, step1, step2, rfl, Holds.of spare ⟨?_, trivial, trivial⟩ ⟨put_self, ?_, ?_⟩
    ?_ ?_ ?_ ?_ ?_⟩
  · exact (put_other (Ne.symm other)).trans put_self
  · exact beside.congr fun p member => untouched p (by grind) (by grind)
  · exact outer.congr fun p member => untouched p (by grind) (by grind)
  · exact h.root.trans (ptr_plug (by simp) _ _)
  · rw [untouched 0 (by grind) (by grind)]
    exact h.null
  · exact chain.congr fun p member => untouched p (by grind) (by grind)
  · intro p member
    have slot : p ∈ t.rest := member
    rw [untouched p (by grind) (by grind)]
    exact mapped p (.inr slot)
  · refine List.Perm.trans ?_ all
    exact List.perm_middle.symm

theorem setValue_holds (h : Holds pool t [] path (.node x l r)) (value : BitVec 64) :
    ∃ t', t.setValue (addr x) value = some t' ∧
      Holds pool t' [] path (.node ⟨x.place, value⟩ l r) := by
  obtain ⟨spare, chain, mapped, all⟩ := h.stock
  obtain ⟨apart, pos⟩ := apart_of_perm pool all
  obtain ⟨here, left, right⟩ := h.inner
  have places := node_places path x l r
  have apart' := (places.append_right (spare ++ t.rest)).nodup_iff.mp apart
  simp only [List.cons_append, List.nodup_append, List.nodup_cons, List.mem_append] at apart'
  have inside : addr x ∈ addrs (.node x l r) ++ addrsAround path := places.mem_iff.mpr (by simp)
  have notNull : addr x ≠ 0 := pos _ (List.mem_append_left _ inside)
  have untouched : ∀ p, p ≠ addr x → (t.put (addr x) (seen .left (⟨x.place, value⟩ : Cell)
      (ptr 0 l) (ptr 0 r) (up 0 path))).mem p = t.mem p := fun p notX => put_other notX
  refine ⟨_, setValue_eq here value, Holds.of spare ⟨put_self, ?_, ?_⟩ ?_ ?_ ?_ ?_ ?_ ?_⟩
  · exact left.congr fun p member => untouched p (by grind)
  · exact right.congr fun p member => untouched p (by grind)
  · exact h.ctx.congr fun p member => untouched p (by grind)
  · refine h.root.trans ?_
    cases path with
    | nil => rfl
    | cons => exact ptr_plug (by simp) _ _
  · rw [untouched 0 notNull.symm]
    exact h.null
  · exact chain.congr fun p member => untouched p (by grind)
  · intro p member
    have slot : p ∈ t.rest := member
    rw [untouched p (by grind)]
    exact mapped p slot
  · have same : addrs (.node ⟨x.place, value⟩ l r : Shape) = addrs (.node x l r) := by
      simp only [addrs, inorder, List.map_append, List.map_cons]
      rfl
    rw [same]
    exact all

end Places

section Descent
variable {σ : Type} {c : Cursor σ} {pool : Pool} {t : Tree} {path : Path Cell} {sub : Shape} {bit : σ}
  {bits : List Side} {fuel : Nat}

theorem descend_holds (h : Holds pool t [] path sub) (there : sub ≠ .nil)
    (spelled : Spells c bit bits) (enough : bits.length < fuel) :
    (∃ path' x l r bit', descend c t fuel bit (ptr 0 sub) = some (bit', addr x, addr x) ∧
      plug path' (.node x l r) = plug path sub ∧ way path' = way path ++ bits ∧
      Holds pool t [] path' (.node x l r)) ∨
    ∃ s x rest above bit' more, descend c t fuel bit (ptr 0 sub) = some (bit', addr x, 0) ∧
      plug (⟨s, x, rest⟩ :: above) .nil = plug path sub ∧
      way (⟨s, x, rest⟩ :: above) ++ more = way path ++ bits ∧
      Holds pool t [] (⟨s, x, rest⟩ :: above) .nil ∧ Spells c bit' (s :: more) := by
  induction spelled generalizing path sub fuel with
  | @stop bit done =>
    obtain ⟨fuel, rfl⟩ : ∃ k, fuel = k + 1 := ⟨fuel - 1, by omega⟩
    obtain ⟨x, l, r, rfl⟩ := exists_node there
    exact .inl ⟨path, x, l, r, bit, by simp [descend, done], rfl, by simp, h⟩
  | @last bit set ones key ends =>
    obtain ⟨fuel, rfl⟩ : ∃ k, fuel = k + 1 := ⟨fuel - 1, by omega⟩
    obtain ⟨x, l, r, rfl⟩ := exists_node there
    obtain ⟨a, b, same⟩ := exists_join (side set) x l r
    rw [same] at h ⊢
    have next := (child_eq h.toStands.cell).1
    have below : Holds pool t [] (⟨side set, x, b⟩ :: path) a := holds_up.mpr h
    by_cases none : a = .nil
    · subst none
      refine .inr ⟨side set, x, b, path, bit, [], ?_, rfl, by simp, below, .last ones key ends⟩
      simp [descend, ones, key, next]
    · obtain ⟨y, l, r, rfl⟩ := exists_node none
      refine .inl ⟨_, y, l, r, bit, ?_, rfl, by simp, below⟩
      have used : addr y ≠ 0 := below.toStands.ptr_ne_nil (by simp)
      simp [descend, ones, key, next, used, ends]
  | @more bit bit' set bits ones key pass later ih =>
    obtain ⟨fuel, rfl⟩ : ∃ k, fuel = k + 1 := ⟨fuel - 1, by omega⟩
    obtain ⟨x, l, r, rfl⟩ := exists_node there
    obtain ⟨a, b, same⟩ := exists_join (side set) x l r
    rw [same] at h ⊢
    have next := (child_eq h.toStands.cell).1
    have below : Holds pool t [] (⟨side set, x, b⟩ :: path) a := holds_up.mpr h
    by_cases none : a = .nil
    · subst none
      refine .inr ⟨side set, x, b, path, bit, bits, ?_, rfl, by simp, below,
        .more ones key pass later⟩
      simp [descend, ones, key, next]
    · have used : ptr 0 a ≠ 0 := below.toStands.ptr_ne_nil none
      have run : descend c t (fuel + 1) bit (addr x) = descend c t fuel bit' (ptr 0 a) := by
        simp [descend, ones, key, next, used, pass]
      have enough' : bits.length < fuel := by simpa using enough
      simpa [run, plug] using ih below none enough'

end Descent

/-! ### What is new -/

/-- Some nodes without a value are new, those of the way `upto`. -/
structure Grown (whole whole' : Shape) (upto : List Side) : Prop where
  table : values whole' = values whole
  present : ∀ w, Present whole' w ↔ Present whole w ∨ w <+: upto

section Grown
variable {whole whole' whole'' : Shape} {upto further : List Side} {path : Path Cell} {step : Step Cell}
  {q : Nat}

theorem Grown.refl (there : Present whole upto) : Grown whole whole upto := by
  refine ⟨rfl, fun w => ⟨Or.inl, fun either => ?_⟩⟩
  rcases either with old | inside
  · exact old
  · exact there.mono inside

theorem Grown.trans (first : Grown whole whole' upto) (second : Grown whole' whole'' further)
    (longer : upto <+: further) : Grown whole whole'' further := by
  refine ⟨second.table.trans first.table, fun w => ?_⟩
  rw [second.present, first.present, or_assoc]
  refine or_congr_right ⟨fun either => ?_, Or.inr⟩
  rcases either with inside | inside
  · exact inside.trans longer
  · exact inside

theorem grown_leaf (q : Nat) :
    Grown (plug (step :: path) .nil) (plug (step :: path) (leaf q noValue)) (way (step :: path)) := by
  have below : ∀ s bits, itemAt (leaf q noValue) (s :: bits) = itemAt .nil (s :: bits) := by
    intro s bits
    cases s <;> simp [leaf, itemAt, follow, rootItem]
  have nothing : values (plug (step :: path) .nil) (way (step :: path)) = none := by
    rw [values, table, itemAt, follow_way]
    rfl
  constructor
  · have swap : values (plug (step :: path) (leaf q noValue)) =
        Function.update (values (plug (step :: path) .nil)) (way (step :: path))
          ((rootItem (leaf q noValue)).bind fun x => content x.value) := table_swap below
    rw [swap]
    exact Function.update_eq_self_iff.mpr (by rw [nothing]; rfl)
  · intro w
    rw [present_swap below]
    split
    · rename_i here
      simp [here, leaf]
    · rename_i elsewhere
      refine ⟨Or.inl, fun either => ?_⟩
      rcases either with old | inside
      · exact old
      · exact present_above inside elsewhere

end Grown

section Insert
variable {σ : Type} {c : Cursor σ} {pool : Pool} {t : Tree} {path : Path Cell} {s : Side} {x : Cell}
  {rest whole : Shape} {bit : σ} {bits more : List Side} {fuel : Nat}

theorem grow_pass {set : Bool} (h : Holds pool t [] (⟨side set, x, rest⟩ :: path) .nil)
    (ones : c.mask bit = some true) (key : c.key bit = some set) (fuel : Nat) :
    (∃ t', grow pool c (fuel + 1) t bit (addr x) = some (t', none) ∧ Refused pool t t' ∧
      Holds pool t' [] (⟨side set, x, rest⟩ :: path) .nil) ∨
    ∃ t' q, t.asked ≤ t'.asked ∧ Holds pool t' [] (⟨side set, x, rest⟩ :: path) (leaf q noValue) ∧
      grow pool c (fuel + 1) t bit (addr x) =
        match c.next bit with
        | none => some (t', some q)
        | some bit => grow pool c fuel t' bit q := by
  obtain ⟨t1, q, step, asked, either⟩ := alloc_holds h
  rcases either with ⟨rfl, failed, h1⟩ | ⟨used, h1⟩
  · exact .inl ⟨t1, by simp [grow, ones, step], failed, h1⟩
  · obtain ⟨t2, t3, clear, hang, same, h3⟩ := hang_holds h1
    refine .inr ⟨t3, q, same ▸ asked, h3, ?_⟩
    cases next : c.next bit with
    | none =>
      simp only [grow, ones, key, step, used, clear, hang, next, Option.bind_eq_bind,
        Option.bind_some, if_true, if_false]
    | some after =>
      simp only [grow, ones, key, step, used, clear, hang, next, Option.bind_eq_bind,
        Option.bind_some, if_true, if_false]

/-- The second loop hangs up a node for each bit that is left, as far as there is memory. -/
theorem grow_holds (h : Holds pool t [] (⟨s, x, rest⟩ :: path) .nil)
    (spelled : Spells c bit (s :: more)) (enough : more.length + 1 < fuel) :
    ∃ t' last upto path' u, grow pool c fuel t bit (addr x) = some (t', last) ∧
      Holds pool t' [] path' u ∧
      Grown (plug (⟨s, x, rest⟩ :: path) .nil) (plug path' u) upto ∧ way path <+: upto ∧
      (last = none ∧ upto <+: way path ++ s :: more ∧ Refused pool t t' ∨
        ∃ q, last = some q ∧ upto = way path ++ s :: more ∧ u = leaf q noValue ∧
          way path' = upto) := by
  induction more generalizing t path s x rest bit fuel with
  | nil =>
    obtain ⟨fuel, rfl⟩ : ∃ k, fuel = k + 2 := ⟨fuel - 2, by simp at enough; omega⟩
    obtain ⟨set, rfl, ones, key, ends⟩ := spelled.ends
    rcases grow_pass h ones key (fuel + 1) with ⟨t1, run, failed, h1⟩ | ⟨t1, q, _, h1, run⟩
    · exact ⟨t1, none, _, _, _, run, h1, .refl present_parent, List.prefix_rfl,
        .inl ⟨rfl, List.prefix_append _ _, failed⟩⟩
    · refine ⟨t1, some q, _, _, _, run.trans ?_, h1, grown_leaf q,
        by rw [way_cons]; exact List.prefix_append _ _, .inr ⟨q, rfl, way_cons _ _, rfl, rfl⟩⟩
      rcases ends with left | ⟨bit', next, done⟩
      · rw [left]
      · simp [next, grow, done]
  | cons s' more ih =>
    obtain ⟨fuel, rfl⟩ : ∃ k, fuel = k + 1 := ⟨fuel - 1, by omega⟩
    obtain ⟨set, bit', rfl, ones, key, next, later⟩ := spelled.goes_on
    rcases grow_pass h ones key fuel with ⟨t1, run, failed, h1⟩ | ⟨t1, q, asked, h1, run⟩
    · exact ⟨t1, none, _, _, _, run, h1, .refl present_parent, List.prefix_rfl,
        .inl ⟨rfl, List.prefix_append _ _, failed⟩⟩
    · have split : leaf q noValue = join s' .nil ⟨q, noValue⟩ .nil := by cases s' <;> rfl
      have below : Holds pool t1 [] (⟨s', ⟨q, noValue⟩, .nil⟩ :: ⟨side set, x, rest⟩ :: path) .nil := by
        rw [split] at h1
        exact holds_up.mpr h1
      have enough' : more.length + 1 < fuel := by simpa using enough
      obtain ⟨t2, last, upto, path', u, run', h2, grown, further, either⟩ := ih below later enough'
      rw [plug, ← split] at grown
      refine ⟨t2, last, upto, path', u, ?_, h2, (grown_leaf q).trans grown further, ?_, ?_⟩
      · rw [run, next]
        exact run'
      · rw [way_cons] at further
        exact (List.prefix_append _ _).trans further
      · rw [way_cons, List.append_assoc, List.singleton_append] at either
        rcases either with ⟨none, inside, k, from1, below, failed⟩ | last
        · exact .inl ⟨none, inside, k, asked.trans from1, below, failed⟩
        · exact .inr last

def Inserted (pool : Pool) (t t' : Tree) (whole : Shape) (bits : List Side) (value : BitVec 64) :
    Reply → Shape → Prop
  | .busy, whole' => values whole bits ≠ none ∧ whole' = whole
  | .ok, whole' => values whole bits = none ∧
      values whole' = Function.update (values whole) bits (content value) ∧
      ∀ w, Present whole' w ↔ Present whole w ∨ w <+: bits
  | .error, whole' => values whole bits = none ∧ Refused pool t t' ∧
      ∃ upto, upto <+: bits ∧ Grown whole whole' upto

theorem values_way (path : Path Cell) (x : Cell) (l r : Shape) :
    values (plug path (.node x l r)) (way path) = content x.value := by
  rw [values, table, itemAt, follow_way]
  rfl

theorem values_setValue (path : Path Cell) (x : Cell) (l r : Shape) (value : BitVec 64) :
    values (plug path (.node ⟨x.place, value⟩ l r)) =
        Function.update (values (plug path (.node x l r))) (way path) (content value) ∧
      ∀ w, Present (plug path (.node ⟨x.place, value⟩ l r)) w ↔
        Present (plug path (.node x l r)) w := by
  have below : ∀ s bits, itemAt (.node ⟨x.place, value⟩ l r) (s :: bits) =
      itemAt (.node x l r) (s :: bits) := by
    intro s bits
    cases s <;> rfl
  refine ⟨table_swap below, fun w => ?_⟩
  rw [present_swap below]
  split
  · rename_i here
    simp [here, Present, follow_way]
  · exact Iff.rfl

theorem insertFrom_holds (h : Holds pool t [] [] whole) (there : whole ≠ .nil)
    (spelled : Spells c bit bits) (enough : bits.length < fuel) (value : BitVec 64) :
    ∃ t' reply whole', insertFrom pool c fuel bit t value = some (t', reply) ∧
      Holds pool t' [] [] whole' ∧ Inserted pool t t' whole bits value reply whole' := by
  have root : t.root = ptr 0 whole := h.root
  rcases descend_holds h there spelled enough with
    ⟨path, x, l, r, bit', run, same, here, h1⟩ | ⟨s, x, rest, path, bit', more, run, same, here, h1, later⟩
  · rw [plug] at same
    have here' : way path = bits := by simpa [way] using here
    subst same here'
    have own := value_eq (h1.toStands.cell (s := .left))
    have used : addr x ≠ 0 := h1.toStands.ptr_ne_nil (by simp)
    by_cases free : x.value = noValue
    · obtain ⟨t1, step, h2⟩ := setValue_holds h1 value
      obtain ⟨table, present⟩ := values_setValue path x l r value
      refine ⟨t1, .ok, _, ?_, holds_plug.mp h2, ?_, table, fun w => ?_⟩
      · simp [insertFrom, root, run, used, own, free, step]
      · rw [values_way, content, if_pos free]
      · rw [present]
        have parent : Present (plug path (.node x l r)) (way path) := by simp [Present, follow_way]
        exact ⟨Or.inl, fun either => either.elim id parent.mono⟩
    · refine ⟨t, .busy, _, ?_, h, ?_, rfl⟩
      · simp [insertFrom, root, run, used, own, free]
      · rw [values_way, content, if_neg free]
        exact Option.some_ne_none _
  · rw [plug] at same
    have here' : way (⟨s, x, rest⟩ :: path) ++ more = bits := by simpa [way] using here
    subst same here'
    have nothing : values (plug (⟨s, x, rest⟩ :: path) .nil) (way (⟨s, x, rest⟩ :: path) ++ more) =
        none := by
      rw [values, table, itemAt, follow_plug, follow_nil]
      rfl
    have short : more.length + 1 < fuel := by
      rw [way_cons, List.length_append, List.length_append, List.length_singleton] at enough
      omega
    have split : way path ++ s :: more = way (⟨s, x, rest⟩ :: path) ++ more := by simp
    obtain ⟨t1, last, upto, path', u, run', h2, grown, further, either⟩ := grow_holds h1 later short
    rcases either with ⟨rfl, inside, failed⟩ | ⟨q, rfl, rfl, rfl, there'⟩
    · refine ⟨t1, .error, _, ?_, holds_plug.mp h2, nothing, failed, upto, ?_, grown⟩
      · simp [insertFrom, root, run, run']
      · rwa [← split]
    · obtain ⟨t2, step, h3⟩ := setValue_holds h2 value
      obtain ⟨table, present⟩ := values_setValue path' ⟨q, noValue⟩ .nil .nil value
      refine ⟨t2, .ok, _, ?_, holds_plug.mp h3, nothing, ?_, fun w => ?_⟩
      · have step' : t1.setValue q value = some t2 := step
        simp [insertFrom, root, run, run', step']
      · rw [table, there', split]
        exact congrArg (Function.update · _ _) grown.table
      · rw [present, ← split]
        exact grown.present w

end Insert

end RadixTree
