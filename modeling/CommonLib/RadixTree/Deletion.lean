import CommonLib.RadixTree.Insertion

/- `ngx_radix32tree_delete` and `ngx_radix128tree_delete`. -/
namespace RadixTree
open SearchTree

def Used (whole : Shape) (w : List Side) : Prop := ∃ more, values whole (w ++ more) ≠ none

def Tidy (whole : Shape) : Prop := ∀ w, w ≠ [] → Present whole w → Used whole w

section Locate
variable {σ : Type} {c : Cursor σ} {pool : Pool} {t : Tree} {path : Path Cell} {sub : Shape} {bit : σ}
  {bits : List Side} {fuel : Nat}

theorem locate_holds (h : Holds pool t [] path sub) (spelled : Spells c bit bits)
    (enough : bits.length < fuel) :
    (∃ path' x l r, locate c t fuel bit (ptr 0 sub) = some (addr x) ∧
      plug path' (.node x l r) = plug path sub ∧ way path' = way path ++ bits ∧
      Holds pool t [] path' (.node x l r)) ∨
    locate c t fuel bit (ptr 0 sub) = some 0 ∧ follow sub bits = .nil := by
  induction spelled generalizing path sub fuel with
  | @stop bit done =>
    obtain ⟨fuel, rfl⟩ : ∃ k, fuel = k + 1 := ⟨fuel - 1, by omega⟩
    by_cases none : sub = .nil
    · subst none
      exact .inr ⟨by simp [locate], rfl⟩
    · obtain ⟨x, l, r, rfl⟩ := exists_node none
      have used : addr x ≠ 0 := h.toStands.ptr_ne_nil (by simp)
      exact .inl ⟨path, x, l, r, by simp [locate, used, done], rfl, by simp, h⟩
  | @last bit set ones key ends =>
    obtain ⟨fuel, rfl⟩ : ∃ k, fuel = k + 1 := ⟨fuel - 1, by omega⟩
    by_cases none : sub = .nil
    · subst none
      exact .inr ⟨by simp [locate], rfl⟩
    · obtain ⟨x, l, r, rfl⟩ := exists_node none
      obtain ⟨a, b, same⟩ := exists_join (side set) x l r
      have used : addr x ≠ 0 := h.toStands.ptr_ne_nil (by simp)
      rw [same] at h ⊢
      have next := (child_eq h.toStands.cell).1
      have below : Holds pool t [] (⟨side set, x, b⟩ :: path) a := holds_up.mpr h
      have run : locate c t (fuel + 1) bit (addr x) = some (ptr 0 a) := by
        simp [locate, used, ones, key, next, ends]
      by_cases none' : a = .nil
      · subst none'
        exact .inr ⟨by simp [run], by simp⟩
      · obtain ⟨y, l, r, rfl⟩ := exists_node none'
        exact .inl ⟨_, y, l, r, by simp [run], rfl, by simp, below⟩
  | @more bit bit' set bits ones key pass later ih =>
    obtain ⟨fuel, rfl⟩ : ∃ k, fuel = k + 1 := ⟨fuel - 1, by omega⟩
    by_cases none : sub = .nil
    · subst none
      exact .inr ⟨by simp [locate], rfl⟩
    · obtain ⟨x, l, r, rfl⟩ := exists_node none
      obtain ⟨a, b, same⟩ := exists_join (side set) x l r
      have used : addr x ≠ 0 := h.toStands.ptr_ne_nil (by simp)
      rw [same] at h ⊢
      have next := (child_eq h.toStands.cell).1
      have below : Holds pool t [] (⟨side set, x, b⟩ :: path) a := holds_up.mpr h
      have run : locate c t (fuel + 1) bit (addr x) = locate c t fuel bit' (ptr 0 a) := by
        simp [locate, used, ones, key, next, pass]
      have enough' : bits.length < fuel := by simpa using enough
      simpa [run, plug] using ih below enough'

end Locate

section Prune
variable {pool : Pool} {t : Tree} {path : Path Cell} {s : Side} {x y : Cell} {rest : Shape}

theorem parent_free (t : Tree) (q p : Nat) : ({ t with free := q } : Tree).parent p = t.parent p :=
  rfl

theorem dropLeaf_holds (h : Holds pool t [] (⟨s, y, rest⟩ :: path) (.node x .nil .nil)) :
    ∃ t', dropLeaf t (addr x) = some (t', addr y) ∧
      Holds pool t' [] (⟨s, y, rest⟩ :: path) .nil := by
  obtain ⟨spare, chain, mapped, all⟩ := h.stock
  obtain ⟨apart, pos⟩ := apart_of_perm pool all
  have leaf : addrs (.node x .nil .nil : Shape) = [addr x] := rfl
  simp only [leaf, addrsAround_cons, List.nodup_append, List.nodup_cons,
    List.mem_append, List.mem_cons] at apart pos mapped
  obtain ⟨above, beside, outer⟩ := h.ctx
  have here : t.mem (addr x) = some (seen .right x 0 0 (addr y)) :=
    h.toStands.cell (s := .right) (a := .nil) (b := .nil)
  have other : addr x ≠ addr y := by grind
  have far : ptr 0 rest ≠ addr x := (h.toStands.ptr_ne (.inl (by simp))).symm
  have test : ∃ right, t.child (addr y) .right = some right ∧
      (if right = addr x then Side.right else .left) = s := by
    have links := child_eq above
    cases s with
    | left => exact ⟨_, links.2, if_neg far⟩
    | right => exact ⟨_, links.1, if_pos rfl⟩
  obtain ⟨right, read, side⟩ := test
  have step1 := setChild_eq above 0
  have X1 := (put_other (t := t) (n := seen s y 0 (ptr 0 rest) (up 0 path)) other).trans here
  have step2 := setChild_eq X1 t.free
  have untouched : ∀ p, p ≠ addr x → p ≠ addr y → ((t.put (addr y) (seen s y 0 (ptr 0 rest)
      (up 0 path))).put (addr x) (seen .right x t.free 0 (addr y))).mem p = t.mem p := by
    intro p notX notY
    rw [put_other notX, put_other notY]
  have up2 := parent_eq (t := (t.put (addr y) (seen s y 0 (ptr 0 rest) (up 0 path))).put (addr x)
    (seen .right x t.free 0 (addr y))) (s := .right) put_self
  refine ⟨{ (t.put (addr y) (seen s y 0 (ptr 0 rest) (up 0 path))).put (addr x)
    (seen .right x t.free 0 (addr y)) with free := addr x }, ?_, Holds.of (addr x :: spare)
      trivial ⟨?_, ?_, ?_⟩ ?_ ?_ ⟨rfl, _, put_self, ?_⟩ ?_ ?_⟩
  · have parent : t.parent (addr x) = some (addr y) := parent_eq here
    simp only [dropLeaf, parent, read, side, step1, put_free, step2, parent_free, up2,
      Option.bind_eq_bind, Option.bind_some]
  · exact (put_other (Ne.symm other)).trans put_self
  · exact beside.congr fun p member => untouched p (by grind) (by grind)
  · exact outer.congr fun p member => untouched p (by grind) (by grind)
  · exact h.root.trans (ptr_plug (by simp) _ _)
  · exact (untouched 0 (by grind) (by grind)).trans h.null
  · exact chain.congr fun p member => untouched p (by grind) (by grind)
  · intro p member
    have slot : p ∈ t.rest := member
    have same := untouched p (by grind) (by grind)
    exact (congrArg Option.isSome same).trans (mapped p (.inr slot))
  · exact List.perm_middle.trans all

/-- The leaf at the place `w` is taken out, and every node above it that is of no use then. -/
structure Pruned (whole whole' : Shape) (w : List Side) : Prop where
  there : whole' ≠ .nil
  table : values whole' = Function.update (values whole) w none
  present : ∀ v, Present whole' v → Present whole v
  tidy : (∀ v, Present whole v → ¬ v <+: w → Used whole v) → Tidy whole'

theorem dropped (path : Path Cell) (x : Cell) :
    values (plug path .nil) =
        Function.update (values (plug path (.node x .nil .nil))) (way path) none ∧
      ∀ v, Present (plug path .nil) v ↔ v ≠ way path ∧ Present (plug path (.node x .nil .nil)) v := by
  have below : ∀ s bits, itemAt (.nil : Shape) (s :: bits) =
      itemAt (.node x .nil .nil) (s :: bits) := by
    intro s bits
    cases s <;> simp [itemAt, follow, rootItem]
  refine ⟨table_swap below, fun v => ?_⟩
  rw [present_swap below]
  split
  · rename_i here
    simp [here]
  · rename_i elsewhere
    simp [elsewhere]

theorem Used.mono {whole : Shape} {v w : List Side} (used : Used whole w) (before : v <+: w) :
    Used whole v := by
  obtain ⟨rest, rfl⟩ := before
  obtain ⟨more, some_⟩ := used
  exact ⟨rest ++ more, by rwa [← List.append_assoc]⟩

theorem used_dropped {v : List Side} (used : Used (plug path (.node x .nil .nil)) v)
    (elsewhere : ¬ v <+: way path) : Used (plug path .nil) v := by
  obtain ⟨more, some_⟩ := used
  refine ⟨more, ?_⟩
  rw [(dropped path x).1, Function.update_of_ne fun same => elsewhere ⟨more, same⟩]
  exact some_

theorem pruned_stop (stop : rest ≠ .nil ∨ y.value ≠ noValue ∨ path = []) :
    Pruned (plug (⟨s, y, rest⟩ :: path) (.node x .nil .nil)) (plug (⟨s, y, rest⟩ :: path) .nil)
      (way (⟨s, y, rest⟩ :: path)) := by
  obtain ⟨table, present⟩ := dropped (⟨s, y, rest⟩ :: path) x
  have whole : plug path (join s .nil y rest) ≠ .nil := plug_ne_nil (join_ne_nil s .nil y rest)
  refine ⟨whole, table, fun v there => ((present v).mp there).2, fun tidy v notRoot there => ?_⟩
  obtain ⟨other, there'⟩ := (present v).mp there
  by_cases inside : v <+: way (⟨s, y, rest⟩ :: path)
  · rw [way_cons] at inside other
    have higher : v <+: way path := (List.prefix_concat_iff.mp inside).resolve_left other
    rcases stop with sibling | own | rfl
    · have beside : Present (plug (⟨s, y, rest⟩ :: path) (.node x .nil .nil))
          (way path ++ [s.other]) := by
        rw [Present, plug, follow_plug, follow_far (Side.other_ne s), follow_here]
        exact sibling
      have outside : ¬ way path ++ [s.other] <+: way (⟨s, y, rest⟩ :: path) := by
        intro wrong
        have same := wrong.eq_of_length (by simp)
        simp at same
      exact (used_dropped (tidy _ beside outside) outside).mono
        (higher.trans (List.prefix_append _ _))
    · have value : values (plug (⟨s, y, rest⟩ :: path) .nil) (way path) = content y.value := by
        obtain ⟨l, r, same⟩ : ∃ l r, join s .nil y rest = .node y l r := by
          cases s <;> exact ⟨_, _, rfl⟩
        rw [plug, same, values_way]
      refine Used.mono ⟨[], ?_⟩ higher
      rw [List.append_nil, value, content, if_neg own]
      exact Option.some_ne_none _
    · exact absurd (List.prefix_nil.mp higher) notRoot
  · exact used_dropped (tidy v there' inside) inside

theorem pruned_more {whole' : Shape} (free : y.value = noValue)
    (more : Pruned (plug path (.node y .nil .nil)) whole' (way path)) :
    Pruned (plug (⟨s, y, .nil⟩ :: path) (.node x .nil .nil)) whole'
      (way (⟨s, y, .nil⟩ :: path)) := by
  obtain ⟨table, present⟩ := dropped (⟨s, y, .nil⟩ :: path) x
  have same : plug (⟨s, y, .nil⟩ :: path) .nil = plug path (.node y .nil .nil) := by
    cases s <;> rfl
  rw [same] at table present
  refine ⟨more.there, ?_, fun v there => ((present v).mp (more.present v there)).2, fun tidy => ?_⟩
  · have nothing : values (plug path (.node y .nil .nil)) (way path) = none := by
      rw [values_way, content, if_pos free]
    rw [more.table, ← table]
    exact Function.update_eq_self_iff.mpr nothing.symm
  · refine more.tidy fun v there outside => ?_
    obtain ⟨other, there'⟩ := (present v).mp there
    have outside' : ¬ v <+: way (⟨s, y, .nil⟩ :: path) := by
      intro inside
      rw [way_cons] at inside other
      exact outside ((List.prefix_concat_iff.mp inside).resolve_left other)
    rw [← same]
    exact used_dropped (tidy v there' outside') outside'

theorem goesOn_eq (h : Holds pool t [] (⟨s, y, rest⟩ :: path) .nil) :
    goesOn t (addr y) = some (decide (rest = .nil ∧ y.value = noValue ∧ path ≠ [])) := by
  have links := child_eq h.toStands.above
  have own := value_eq h.toStands.above
  have above := parent_eq h.toStands.above
  have top : up 0 path = 0 ↔ path = [] := h.toStands.up_eq_nil
  have sibling : ptr 0 rest = 0 ↔ rest = .nil :=
    ptr_eq_nil fun member => h.toStands.beside.out (List.mem_append_left _ member)
  have kids : goesOn t (addr y) = if ptr 0 rest ≠ 0 then some false
      else if y.value ≠ noValue then some false else some (up 0 path != 0) := by
    obtain ⟨near, far⟩ := links
    cases s with
    | left =>
      rw [Side.other] at far
      simp [goesOn, own, above, near, far]
    | right =>
      rw [Side.other] at far
      simp [goesOn, own, above, near, far]
  have root : (up 0 path != 0) = decide (path ≠ []) := by
    rw [Bool.eq_iff_iff, bne_iff_ne, decide_eq_true_eq, ne_eq, top]
  rw [kids, root]
  simp only [ne_eq, sibling]
  split_ifs <;> simp_all

/-- The loop ends at the first node above that is of use. -/
theorem prune_holds (fuel : Nat) (h : Holds pool t [] path (.node x .nil .nil)) (below : path ≠ [])
    (enough : path.length ≤ fuel) :
    ∃ t' whole', prune fuel t (addr x) = some t' ∧ Holds pool t' [] [] whole' ∧
      Pruned (plug path (.node x .nil .nil)) whole' (way path) := by
  induction fuel generalizing t path x with
  | zero => exact absurd (List.eq_nil_of_length_eq_zero (Nat.le_zero.mp enough)) below
  | succ fuel ih =>
    obtain ⟨⟨s, y, rest⟩, path, rfl⟩ := List.exists_cons_of_ne_nil below
    obtain ⟨t1, step, h1⟩ := dropLeaf_holds h
    have start : prune (fuel + 1) t (addr x) =
        if rest = .nil ∧ y.value = noValue ∧ path ≠ [] then prune fuel t1 (addr y) else some t1 := by
      simp [prune, step, goesOn_eq h1]
    by_cases more : rest = .nil ∧ y.value = noValue ∧ path ≠ []
    · rw [start, if_pos more]
      obtain ⟨rfl, free, higher⟩ := more
      have same : join s .nil y .nil = .node y .nil .nil := by cases s <;> rfl
      have h2 : Holds pool t1 [] path (.node y .nil .nil) := by
        have atParent := holds_up.mp h1
        rwa [same] at atParent
      obtain ⟨t', whole', run, h', pruned⟩ := ih h2 higher (by simpa using enough)
      exact ⟨t', whole', run, h', pruned_more free pruned⟩
    · have stop : rest ≠ .nil ∨ y.value ≠ noValue ∨ path = [] := by tauto
      exact ⟨t1, _, start.trans (if_neg more), holds_plug.mp h1, pruned_stop stop⟩

end Prune

section Delete
variable {σ : Type} {c : Cursor σ} {pool : Pool} {t : Tree} {path : Path Cell} {x : Cell}
  {l r whole : Shape} {bit : σ} {bits : List Side} {fuel : Nat}

structure Deleted (whole : Shape) (bits : List Side) (reply : Reply) (whole' : Shape) : Prop where
  there : whole' ≠ .nil
  table : values whole' = Function.update (values whole) bits none
  present : ∀ v, Present whole' v → Present whole v
  known : reply = .ok ∨ reply = .error ∧ values whole bits = none
  tidy : Tidy whole → Tidy whole' ∧ (reply = .ok → values whole bits ≠ none)

theorem Deleted.unknown (there : whole ≠ .nil) (nothing : values whole bits = none) :
    Deleted whole bits .error whole :=
  ⟨there, (Function.update_eq_self_iff.mpr nothing.symm).symm, fun _ => id, .inr ⟨rfl, nothing⟩,
    fun tidy => ⟨tidy, fun wrong => nomatch wrong⟩⟩

theorem deleted_inner (kids : l ≠ .nil ∨ r ≠ .nil) (own : x.value ≠ noValue) :
    Deleted (plug path (.node x l r)) (way path) .ok (plug path (.node ⟨x.place, noValue⟩ l r)) := by
  obtain ⟨table, present⟩ := values_setValue path x l r noValue
  have nothing : content noValue = none := if_pos rfl
  rw [nothing] at table
  refine ⟨plug_ne_nil (by simp), table, fun v => (present v).mp, .inl rfl,
    fun tidy => ⟨fun v notRoot there => ?_, fun _ => ?_⟩⟩
  · obtain ⟨more, some_⟩ := tidy v notRoot ((present v).mp there)
    have kept : ∀ {w}, w ≠ way path → values (plug path (.node x l r)) w ≠ none →
        values (plug path (.node ⟨x.place, noValue⟩ l r)) w ≠ none := by
      intro w other valued
      rwa [table, Function.update_of_ne other]
    by_cases here : v ++ more = way path
    · -- the value that goes is not the only one below `v`
      obtain ⟨s, child⟩ : ∃ s, Present (plug path (.node x l r)) (way path ++ [s]) := by
        rcases kids with left | right
        · exact ⟨.left, by rw [Present, follow_plug, follow, follow_here]; exact left⟩
        · exact ⟨.right, by rw [Present, follow_plug, follow, follow_here]; exact right⟩
      obtain ⟨more', some'⟩ := tidy _ (by simp) child
      have above : v <+: way path := ⟨more, here⟩
      exact Used.mono ⟨more', kept (by simp) some'⟩ (above.trans (List.prefix_append _ _))
    · exact ⟨more, kept here some_⟩
  · rw [values_way, content, if_neg own]
    exact Option.some_ne_none _

theorem deleted_leaf {whole' : Shape} (below : path ≠ [])
    (pruned : Pruned (plug path (.node x .nil .nil)) whole' (way path)) :
    Deleted (plug path (.node x .nil .nil)) (way path) .ok whole' := by
  refine ⟨pruned.there, pruned.table, pruned.present, .inl rfl, fun tidy => ⟨?_, fun _ => ?_⟩⟩
  · refine pruned.tidy fun v there outside => tidy v ?_ there
    rintro rfl
    exact outside List.nil_prefix
  · have notRoot : way path ≠ [] := by simpa [way] using below
    obtain ⟨more, some_⟩ := tidy _ notRoot (by rw [Present, follow_way]; simp)
    cases more with
    | nil => rwa [List.append_nil] at some_
    | cons s more =>
      refine absurd ?_ some_
      rw [values, table, itemAt, follow_plug]
      cases s <;> simp [follow, rootItem]

theorem deleteFrom_eq (h : Holds pool t [] path (.node x l r))
    (run : locate c t fuel bit t.root = some (addr x)) :
    deleteFrom c fuel bit t =
      if r ≠ .nil ∨ l ≠ .nil then
        if x.value ≠ noValue then (t.setValue (addr x) noValue).map fun t => (t, .ok)
        else some (t, .error)
      else (prune fuel t (addr x)).map fun t => (t, .ok) := by
  have used : addr x ≠ 0 := h.toStands.ptr_ne_nil (by simp)
  have own := value_eq (h.toStands.cell (s := .left))
  have links := child_eq (h.toStands.cell (s := .left))
  have left : ptr 0 l = 0 ↔ l = .nil := by
    have below : Holds pool t [] (⟨.left, x, r⟩ :: path) l := holds_up.mpr h
    exact ptr_eq_nil fun member => below.out (List.mem_append_left _ member)
  have right : ptr 0 r = 0 ↔ r = .nil := by
    have below : Holds pool t [] (⟨.right, x, l⟩ :: path) r := holds_up.mpr h
    exact ptr_eq_nil fun member => below.out (List.mem_append_left _ member)
  rw [Side.other] at links
  simp only [deleteFrom, run, used, links.1, links.2, own, ne_eq, left, right,
    Option.bind_eq_bind, Option.bind_some, Option.map_eq_bind, Function.comp_def, if_false]

def Alone (whole : Shape) (bits : List Side) : Prop := bits = [] ∧ ∃ x, whole = .node x .nil .nil

/-- The loop reads through the parent that the root does not have. -/
theorem deleteFrom_alone (h : Holds pool t [] [] whole) (spelled : Spells c bit bits)
    (alone : Alone whole bits) (fuel : Nat) : deleteFrom c fuel bit t = none := by
  obtain ⟨rfl, x, rfl⟩ := alone
  cases fuel with
  | zero => rfl
  | succ fuel =>
    have root : t.root = addr x := h.root
    have used : addr x ≠ 0 := h.toStands.ptr_ne_nil (by simp)
    have noParent : t.parent (addr x) = some 0 := parent_eq (h.toStands.cell (s := .left))
    have fault : t.child 0 .right = none := by rw [Tree.child, Tree.get, h.null, Option.map_none]
    cases spelled with
    | stop done =>
      have run : locate c t (fuel + 1) bit t.root = some (addr x) := by
        simp [locate, root, used, done]
      rw [deleteFrom_eq h run, if_neg (by simp), prune, dropLeaf]
      simp [noParent, fault]

theorem deleteFrom_holds (h : Holds pool t [] [] whole) (there : whole ≠ .nil)
    (spelled : Spells c bit bits) (enough : bits.length < fuel) (company : ¬ Alone whole bits) :
    ∃ t' reply whole', deleteFrom c fuel bit t = some (t', reply) ∧ Holds pool t' [] [] whole' ∧
      Deleted whole bits reply whole' := by
  have root : t.root = ptr 0 whole := h.root
  rcases locate_holds h spelled enough with ⟨path, x, l, r, run, same, here, h1⟩ | ⟨run, nothing⟩
  · rw [plug] at same
    have here' : way path = bits := by simpa [way] using here
    subst same here'
    rw [← root] at run
    rw [deleteFrom_eq h1 run]
    split_ifs with inner valued
    · obtain ⟨t1, step, h2⟩ := setValue_holds h1 noValue
      exact ⟨t1, .ok, _, by rw [step]; rfl, holds_plug.mp h2, deleted_inner inner.symm valued⟩
    · have nothing : values (plug path (.node x l r)) (way path) = none := by
        rw [values_way, content, if_pos (not_not.mp valued)]
      exact ⟨t, .error, _, rfl, h, .unknown there nothing⟩
    · simp only [not_or, not_not] at inner
      obtain ⟨rfl, rfl⟩ := inner
      have below : path ≠ [] := by
        rintro rfl
        exact company ⟨rfl, x, rfl⟩
      have short : path.length ≤ fuel := by
        rw [way, List.length_reverse, List.length_map] at enough
        omega
      obtain ⟨t1, whole', step, h2, pruned⟩ := prune_holds fuel h1 below short
      exact ⟨t1, .ok, whole', by rw [step]; rfl, h2, deleted_leaf below pruned⟩
  · have nothing' : values whole bits = none := by
      rw [values, table, itemAt, nothing]
      rfl
    exact ⟨t, .error, whole, by simp [deleteFrom, root, run], h, .unknown there nothing'⟩

end Delete

end RadixTree
