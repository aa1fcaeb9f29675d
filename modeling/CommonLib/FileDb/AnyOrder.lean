import CommonLib.FileDb.Contract

/- The calls on a file whose comparator need not order the stored keys, as with integers
   too far apart. A search may then miss a key, but the tree, the blocks and the values
   keep their shape, and a value is stored past the others of its block. -/
namespace FileDb
open OrderedTree
variable {p : Shape}

/-! ### Searching a block -/

inductive Stops (d : DbT) (b : BtreeNode) (target : Bytes) : Int → Prop where
  | equal (i : Nat) (hi : i < b.num) (zero : keyCmp d.keyType target (b.slot i).key d.keySize = 0) :
      Stops d b target i
  | gap (i : Nat) (hi : i ≤ b.num) : Stops d b target (-(i : Int) - 1)

theorem keyBinarySearchLoop_stops {d : DbT} {b : BtreeNode} (target : Bytes)
    (fits : ∀ i < b.num, Fits d i)
    (fuel : Nat) (low high : Int) (l0 : 0 ≤ low) (h0 : high < b.num) (lh : low ≤ high + 1)
    (enough : high + 1 - low < fuel) :
    ∃ r, keyBinarySearchLoop d b target fuel low high = .ok r ∧ Stops d b target r := by
  induction fuel generalizing low high with
  | zero => omega
  | succ fuel ih =>
    by_cases le : low ≤ high
    · obtain ⟨mid, least, most, round⟩ := keyBinarySearchLoop_round target fits fuel l0 h0 le
      rw [round]
      split
      · rename_i zero
        exact ⟨mid, rfl, .equal mid (by omega) zero⟩
      · split
        · exact ih (mid + 1) high (by omega) h0 (by omega) (by omega)
        · exact ih low (mid - 1) l0 (by omega) (by omega) (by omega)
    · obtain ⟨i, rfl⟩ : ∃ i : Nat, low = i := ⟨low.toNat, by omega⟩
      exact ⟨-(i : Int) - 1, if_neg le, .gap i (by omega)⟩

theorem TreeAt.stops {s : Db} {h a : Nat} {R V F : List Nat} {E : List Entry}
    (t : TreeAt p s h a R E V F)
    (key : Bytes) :
    ∃ r, keyBinarySearch s.db (s.file.disk a) key = .ok r ∧ Stops s.db (s.file.disk a) key r := by
  have num := t.num
  have small := p.order.2
  have high : (((s.file.disk a).num : Int) - 1).bmod (2 ^ 32) =
      ((s.file.disk a).num : Int) - 1 := by
    apply Int.bmod_eq_of_le <;> omega
  simp only [keyBinarySearch, high]
  exact keyBinarySearchLoop_stops key
    (fun i hi => t.fits (by omega)) _ 0 _ le_rfl (by omega) (by omega) (by omega)

/-! ### Inserting -/

section Insert
variable {grow : Nat → Bool} {key value : Bytes} {s s' : Db} {h h' a c : Nat}
    {R V F side : List Nat}
  {E P Q : List Entry}

/-- How an insertion ends, from the entries `es` to `es'`: on a stored key that compares
    equal, with the value in a value block and an entry that points at it, or with -1 and the
    entries there were. -/
inductive Arrived (grow : Nat → Bool) (key value : Bytes) (p : Shape) (s s' : Db) (V V' : List Nat)
    (es es' : List Entry) : Except Errno Int → Prop where
  | present (e : Entry) (mem : e ∈ es) (zero : keyCmp p.keyType key e.1 p.keySize = 0) :
      Arrived grow key value p s s' V V' es es' (.ok 0)
  | stored (b : BtreeNode) (landed : Landed value s s' V V' b) (e : Entry) (mem : e ∈ es')
      (offset : e.2 = b.self + b.last) (old : Bytes)
      (image : e.1 = keyWrite p.keyType p.keySize old key) :
      Arrived grow key value p s s' V V' es es' (.ok 1)
  | full (same : es' = es) (m : Nat) (stuck : grow m = false)
      (total : s'.db.keyTotal = s.db.keyTotal) :
      Arrived grow key value p s s' V V' es es' (.error .ENOMEM)

def Arrives (grow : Nat → Bool) (key value : Bytes) (p : Shape) (s : Db) (h a : Nat) (R : List Nat)
    (E : List Entry) (V : List Nat) (run : Result (Db × Except Errno Int)) : Prop :=
  ∃ s' r V' F', run = .ok (s', r) ∧ Kept p s s' h a R E V' F' ∧
    Arrived grow key value p s s' V V' (flat s.file.disk h a) (flat s'.file.disk h a) r

theorem Landed.before {s1 : Db} {V' : List Nat} {b : BtreeNode} (landed : Landed value s1 s' V V' b)
    (same : ∀ v ∈ V, s1.file.disk v = s.file.disk v) : Landed value s s' V V' b :=
  { landed with old := fun mem => (landed.old mem).trans (same _ mem) }

theorem Arrived.before {s1 : Db} {V' : List Nat} {es es' : List Entry} {r : Except Errno Int}
    (arrived : Arrived grow key value p s1 s' V V' es es' r)
    (same : ∀ v ∈ V, s1.file.disk v = s.file.disk v) (totals : s1.db.keyTotal = s.db.keyTotal) :
        Arrived grow key value p s s' V V' es es' r := by
  cases arrived with
  | present e mem zero => exact .present e mem zero
  | stored b landed e mem offset old image =>
    exact .stored b (landed.before same) e mem offset old image
  | full kept m stuck total => exact .full kept m stuck (total.trans totals)

theorem Arrives.after {s1 : Db} {F1 : List Nat} {run : Result (Db × Except Errno Int)}
    (round : Rearranged p s s1 h a R E V F1) (arrives : Arrives grow key value p s1 h a R E V run) :
    Arrives grow key value p s h a R E V run := by
  obtain ⟨s2, r, V2, F2, hrun, kept, arrived⟩ := arrives
  refine ⟨s2, r, V2, F2, hrun, ⟨kept.tree, ?_, ?_, round.kept.num.trans kept.num⟩, ?_⟩
  · intro x hx
    rw [kept.frame x hx, round.kept.frame x hx]
  · intro e he
    rw [kept.same e (round.same ▸ he), round.kept.same e he]
  · rw [round.same] at arrived
    exact arrived.before round.values round.total

theorem Arrives.widen {run : Result (Db × Except Errno Int)} (t : TreeAt p s h' a R E V F)
    (ctx : Ctx s.file.disk h c h' a P Q side) (lower : h' = h ∨ ceil p.M - 1 ≤ (s.file.disk c).num)
    (arrives : Arrives grow key value p s h c (side ++ R) (P ++ Q ++ E) V run) :
    Arrives grow key value p s h' a R E V run := by
  obtain ⟨s', r, V', F', hrun, kept, arrived⟩ := arrives
  have side' : ∀ x ∈ side, s'.file.disk x = s.file.disk x := fun x hx =>
    kept.frame x (List.mem_append_left _ hx)
  obtain ⟨tree, flat'⟩ := t.unfocus ctx kept.tree side' (lower.imp_right fun l => l.trans kept.num)
  have flat := ctx.flat
  refine ⟨s', r, V', F', hrun, ⟨tree, fun x hx => kept.frame x (List.mem_append_right _ hx),
    ?_, ?_⟩, ?_⟩
  · intro e he
    refine kept.same e ?_
    rw [flat] at he
    simp only [List.mem_append] at he ⊢
    tauto
  · cases ctx with
    | here => exact kept.num
    | child E₁ E₂ A B ents chs len => rw [side' a List.mem_cons_self]
  · rw [flat, flat']
    cases arrived with
    | present e mem zero => exact .present e (by simp [mem]) zero
    | stored b landed e mem offset old image =>
      exact .stored b landed e (by simp [mem]) offset old image
    | full same m stuck total => exact .full (by rw [same]) m stuck total

theorem insertLeaf_arrives (t : TreeAt p s 0 a R E V F) (acc : Accepted value)
    (room : (s.file.disk a).num + 1 ≤ p.M) :
    Arrives grow key value p s 0 a R E V (insertLeaf grow key value s (s.file.disk a)) := by
  have has := t.part.has
  obtain ⟨r, search, stops⟩ := t.stops key
  cases stops with
  | equal i hi zero =>
    rw [has.compare] at zero
    refine ⟨s, .ok 0, V, F, ?_, .refl t, .present _ (mem_entries hi) zero⟩
    simp only [insertLeaf, search, bind, Except.bind]
    rw [if_pos (by omega)]
    rfl
  | gap i hi =>
    obtain ⟨s', r, V', F', run, kept, done⟩ := insertLeaf_at t acc room hi search
    refine ⟨s', r, V', F', run, kept, ?_⟩
    cases done with
    | full same m stuck total => exact .full same m stuck total
    | added b landed e new offset image stored total =>
      exact .stored b landed e (by simp [new]) offset _ image

theorem insertLoop_arrives (h fuel : Nat) (s : Db) (a : Nat) (R : List Nat) (E : List Entry)
    (F : List Nat)
    (enough : h < fuel) (t : TreeAt p s h a R E V F) (acc : Accepted value)
    (room : (s.file.disk a).num + 1 < p.M) :
    Arrives grow key value p s h a R E V (insertLoop grow key value fuel s (s.file.disk a)) := by
  induction h generalizing fuel s a R E F with
  | zero =>
    obtain ⟨fuel, rfl⟩ : ∃ n, fuel = n + 1 := ⟨fuel - 1, by omega⟩
    have leaf : (s.file.disk a).leaf = true := by simpa using t.leaf
    simp only [insertLoop, leaf, ↓reduceIte]
    exact insertLeaf_arrives t acc (by omega)
  | succ h ih =>
    obtain ⟨fuel, rfl⟩ : ∃ n, fuel = n + 1 := ⟨fuel - 1, by omega⟩
    have leaf : (s.file.disk a).leaf = false := by simpa using t.leaf
    have has := t.part.has
    obtain ⟨r, search, stops⟩ := t.stops key
    cases stops with
    | equal i hi zero =>
      rw [has.compare] at zero
      refine ⟨s, .ok 0, V, F, ?_, .refl t,
        .present _ ((entries_sublist_flat _ _).subset (mem_entries hi)) zero⟩
      simp only [insertLoop, leaf, Bool.false_eq_true, ↓reduceIte, search, bind, Except.bind]
      rw [if_pos (by omega)]
      rfl
    | gap i hi =>
      obtain ⟨s1, F1, round, entered⟩ := insertLoop_round grow value t room hi search fuel
      have t1 := round.kept.tree
      refine Arrives.after round ?_
      generalize insertLoop grow key value (fuel + 1) s (s.file.disk a) = run at entered ⊢
      cases entered with
      | full m stuck => exact ⟨s1, _, V, F1, rfl, .refl t1, .full rfl m stuck rfl⟩
      | equal e mem zero => exact ⟨s1, .ok 0, V, F1, rfl, .refl t1,
        .present e (round.same ▸ mem) zero⟩
      | child c E₁ E₂ A B ents chs len left right notFull =>
        have ctx : Ctx s1.file.disk h c (h + 1) a _ _ _ := .child E₁ E₂ A B ents chs len
        have node := (t1.children c (by rw [chs]; simp)).1
        refine Arrives.widen t1 ctx (.inr node.lower) ?_
        exact ih fuel s1 c _ _ F1 (by omega) (t1.focus ctx) notFull

/-- A whole insertion: the root may have been split, and a block may have been lost. -/
theorem dbInsert_arrives (grow : Nat → Bool) (t : TreeAt p s h headSize R [] V F)
    (short : ¬ TooLong s.db key)
    (acc : Accepted value) :
    ∃ s' r h' R' V' F', dbInsert grow s key value = .ok (s', r) ∧
      TreeAt p s' h' headSize R' [] V' F' ∧
      (¬ Leaks grow s → R' = R) ∧ (Leaks grow s → ∃ x, R' = x :: R) ∧
      (∀ e ∈ flat s.file.disk h headSize, valueAt s'.file.disk e.2 = valueAt s.file.disk e.2) ∧
      Arrived grow key value p s s' V V' (flat s.file.disk h headSize)
          (flat s'.file.disk h' headSize) r := by
  have tall := t.height_lt
  have block : ∀ e ∈ flat s.file.disk h headSize, blockOf e.2 ∈ V := fun e he =>
    t.values.block e (List.mem_append_left _ he)
  have started := dbInsert_started grow t short acc
  generalize dbInsert grow s key value = run at started ⊢
  cases started with
  | loop keeps room =>
    have arrives : Arrives grow key value p s h headSize R [] V _ :=
      insertLoop_arrives h s.file.size s headSize R [] F (by omega) t acc room
    obtain ⟨s', r, V', F', run, kept, arrived⟩ := arrives
    exact ⟨s', r, h, R, V', F', run, kept.tree, fun _ => rfl, fun leak => absurd leak keeps,
      fun e he => kept.same e (List.mem_append_left _ he), arrived⟩
  | grown keeps s2 F2 done =>
    have order := p.order.1
    have arrives : Arrives grow key value p s2 (h + 1) headSize R [] V _ :=
      insertLoop_arrives (h + 1) s.file.size s2 headSize R [] F2
        (by omega) done.tree acc (by rw [done.num]; omega)
    obtain ⟨s', r, V', F', run, kept, arrived⟩ := arrives
    refine ⟨s', r, h + 1, R, V', F', run, kept.tree, fun _ => rfl, fun leak => absurd leak keeps, ?_,
      done.same ▸ arrived.before done.sameV done.total⟩
    intro e he
    rw [kept.same e (List.mem_append_left _ (done.same ▸ he)),
      valueAt_congr (done.sameV _ (block e he))]
  | full keeps m stuck =>
    exact ⟨s, _, h, R, V, F, rfl, t, fun _ => rfl, fun leak => absurd leak keeps, fun _ _ => rfl,
      .full rfl m stuck rfl⟩
  | lost leak s1 x F1 tree same values total m stuck =>
    exact ⟨s1, _, h, x :: R, V, F1, rfl, tree, fun keeps => absurd leak keeps, fun _ => ⟨x, rfl⟩,
      fun e he => valueAt_congr (values _ (block e he)), .full same m stuck total⟩

end Insert

/-! ### Deleting -/

section Delete
variable {key : Bytes} {s s' : Db} {h h' a c : Nat} {R V F F' : List Nat} {E P Q : List Entry}
    {d : Descent}

/-- `run` keeps the shape of the tree at `a`; only a root with a single key may lose a level. -/
def KeepsShape (p : Shape) (s : Db) (h a : Nat) (R : List Nat) (E : List Entry)
    (run : Result (Db × Except Errno Int)) : Prop :=
  ∃ s' r h' V' F', run = .ok (s', r) ∧ TreeAt p s' h' a R E V' F' ∧
    (∀ x ∈ R, s'.file.disk x = s.file.disk x) ∧
    (2 ≤ (s.file.disk a).num → h' = h ∧ (s.file.disk a).num ≤ (s'.file.disk a).num + 1)

theorem Removed.keeps {e : Entry} {V' : List Nat} {run : Result (Db × Except Errno Int)}
    (removed : Removed p s s' h a R E e V' F') (hrun : run = .ok (s', .ok 1)) :
    KeepsShape p s h a R E run :=
  ⟨s', .ok 1, h, V', F', hrun, removed.tree, removed.frame, fun _ => ⟨rfl, removed.num⟩⟩

theorem KeepsShape.widen {run : Result (Db × Except Errno Int)}
    (turned : Turned p s s' h h' a c R E V F' P Q)
    (keeps : ∀ P' Q' side, Ctx s'.file.disk h c h' a P' Q' side →
      KeepsShape p s' h c (side ++ R) (P' ++ Q' ++ E) run) : KeepsShape p s (h + 1) a R E run := by
  have bounds := ceil_bounds p
  obtain ⟨P', Q', side, ctx, hP, hQ⟩ := turned.ctx
  obtain ⟨s2, r, h2, V2, F2, hrun, t2, frame, height⟩ := keeps P' Q' side ctx
  have same : ∀ x ∈ side, s2.file.disk x = s'.file.disk x := fun x hx =>
    frame x (List.mem_append_left _ hx)
  have rich := turned.rich
  obtain ⟨rfl, num⟩ := height (by omega)
  obtain ⟨tree, flat2⟩ := turned.tree.unfocus ctx t2 same (.inr (by omega))
  refine ⟨s2, r, h', V2, F2, hrun, tree, ?_, turned.num_bound ctx same⟩
  intro x hx
  rw [frame x (List.mem_append_right _ hx), turned.frame x hx]

theorem deleteLeaf_keeps (t : TreeAt p s 0 a R E V F) (node : d.node = s.file.disk a)
    (flag : d.flag = .zero) :
    KeepsShape p s 0 a R E (deleteLeaf key s d) := by
  obtain ⟨r, search, stops⟩ := t.stops key
  cases stops with
  | gap i hi =>
    refine ⟨s, .ok 0, 0, V, F, ?_, t, fun _ _ => rfl, fun _ => ⟨rfl, by omega⟩⟩
    simp only [deleteLeaf, flag, node, search, bind, Except.bind]
    rw [if_pos (by omega)]
    rfl
  | equal i hi zero =>
    obtain ⟨s', V', F', run, removed⟩ := deleteLeaf_at key t node flag hi search
    exact removed.keeps run

theorem deleteLoop_keeps (h fuel : Nat) (s : Db) (a : Nat) (R : List Nat) (E : List Entry)
    (V F : List Nat) (d : Descent) (enough : h < fuel) (t : TreeAt p s h a R E V F)
    (node : d.node = s.file.disk a) (flag : d.flag = .zero) :
    KeepsShape p s h a R E (deleteLoop key fuel s d) := by
  induction h generalizing fuel s a R E V F d with
  | zero =>
    obtain ⟨fuel, rfl⟩ : ∃ n, fuel = n + 1 := ⟨fuel - 1, by omega⟩
    have leaf : d.node.leaf = true := by rw [node]; simpa using t.leaf
    rw [deleteLoop, if_pos leaf]
    exact deleteLeaf_keeps t node flag
  | succ h ih =>
    obtain ⟨fuel, rfl⟩ : ∃ n, fuel = n + 1 := ⟨fuel - 1, by omega⟩
    have leaf : ¬ d.node.leaf = true := by rw [node]; simpa using t.leaf
    rw [deleteLoop, if_neg leaf]
    -- the recursive call, once the child is ready
    have descend : ∀ {s1 : Db} {F1 : List Nat} {c h' : Nat} {P Q : List Entry}
        (_ : Turned p s s1 h h' a c R E V F1 P Q),
        KeepsShape p s (h + 1) a R E (deleteLoop key fuel s1
            { d with node := s1.file.disk c }) := by
      intro s1 F1 c h' P Q turned
      refine KeepsShape.widen turned fun P' Q' side ctx => ?_
      exact ih fuel s1 c _ _ V F1 _ (by omega) (turned.tree.focus ctx) rfl flag
    obtain ⟨r, search, stops⟩ := t.stops key
    have position : deletePosition key s d = .ok r := by
      simp only [deletePosition, flag, node]
      exact search
    simp only [deleteStep, position, bind, Except.bind]
    cases stops with
    | gap i hi =>
      rw [if_neg (by omega), show (-(-(i : Int) - 1 + 1)).toNat = i by omega]
      obtain ⟨s1, F1, c, h', run, turned⟩ := enterChild_spec t node hi
      rw [run]
      exact descend turned
    | equal i hi zero =>
      rw [if_pos (by omega), Int.toNat_natCast]
      rcases enterMatch_spec key (Nat.lt_of_succ_lt_succ enough) t node hi with
        ⟨s1, d1, s', V', F', entered, run, removed⟩ | ⟨s1, F1, c, h', entered, turned⟩
      · rw [entered]
        exact removed.keeps run
      · rw [entered]
        exact descend turned

theorem dbDelete_keeps (t : TreeAt p s h headSize R [] V F) (short : ¬ TooLong s.db key) :
    ∃ s' r h' V' F', dbDelete s key = .ok (s', r) ∧ TreeAt p s' h' headSize R [] V' F' := by
  have inRoot : headSize ∈ blocks s.file.disk h headSize ++ R := by simp [blocks]
  have tall := t.height_lt
  have keeps : KeepsShape p s h headSize R [] (deleteLoop key s.file.size s
      { node := s.file.disk headSize, flag := .zero, nodeMatch := .zero s.db 0, iMatch := 0 }) :=
    deleteLoop_keeps h _ s headSize R [] V F _ (by omega) t rfl rfl
  obtain ⟨s', r, h', V', F', run, tree, _⟩ := keeps
  refine ⟨s', r, h', V', F', ?_, tree⟩
  simp only [dbDelete]
  rw [if_neg short, t.seek inRoot]
  exact run

end Delete

/-! ### Searching -/

section Search
variable {key : Bytes} {s : Db} {h : Nat} {R V F : List Nat} {E : List Entry}

theorem dbSearchLoop_answers (h fuel valueSize : Nat) (buf : BtreeNode) (a : Nat) (R : List Nat)
    (E : List Entry)
    (enough : h < fuel) (t : TreeAt p s h a R E V F) :
    ∃ r, dbSearchLoop s key valueSize fuel buf a = .ok r := by
  induction h generalizing fuel buf a R E with
  | zero =>
    obtain ⟨fuel, rfl⟩ : ∃ n, fuel = n + 1 := ⟨fuel - 1, by omega⟩
    obtain ⟨r, search, ⟨i, hi, zero⟩ | ⟨i, hi⟩⟩ := t.stops key
    · exact ⟨_, dbSearchLoop_record t fuel buf search hi⟩
    · have zero : ((s.file.disk a).slot i).child = 0 := t.children _ (mem_kids hi)
      exact ⟨_, (dbSearchLoop_gap t fuel buf search hi).trans (if_pos zero)⟩
  | succ h ih =>
    obtain ⟨fuel, rfl⟩ : ∃ n, fuel = n + 1 := ⟨fuel - 1, by omega⟩
    obtain ⟨r, search, ⟨i, hi, zero⟩ | ⟨i, hi⟩⟩ := t.stops key
    · exact ⟨_, dbSearchLoop_record t fuel buf search hi⟩
    · obtain ⟨r, next⟩ := ih fuel (s.file.disk a) _ _ _ (by omega) (t.focus (.ofChild hi))
      rw [dbSearchLoop_gap t fuel buf search hi, if_neg (t.child_ne hi)]
      exact ⟨r, next⟩

theorem dbSearch_answers (t : TreeAt p s h headSize R [] V F) (short : ¬ TooLong s.db key)
    (valueSize : Nat) :
    ∃ r, dbSearch s key valueSize = .ok r := by
  have tall := t.height_lt
  simp only [dbSearch]
  rw [if_neg short]
  exact dbSearchLoop_answers h _ valueSize _ headSize R [] (by omega) t

end Search

/-! ### The sizes -/

def Unwrapped (value : Bytes) : Prop := nodeHead + valueHead + value.length + alignment ≤ sizeMod

theorem accepted_iff {value : Bytes} :
    Accepted value ↔ Unwrapped value ∧
      ¬ blockSize < (nodeHead + valueRoom value.length) % sizeMod :=
  ⟨fun acc => ⟨acc.noWrap, acc.fits⟩, fun ⟨noWrap, fits⟩ => ⟨noWrap, fits⟩⟩

/-- The guard lets every size that wraps through: its sum comes to at most 48. -/
theorem wrapped_fits {value : Bytes} (size : value.length < sizeMod) (wraps : ¬ Unwrapped value) :
    ¬ blockSize < (nodeHead + valueRoom value.length) % sizeMod := by
  simp only [Unwrapped, valueRoom, dbAlign, nodeHead, valueHead, alignment, sizeMod, blockSize] at *
  omega

theorem wrapped_long {value : Bytes} (wraps : ¬ Unwrapped value) (last : Nat) :
    ¬ last + valueHead + value.length ≤ blockSize := by
  simp only [Unwrapped, nodeHead, valueHead, alignment, sizeMod, blockSize] at *
  omega

/-! ### Runs of any keys -/

def Call.Sized (t : KeyType) (n : Nat) : Call → Prop
  | .insert _ key value => ValidKey t n key ∧ Unwrapped value
  | .delete key => ValidKey t n key
  | .search key _ => ValidKey t n key

section Run
variable {s : Db} {h : Nat} {R V F : List Nat} {key value : Bytes}

theorem ValidKey.short (has : s.db.Has p) (valid : ValidKey p.keyType p.keySize key) :
    ¬ TooLong s.db key := by
  rintro ⟨type, long⟩
  rw [has.keyType] at type
  rw [has.keySize] at long
  rw [type] at valid
  exact absurd valid.2 (by omega)

theorem dbInsert_big (grow : Nat → Bool) (short : ¬ TooLong s.db key)
    (big : blockSize < (nodeHead + valueRoom value.length) % sizeMod) :
    dbInsert grow s key value = .ok (s, .error .E2BIG) := by
  simp only [dbInsert]
  rw [if_neg short, if_pos big]

theorem step_keeps (t : TreeAt p s h headSize R [] V F) {c : Call}
    (sized : c.Sized p.keyType p.keySize) :
    ∃ s' r h' R' V' F', step s c = .ok (s', r) ∧ TreeAt p s' h' headSize R' [] V' F' ∧
      (¬ c.Leaks s → R' = R) := by
  have has := t.part.has
  cases c with
  | insert grow key value =>
    obtain ⟨valid, noWrap⟩ := sized
    have short := valid.short has
    by_cases big : blockSize < (nodeHead + valueRoom value.length) % sizeMod
    · exact ⟨s, _, h, R, V, F, by rw [step, dbInsert_big grow short big]; rfl, t, fun _ => rfl⟩
    · obtain ⟨s', r, h', R', V', F', run, t', kept, _⟩ :=
        dbInsert_arrives grow t short (accepted_iff.mpr ⟨noWrap, big⟩)
      exact ⟨s', .status r, h', R', V', F', by rw [step, run]; rfl, t', kept⟩
  | delete key =>
    obtain ⟨s', r, h', V', F', run, t'⟩ := dbDelete_keeps t (ValidKey.short has sized)
    exact ⟨s', .status r, h', R, V', F', by rw [step, run]; rfl, t', fun _ => rfl⟩
  | search key valueSize =>
    obtain ⟨r, run⟩ := dbSearch_answers t (ValidKey.short has sized) valueSize
    exact ⟨s, .value r, h, R, V, F, by rw [step, run]; rfl, t, fun _ => rfl⟩

theorem run_keeps (cs : List Call) (t : TreeAt p s h headSize R [] V F)
    (sized : ∀ c ∈ cs, c.Sized p.keyType p.keySize) :
    ∃ s' rs h' R' V' F', run cs s = .ok (s', rs) ∧ TreeAt p s' h' headSize R' [] V' F' := by
  induction cs generalizing s h R V F with
  | nil => exact ⟨s, [], h, R, V, F, rfl, t⟩
  | cons c cs ih =>
    obtain ⟨s1, r, h1, R1, V1, F1, step1, t1, _⟩ := step_keeps t (sized c List.mem_cons_self)
    obtain ⟨s', rs, h', R', V', F', run', t'⟩ :=
      ih t1 fun d hd => sized d (List.mem_cons_of_mem _ hd)
    refine ⟨s', r :: rs, h', R', V', F', ?_, t'⟩
    simp only [run, step1, run', bind, Except.bind]
    rfl

end Run

end FileDb
