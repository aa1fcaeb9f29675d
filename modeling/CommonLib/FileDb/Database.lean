import CommonLib.FileDb.Delete

/- The calls on a whole database, and its contents as a finite map. -/
namespace FileDb
open OrderedTree
variable {κ : Type} [LinearOrder κ] {p : Shape} {O : KeyOrder κ p.keyType p.keySize}
  {key : Bytes} {s : Db} {h : Nat} {R V F : List Nat}

theorem Deleted.sorted {s' : Db} {es es' : List Entry} {r : Except Errno Int}
    (del : Deleted O key s s' es es' r) (sorted : Sorted O es) : Sorted O es' := by
  cases del with
  | absent none same total => exact same ▸ sorted
  | removed P Q e old new rank total =>
    rw [old] at sorted
    rw [new]
    exact sorted.sublist (List.Sublist.append_left (List.sublist_cons_self e Q) P)

theorem Deleted.total {s' : Db} {es es' : List Entry} {r : Except Errno Int}
    (del : Deleted O key s s' es es' r) (total : s.db.keyTotal = es.length) :
    s'.db.keyTotal = es'.length := by
  cases del with
  | absent none same tot => rw [tot, same, total]
  | removed P Q e old new rank tot =>
    rw [tot, new, total, old]
    simp only [List.length_append, List.length_cons]
    omega

theorem dbDelete_spec (st : Stands O s h R V F) (arg : O.arg key) :
    ∃ s' r h' V' F', dbDelete s key = .ok (s', r) ∧ Stands O s' h' R V' F' ∧
      (∀ e ∈ flat s'.file.disk h' headSize, valueAt s'.file.disk e.2 = valueAt s.file.disk e.2) ∧
      Deleted O key s s' (flat s.file.disk h headSize) (flat s'.file.disk h' headSize) r := by
  have inRoot : headSize ∈ blocks s.file.disk h headSize ++ R := by simp [blocks]
  have tall := st.tree.height_lt
  have del : Deletes O key s h headSize R [] (deleteLoop key s.file.size s
      { node := s.file.disk headSize, flag := .zero, nodeMatch := .zero s.db 0, iMatch := 0 }) :=
    deleteLoop_spec h _ s headSize R [] V F _ (by omega) st.tree st.sorted arg rfl rfl
  obtain ⟨s', r, h', V', F', run, tree, frame, values, _, done⟩ := del
  refine ⟨s', r, h', V', F', ?_, ⟨tree, done.sorted st.sorted, done.total st.total⟩, ?_, done⟩
  · simp only [dbDelete]
    rw [if_neg (O.not_long st.tree.part.has arg), st.tree.seek inRoot]
    exact run
  · exact fun e he => values e (by simpa using he)

/-! ### Searching -/

def found (O : KeyOrder κ p.keyType p.keySize) (disk : Nat → BtreeNode) (key : Bytes)
    (valueSize : Nat) (es : List Entry) : Except Errno Bytes :=
  match lookup O.entryRank es (O.rank key) with
  | none => .error .ENOMSG
  | some e =>
    if valueSize < (valueAt disk e.2).length then .error .E2BIG else .ok (valueAt disk e.2)

theorem lookup_around {P Q es : List Entry} {k : κ} (below : ∀ e ∈ P, O.entryRank e < k)
    (above : ∀ e ∈ Q, k < O.entryRank e) :
    lookup O.entryRank (P ++ es ++ Q) k = lookup O.entryRank es k := by
  have left : lookup O.entryRank P k = none := lookup_none_iff.mpr fun e he => (below e he).ne
  have right : lookup O.entryRank Q k = none := lookup_none_iff.mpr fun e he => (above e he).ne'
  rw [lookup_append, lookup_append, left, right]
  simp

theorem readRecord {E : List Entry} {a : Nat} (t : TreeAt p s h a R E V F) {e : Entry}
    (mem : e ∈ flat s.file.disk h a ++ E) (buf : BtreeNode) :
    nodeSeek s buf (blockOf e.2) = s.file.disk (blockOf e.2) ∧
      (s.file.disk (blockOf e.2)).self = blockOf e.2 ∧
      e.2 - blockOf e.2 + valueHead +
        readSize (s.file.disk (blockOf e.2)) (e.2 - blockOf e.2) ≤ blockSize ∧
      readSize (s.file.disk (blockOf e.2)) (e.2 - blockOf e.2) =
          (valueAt s.file.disk e.2).length := by
  have inV := t.values.block e mem
  have inFile := t.part.value_mem inV
  refine ⟨seek_ok inFile buf, t.part.self _ inFile, ?_, ?_⟩
  · exact (t.values.room e mem).trans (t.values.last _ inV)
  · rw [valueAt, readValue, List.length_map, List.length_range]

theorem dbSearchLoop_record {E : List Entry} {a i valueSize : Nat} (t : TreeAt p s h a R E V F)
    (fuel : Nat) (buf : BtreeNode) (search : keyBinarySearch s.db (s.file.disk a) key = .ok i)
    (hi : i < (s.file.disk a).num) :
    dbSearchLoop s key valueSize (fuel + 1) buf a =
      .ok (if valueSize < (valueAt s.file.disk
        ((s.file.disk a).slot i).value).length then .error .E2BIG
        else .ok (valueAt s.file.disk ((s.file.disk a).slot i).value)) := by
  have upper := t.num
  have mem : ((s.file.disk a).slot i).entry ∈ flat s.file.disk h a :=
    (entries_sublist_flat h a).subset (mem_entries hi)
  obtain ⟨seek, self, room, size⟩ := readRecord t (List.mem_append_left E mem) (s.file.disk a)
  simp only [BtreeKey.entry] at seek self room size
  simp only [dbSearchLoop, t.seek (show a ∈ blocks s.file.disk h a ++
    R by simp [blocks]), search, bind,
    Except.bind]
  rw [if_pos (by omega), Int.toNat_natCast, slotAt_ok (t.fits (show i ≤ p.M by omega))]
  simp only [seek, self, size] at room ⊢
  rw [if_neg (by omega)]
  split
  · rfl
  · rw [if_neg (by omega)]
    rfl

theorem dbSearchLoop_at {E : List Entry} {a i fuel valueSize : Nat} (t : TreeAt p s h a R E V F)
    (sorted : Sorted O (flat s.file.disk h a)) (buf : BtreeNode)
    (search : keyBinarySearch s.db (s.file.disk a) key = .ok i) (hi : i < (s.file.disk a).num)
    (eq : O.rank ((s.file.disk a).slot i).key = O.rank key) :
    dbSearchLoop s key valueSize (fuel + 1) buf a =
      .ok (found O s.file.disk key valueSize (flat s.file.disk h a)) := by
  have mem : ((s.file.disk a).slot i).entry ∈ flat s.file.disk h a :=
    (entries_sublist_flat h a).subset (mem_entries hi)
  have here : lookup O.entryRank (flat s.file.disk h a) (O.rank key) =
      some ((s.file.disk a).slot i).entry := by
    rw [← eq]
    exact lookup_mem sorted.ordered mem
  rw [dbSearchLoop_record t fuel buf search hi, found, here]
  rfl

theorem dbSearchLoop_gap {E : List Entry} {a i valueSize : Nat} (t : TreeAt p s h a R E V F)
    (fuel : Nat)
    (buf : BtreeNode) (search : keyBinarySearch s.db (s.file.disk a) key = .ok (-(i : Int) - 1))
    (hi : i ≤ (s.file.disk a).num) :
    dbSearchLoop s key valueSize (fuel + 1) buf a =
      if ((s.file.disk a).slot i).child = 0 then .ok (.error .ENOMSG)
      else dbSearchLoop s key valueSize fuel (s.file.disk a) ((s.file.disk a).slot i).child := by
  have upper := t.num
  simp only [dbSearchLoop, t.seek (show a ∈ blocks s.file.disk h a ++ R by simp [blocks]), search,
    bind, Except.bind]
  rw [if_neg (by omega), show (-(-(i : Int) - 1 + 1)).toNat = i by omega,
    slotAt_ok (t.fits (show i ≤ p.M by omega))]
  rfl

theorem TreeAt.child_ne {E : List Entry} {a i : Nat} (t : TreeAt p s (h + 1) a R E V F)
    (hi : i ≤ (s.file.disk a).num) :
    ((s.file.disk a).slot i).child ≠ 0 := by
  have := (offsets_bounds (t.block_mem (child_mem hi))).1
  simp only [headSize] at this
  omega

theorem dbSearchLoop_spec (h fuel : Nat) (buf : BtreeNode) (a valueSize : Nat) (R : List Nat)
    (E : List Entry) (V F : List Nat) (enough : h < fuel) (t : TreeAt p s h a R E V F)
    (sorted : Sorted O (flat s.file.disk h a)) (arg : O.arg key) :
    dbSearchLoop s key valueSize fuel buf a =
      .ok (found O s.file.disk key valueSize (flat s.file.disk h a)) := by
  induction h generalizing fuel buf a R E V F with
  | zero =>
    obtain ⟨fuel, rfl⟩ : ∃ n, fuel = n + 1 := ⟨fuel - 1, by omega⟩
    obtain ⟨r, search, ⟨i, hi, eq⟩ | ⟨i, hi, below, above⟩⟩ := t.search O sorted arg
    · exact dbSearchLoop_at t sorted buf search hi eq
    · have zero : ((s.file.disk a).slot i).child = 0 := t.children _ (mem_kids hi)
      have none : lookup O.entryRank (flat s.file.disk 0 a) (O.rank key) = none := by
        have split : flat s.file.disk 0 a = _ := entries_split (s.file.disk a) hi
        rw [split]
        exact lookup_between (slice_below below) (slice_above above)
      rw [dbSearchLoop_gap t fuel buf search hi, if_pos zero, found, none]
  | succ h ih =>
    obtain ⟨fuel, rfl⟩ : ∃ n, fuel = n + 1 := ⟨fuel - 1, by omega⟩
    obtain ⟨r, search, ⟨i, hi, eq⟩ | ⟨i, hi, below, above⟩⟩ := t.search O sorted arg
    · exact dbSearchLoop_at t sorted buf search hi eq
    · have around := sorted
      rw [(Ctx.ofChild hi).flat] at around
      obtain ⟨belowP, aboveQ⟩ := around.around (slice_below below) (slice_above above)
      have next := ih fuel (s.file.disk a) _ _ _ V F
        (by omega) (t.focus (.ofChild hi)) around.left.right
      have same : lookup O.entryRank (flat s.file.disk (h + 1) a) (O.rank key) =
          lookup O.entryRank (flat s.file.disk h ((s.file.disk a).slot i).child) (O.rank key) := by
        rw [(Ctx.ofChild hi).flat]
        exact lookup_around belowP aboveQ
      rw [dbSearchLoop_gap t fuel buf search hi, if_neg (t.child_ne hi), next]
      simp only [found, same]

theorem dbSearch_spec (st : Stands O s h R V F) (arg : O.arg key) (valueSize : Nat) :
    dbSearch s key valueSize =
      .ok (found O s.file.disk key valueSize (flat s.file.disk h headSize)) := by
  have tall := st.tree.height_lt
  simp only [dbSearch]
  rw [if_neg (O.not_long st.tree.part.has arg)]
  exact dbSearchLoop_spec h _ _ headSize valueSize R [] V F (by omega) st.tree st.sorted arg

end FileDb
