import CommonLib.FileDb.Node

/- What splitting, merging and borrowing make of the blocks they work on, as entries
   and children: every slot they touch fits, and no entry and no child is lost. -/
namespace FileDb
open OrderedTree

theorem Fits.mono {d : DbT} {i j : Nat} (h : Fits d j) (le : i ≤ j) : Fits d i := by
  have := Nat.mul_le_mul_left d.keyAlign (Nat.add_le_add_right le 1)
  unfold Fits at *
  omega

theorem slotAt_ok {d : DbT} {b : BtreeNode} {i : Nat} (h : Fits d i) :
    slotAt d b i = .ok (b.slot i) := if_pos h

theorem setSlot_ok {d : DbT} {b : BtreeNode} {i : Nat} {f : BtreeKey → BtreeKey} (h : Fits d i) :
    setSlot d b i f = .ok { b with slot := Function.update b.slot i (f (b.slot i)) } := if_pos h

theorem keycpy_ok {d : DbT} {dst src : BtreeNode} {i j count : Nat} {n : Int} (hn : n + 1 = count)
    (fd : count = 0 ∨ Fits d (i + count - 1)) (fs : count = 0 ∨ Fits d (j + count - 1)) :
    keycpy d dst i src j n = .ok { dst with slot := slotMove dst.slot i src.slot j count } := by
  have hc : (n + 1).toNat = count := by omega
  simp only [keycpy, hc]
  rw [if_neg (by omega), if_pos (by tauto)]

theorem openSlot_ok {d : DbT} {node : BtreeNode} {i : Nat} (hi : i ≤ node.num)
    (fN : Fits d (node.num + 1)) :
    keycpy d node (i + 1) node i ((node.num : Int) - i) =
      .ok { node with slot := slotMove node.slot (i + 1) node.slot i (node.num - i + 1) } :=
  keycpy_ok (by omega) (.inr (fN.mono (by omega))) (.inr (fN.mono (by omega)))

theorem closeSlot_ok {d : DbT} {node : BtreeNode} {i : Nat} (hi : i < node.num)
    (fN : Fits d node.num) :
    keycpy d node i node (i + 1) ((node.num : Int) - i - 1) =
      .ok { node with slot := slotMove node.slot i node.slot (i + 1) (node.num - i) } :=
  keycpy_ok (by omega) (.inr (fN.mono (by omega))) (.inr (fN.mono (by omega)))

theorem slotMove_in {f g : Nat → BtreeKey} {i j c k : Nat} (h : k < c) :
    slotMove f i g j c (i + k) = g (j + k) := by
  rw [slotMove, if_pos (by omega)]
  congr 1; omega

theorem slotMove_below {f g : Nat → BtreeKey} {i j c k : Nat} (h : k < i) :
    slotMove f i g j c k = f k := if_neg (by omega)

/-! ### Splitting -/

def splitLeft (X : BtreeNode) (n : Nat) : BtreeNode := { X with num := n }

def splitRight (X Y : BtreeNode) (n : Nat) : BtreeNode :=
  { Y with slot := slotMove Y.slot 0 X.slot (n + 1) (X.num - n), num := X.num - n - 1 }

def splitParent (node : BtreeNode) (i : Nat) (up : BtreeKey) (x y : Nat) : BtreeNode :=
  let moved := slotMove node.slot (i + 1) node.slot i (node.num - i + 1)
  { node with
    slot := Function.update (Function.update moved i { up with child := x }) (i + 1)
      { node.slot i with child := y }
    num := node.num + 1 }

theorem btreeSplitChild_ok (s : Db) (node X Y : BtreeNode) (i : Nat) (hi : i ≤ node.num)
    (hX : ceil s.db.M < X.num) (fX : Fits s.db X.num) (fN : Fits s.db (node.num + 1)) :
    let n := ceil s.db.M
    let node' := splitParent node i (X.slot n) X.self Y.self
    btreeSplitChild s node i X Y =
      .ok (nodeFlush (nodeFlush (nodeFlush s node') (splitLeft X n)) (splitRight X Y n),
        node', splitLeft X n, splitRight X Y n) := by
  intro n node'
  have c1 : keycpy s.db Y 0 X (n + 1) ((X.num : Int) - n - 1) =
      .ok { Y with slot := slotMove Y.slot 0 X.slot (n + 1) (X.num - n) } :=
    keycpy_ok (by omega) (.inr (fX.mono (by omega))) (.inr (fX.mono (by omega)))
  have c2 := openSlot_ok hi fN
  have f1 : Fits s.db n := fX.mono (by omega)
  have f2 : Fits s.db i := fN.mono (by omega)
  have f3 : Fits s.db (i + 1) := fN.mono (by omega)
  have moved : slotMove node.slot (i + 1) node.slot i (node.num - i + 1) (i + 1) = node.slot i :=
    slotMove_in (k := 0) (by omega)
  simp only [btreeSplitChild]
  rw [c1]
  simp only [bind, Except.bind, c2]
  simp [slotAt, setSlot, setChild, f1, f2, f3, pure, Except.pure, node', splitLeft, splitRight,
    splitParent, moved, n]

theorem btreeSplitChild_away {s s' : Db} {node X Y : BtreeNode} {i : Nat}
    {r : BtreeNode × BtreeNode × BtreeNode}
    (hi : i ≤ node.num) (hX : ceil s.db.M < X.num) (fX : Fits s.db X.num)
    (fN : Fits s.db (node.num + 1))
    (run : btreeSplitChild s node i X Y = .ok (s', r)) {z : Nat} (parent : z ≠ node.self)
    (left : z ≠ X.self) (right : z ≠ Y.self) : s'.file.disk z = s.file.disk z := by
  have done := btreeSplitChild_ok s node X Y i hi hX fX fN
  obtain ⟨rfl, _⟩ := Prod.mk.inj (Except.ok.inj (done.symm.trans run))
  change Function.update (Function.update (Function.update s.file.disk node.self _) X.self _)
    Y.self _ z = _
  rw [Function.update_of_ne right, Function.update_of_ne left, Function.update_of_ne parent]

theorem splitParent_entries (node : BtreeNode) {i : Nat} (up : BtreeKey) (x y : Nat)
    (hi : i ≤ node.num) :
    entries (splitParent node i up x y) =
      node.ents 0 i ++ up.entry :: node.ents i (node.num - i) := by
  have here : i < (splitParent node i up x y).num := Nat.lt_succ_of_le hi
  rw [entries_focus _ here]
  congr 1
  · refine slice_congr fun j hj => ?_
    simp only [splitParent, Nat.zero_add]
    rw [Function.update_of_ne
      (by omega), Function.update_of_ne (by omega), slotMove_below (by omega)]
  · congr 1
    · simp [splitParent, BtreeKey.entry]
    · have len : (splitParent node i up x y).num - i - 1 = node.num - i := by
        simp only [splitParent]; omega
      rw [len]
      refine slice_congr fun j hj => ?_
      simp only [splitParent]
      by_cases first : j = 0
      · subst first; simp [BtreeKey.entry]
      · rw [Function.update_of_ne (by omega), Function.update_of_ne (by omega),
          slotMove_in (by omega)]

theorem splitParent_kids (node : BtreeNode) {i : Nat} (up : BtreeKey) (x y : Nat)
    (hi : i ≤ node.num) :
    kids (splitParent node i up x y) =
      node.chs 0 i ++ x :: y :: node.chs (i + 1) (node.num - i) := by
  have here : i < (splitParent node i up x y).num := Nat.lt_succ_of_le hi
  rw [kids_focus_pair _ here]
  congr 1
  · refine slice_congr fun j hj => ?_
    simp only [splitParent, Nat.zero_add]
    rw [Function.update_of_ne
      (by omega), Function.update_of_ne (by omega), slotMove_below (by omega)]
  · have len : (splitParent node i up x y).num - i - 1 = node.num - i := by
      simp only [splitParent]; omega
    rw [len]
    congr 1
    · simp [splitParent]
    · congr 1
      · simp [splitParent]
      · refine slice_congr fun j hj => ?_
        simp only [splitParent]
        rw [Function.update_of_ne (by omega), Function.update_of_ne (by omega),
          show i + 2 + j = i + 1 + (j + 1) by omega, slotMove_in (by omega)]
        congr 2; omega

theorem splitLeft_entries (X : BtreeNode) (n : Nat) : entries (splitLeft X n) = X.ents 0 n := rfl

theorem splitLeft_kids (X : BtreeNode) (n : Nat) : kids (splitLeft X n) = X.chs 0 (n + 1) := rfl

theorem splitRight_entries (X Y : BtreeNode) (n : Nat) :
    entries (splitRight X Y n) = X.ents (n + 1) (X.num - n - 1) := by
  refine slice_congr fun j hj => ?_
  simp only [splitRight] at hj ⊢
  rw [slotMove_in (by omega)]

theorem splitRight_kids (X Y : BtreeNode) {n : Nat} (hn : n < X.num) :
    kids (splitRight X Y n) = X.chs (n + 1) (X.num - n) := by
  have len : (splitRight X Y n).num + 1 = X.num - n := by simp only [splitRight]; omega
  rw [kids, len]
  refine slice_congr fun j hj => ?_
  simp only [splitRight]
  rw [slotMove_in (by omega)]

/-! ### Merging -/

def mergedNode (X : BtreeNode) (up : BtreeKey) (Y : BtreeNode) : BtreeNode :=
  let put := Function.update X.slot X.num { X.slot X.num with key := up.key, value := up.value }
  { X with slot := slotMove put (X.num + 1) Y.slot 0 (Y.num + 1), num := X.num + (1 + Y.num) }

def mergeParent (node : BtreeNode) (i x : Nat) : BtreeNode :=
  let moved := slotMove node.slot i node.slot (i + 1) (node.num - i)
  { node with slot := Function.update moved i { moved i with child := x }, num := node.num - 1 }

def rootFrom (node sub : BtreeNode) : BtreeNode :=
  { node with num := sub.num, leaf := sub.leaf, slot := sub.slot, bytes := sub.bytes }

theorem btreeMerge_ok (s : Db) (node X Y : BtreeNode) (i : Nat) (hi : i < node.num)
    (fX : Fits s.db (X.num + 1 + Y.num)) (fN : Fits s.db node.num) :
    let node' := mergeParent node i X.self
    let sub := mergedNode X (node.slot i) Y
    btreeMerge s node i X Y = .ok (if node'.num ≠ 0 then
        (nodeFlush (nodeFlush (nodeDestroy s Y) sub) node', node', sub, false)
      else
        (nodeFlush (nodeDestroy (nodeDestroy s Y) sub) (rootFrom node' sub),
          rootFrom node' sub, sub, true)) := by
  intro node' sub
  have f1 : Fits s.db i := fN.mono hi.le
  have f2 : Fits s.db X.num := fX.mono (by omega)
  have c1 (X' : BtreeNode) : keycpy s.db X' (X.num + 1) Y 0 Y.num =
      .ok { X' with slot := slotMove X'.slot (X.num + 1) Y.slot 0 (Y.num + 1) } :=
    keycpy_ok (by omega) (.inr (fX.mono (by omega))) (.inr (fX.mono (by omega)))
  have c2 := closeSlot_ok hi fN
  simp only [btreeMerge, slotAt_ok f1, setKeyValue, setSlot_ok f2, bind, Except.bind, c1, c2,
    setChild, setSlot_ok f1]
  by_cases last : node'.num = 0
  · have last' : node.num - 1 = 0 := last
    simp only [last', last, ne_eq, not_true_eq_false, ↓reduceIte]
    rfl
  · have last' : ¬ node.num - 1 = 0 := last
    simp only [last', last, ne_eq, not_false_eq_true, ↓reduceIte]
    rfl

theorem mergedNode_entries (X Y : BtreeNode) (up : BtreeKey) :
    entries (mergedNode X up Y) = entries X ++ up.entry :: entries Y := by
  have here : X.num < (mergedNode X up Y).num := by simp only [mergedNode]; omega
  rw [entries_focus _ here]
  congr 1
  · refine slice_congr fun j hj => ?_
    simp only [mergedNode, Nat.zero_add]
    rw [slotMove_below (by omega), Function.update_of_ne (by omega)]
  · congr 1
    · simp only [mergedNode]
      rw [slotMove_below (by omega), Function.update_self]
      rfl
    · have len : (mergedNode X up Y).num - X.num - 1 = Y.num := by simp only [mergedNode]; omega
      rw [len]
      refine slice_congr fun j hj => ?_
      simp only [mergedNode]
      rw [slotMove_in (by omega)]

theorem mergedNode_kids (X Y : BtreeNode) (up : BtreeKey) :
    kids (mergedNode X up Y) = kids X ++ kids Y := by
  have len : (mergedNode X up Y).num + 1 = (X.num + 1) + (Y.num + 1) := by
    simp only [mergedNode]; omega
  simp only [kids, BtreeNode.chs, len]
  rw [slice_add _ 0 (X.num + 1) (Y.num + 1)]
  congr 1
  · refine slice_congr fun j hj => ?_
    simp only [mergedNode, Nat.zero_add]
    rw [slotMove_below (by omega)]
    by_cases last : j = X.num
    · subst last; simp
    · rw [Function.update_of_ne last]
  · refine slice_congr fun j hj => ?_
    simp only [mergedNode, Nat.zero_add]
    rw [slotMove_in hj, Nat.zero_add]

theorem mergeParent_entries (node : BtreeNode) {i : Nat} (x : Nat) (hi : i < node.num) :
    entries (mergeParent node i x) = node.ents 0 i ++ node.ents (i + 1) (node.num - i - 1) := by
  have len : (mergeParent node i x).num = i + (node.num - i - 1) := by
    simp only [mergeParent]; omega
  rw [entries, BtreeNode.ents, len, slice_add]
  congr 1
  · refine slice_congr fun j hj => ?_
    simp only [mergeParent, Nat.zero_add]
    rw [Function.update_of_ne (by omega), slotMove_below (by omega)]
  · refine slice_congr fun j hj => ?_
    simp only [mergeParent, Nat.zero_add]
    by_cases first : j = 0
    · subst first
      have := slotMove_in (f := node.slot) (g := node.slot) (i := i) (j := i + 1)
        (c := node.num - i) (k := 0) (by omega)
      simp only [Nat.add_zero] at this
      simp [BtreeKey.entry, this]
    · rw [Function.update_of_ne (by omega), slotMove_in (by omega)]

theorem mergeParent_kids (node : BtreeNode) {i : Nat} (x : Nat) (hi : i < node.num) :
    kids (mergeParent node i x) = node.chs 0 i ++ x :: node.chs (i + 2) (node.num - i - 1) := by
  have here : i ≤ (mergeParent node i x).num := by simp only [mergeParent]; omega
  rw [kids_focus _ here]
  congr 1
  · refine slice_congr fun j hj => ?_
    simp only [mergeParent, Nat.zero_add]
    rw [Function.update_of_ne (by omega), slotMove_below (by omega)]
  · congr 1
    · simp [mergeParent]
    · have len : (mergeParent node i x).num - i = node.num - i - 1 := by
        simp only [mergeParent]; omega
      rw [len]
      refine slice_congr fun j hj => ?_
      simp only [mergeParent]
      rw [Function.update_of_ne (by omega), Nat.add_assoc i 1 j, slotMove_in (by omega)]
      congr 2; omega

/-! ### Borrowing -/

def replaceEntry (node : BtreeNode) (i : Nat) (k : BtreeKey) : BtreeNode :=
  { node with
    slot := Function.update node.slot i { node.slot i with key := k.key, value := k.value } }

def dropFirst (b : BtreeNode) : BtreeNode :=
  { b with slot := slotMove b.slot 0 b.slot 1 b.num, num := b.num - 1 }

def dropLast (b : BtreeNode) : BtreeNode := { b with num := b.num - 1 }

def pushLast (X : BtreeNode) (up : BtreeKey) (child : Nat) : BtreeNode :=
  let put := Function.update X.slot X.num { X.slot X.num with key := up.key, value := up.value }
  { X with
    slot := Function.update put (X.num + 1) { X.slot (X.num + 1) with child := child }
    num := X.num + 1 }

def pushFirst (X : BtreeNode) (up : BtreeKey) (child : Nat) : BtreeNode :=
  let moved := slotMove X.slot 1 X.slot 0 (X.num + 1)
  { X with
    slot := Function.update moved 0 { value := up.value, child := child, key := up.key }
    num := X.num + 1 }

theorem setKeyValue_ok {d : DbT} {b : BtreeNode} {i : Nat} {k : BtreeKey} (h : Fits d i) :
    setKeyValue d b i k = .ok (replaceEntry b i k) := setSlot_ok h

theorem borrowFromRight_ok (s : Db) (node X Y : BtreeNode) (i : Nat) (fN : Fits s.db i)
    (fX : Fits s.db (X.num + 1)) (hY : 0 < Y.num) (fY : Fits s.db Y.num) :
    let node' := replaceEntry node i (Y.slot 0)
    let X' := pushLast X (node.slot i) (Y.slot 0).child
    borrowFromRight s node i X Y =
      .ok (nodeFlush (nodeFlush (nodeFlush s node') X') (dropFirst Y), node', X') := by
  intro node' X'
  have f0 : Fits s.db 0 := fY.mono (by omega)
  have f1 : Fits s.db X.num := fX.mono (by omega)
  have c : keycpy s.db Y 0 Y 1 ((Y.num : Int) - 1) =
      .ok { Y with slot := slotMove Y.slot 0 Y.slot 1 Y.num } :=
    keycpy_ok (by omega) (.inr (fY.mono (by omega))) (.inr (fY.mono (by omega)))
  have away : (replaceEntry X X.num (node.slot i)).slot
      ((replaceEntry X X.num (node.slot i)).num + 1) = X.slot (X.num + 1) :=
    Function.update_of_ne (show X.num + 1 ≠ X.num by omega) _ _
  simp only [borrowFromRight, slotAt_ok fN, setKeyValue_ok f1, slotAt_ok f0, bind, Except.bind,
    setChild, setKeyValue_ok fN, c]
  rw [setSlot_ok (by exact fX), away]
  rfl

theorem borrowFromLeft_ok (s : Db) (node W X : BtreeNode) (i : Nat) (fN : Fits s.db (i - 1))
    (fX : Fits s.db (X.num + 1)) (fW : Fits s.db W.num) :
    let node' := replaceEntry node (i - 1) (W.slot (W.num - 1))
    let X' := pushFirst X (node.slot (i - 1)) (W.slot W.num).child
    borrowFromLeft s node i W X =
      .ok (nodeFlush (nodeFlush (nodeFlush s node') X') (dropLast W), node', X') := by
  intro node' X'
  have f0 : Fits s.db 0 := fX.mono (by omega)
  have f1 : Fits s.db (W.num - 1) := fW.mono (by omega)
  have c : keycpy s.db X 1 X 0 X.num =
      .ok { X with slot := slotMove X.slot 1 X.slot 0 (X.num + 1) } :=
    keycpy_ok (by omega) (.inr (fX.mono (by omega))) (.inr (fX.mono (by omega)))
  simp only [borrowFromLeft, c, slotAt_ok fN, setKeyValue_ok f0, slotAt_ok fW, slotAt_ok f1, bind,
    Except.bind, setChild, setSlot_ok f0, setKeyValue_ok fN]
  simp [replaceEntry, pure, Except.pure, node', X', pushFirst, dropLast]

theorem replaceEntry_entries (node : BtreeNode) {i : Nat} (k : BtreeKey) (hi : i < node.num) :
    entries (replaceEntry node i k) =
      node.ents 0 i ++ k.entry :: node.ents (i + 1) (node.num - i - 1) := by
  have here : i < (replaceEntry node i k).num := hi
  rw [entries_focus _ here]
  congr 1
  · refine slice_congr fun j hj => ?_
    simp only [replaceEntry, Nat.zero_add]
    rw [Function.update_of_ne (by omega)]
  · congr 1
    · simp [replaceEntry, BtreeKey.entry]
    · refine slice_congr fun j hj => ?_
      simp only [replaceEntry]
      rw [Function.update_of_ne (by omega)]

theorem replaceEntry_kids (node : BtreeNode) (i : Nat) (k : BtreeKey) :
    kids (replaceEntry node i k) = kids node := by
  simp only [kids, BtreeNode.chs, show (replaceEntry node i k).num = node.num from rfl]
  refine slice_congr fun j hj => ?_
  simp only [replaceEntry, Nat.zero_add]
  by_cases same : j = i
  · subst same; simp
  · rw [Function.update_of_ne same]

theorem dropFirst_entries (b : BtreeNode) : entries (dropFirst b) = b.ents 1 (b.num - 1) := by
  refine slice_congr fun j hj => ?_
  simp only [dropFirst] at hj ⊢
  rw [slotMove_in (by omega)]

theorem dropFirst_kids (b : BtreeNode) (h : 0 < b.num) : kids (dropFirst b) = b.chs 1 b.num := by
  have len : (dropFirst b).num + 1 = b.num := by simp only [dropFirst]; omega
  rw [kids, len]
  refine slice_congr fun j hj => ?_
  simp only [dropFirst]
  rw [slotMove_in (by omega)]

theorem dropLast_entries (b : BtreeNode) : entries (dropLast b) = b.ents 0 (b.num - 1) := rfl

theorem dropLast_kids (b : BtreeNode) (h : 0 < b.num) : kids (dropLast b) = b.chs 0 b.num := by
  rw [kids, dropLast, Nat.sub_add_cancel h]; rfl

theorem pushLast_entries (X : BtreeNode) (up : BtreeKey) (child : Nat) :
    entries (pushLast X up child) = entries X ++ [up.entry] := by
  simp only [entries, BtreeNode.ents, show (pushLast X up child).num = X.num + 1 from rfl,
    slice_last]
  congr 1
  · refine slice_congr fun j hj => ?_
    simp only [pushLast, Nat.zero_add]
    rw [Function.update_of_ne (by omega), Function.update_of_ne (by omega)]
  · simp [pushLast, BtreeKey.entry]

theorem pushLast_kids (X : BtreeNode) (up : BtreeKey) (child : Nat) :
    kids (pushLast X up child) = kids X ++ [child] := by
  simp only [kids, BtreeNode.chs, show (pushLast X up child).num = X.num + 1 from rfl]
  rw [slice_last]
  congr 1
  · refine slice_congr fun j hj => ?_
    simp only [pushLast, Nat.zero_add]
    rw [Function.update_of_ne (by omega)]
    by_cases last : j = X.num
    · subst last; simp
    · rw [Function.update_of_ne last]
  · simp [pushLast]

theorem pushFirst_entries (X : BtreeNode) (up : BtreeKey) (child : Nat) :
    entries (pushFirst X up child) = up.entry :: entries X := by
  simp only [entries, BtreeNode.ents, show (pushFirst X up child).num = X.num + 1 from rfl,
    slice_succ]
  congr 1
  refine slice_congr fun j hj => ?_
  simp only [pushFirst]
  rw [Function.update_of_ne (by omega), Nat.zero_add, slotMove_in (by omega)]

theorem pushFirst_kids (X : BtreeNode) (up : BtreeKey) (child : Nat) :
    kids (pushFirst X up child) = child :: kids X := by
  simp only [kids, BtreeNode.chs, show (pushFirst X up child).num = X.num + 1 from rfl]
  rw [slice_succ]
  congr 1
  refine slice_congr fun j hj => ?_
  simp only [pushFirst]
  rw [Function.update_of_ne (by omega), Nat.zero_add, slotMove_in (by omega)]

/-! ### Single entries -/

def insertEntry (node : BtreeNode) (i : Nat) (key : Bytes → Bytes) (value : Nat) : BtreeNode :=
  let moved := slotMove node.slot (i + 1) node.slot i (node.num - i + 1)
  { node with
    slot := Function.update moved i
      { node.slot i with key := key (node.slot i).key, value := value }
    num := node.num + 1 }

def removeEntry (node : BtreeNode) (i : Nat) : BtreeNode :=
  { node with slot := slotMove node.slot i node.slot (i + 1) (node.num - i), num := node.num - 1 }

theorem insertEntry_entries (node : BtreeNode) {i : Nat} (key : Bytes → Bytes) (value : Nat)
    (hi : i ≤ node.num) :
    entries (insertEntry node i key value) =
      node.ents 0 i ++ (key (node.slot i).key, value) :: node.ents i (node.num - i) := by
  have here : i < (insertEntry node i key value).num := Nat.lt_succ_of_le hi
  rw [entries_focus _ here]
  congr 1
  · refine slice_congr fun j hj => ?_
    simp only [insertEntry, Nat.zero_add]
    rw [Function.update_of_ne (by omega), slotMove_below (by omega)]
  · congr 1
    · simp [insertEntry, BtreeKey.entry]
    · have len : (insertEntry node i key value).num - i - 1 = node.num - i := by
        simp only [insertEntry]; omega
      rw [len]
      refine slice_congr fun j hj => ?_
      simp only [insertEntry]
      rw [Function.update_of_ne (by omega), slotMove_in (by omega)]

theorem insertEntry_kids (node : BtreeNode) {i : Nat} (key : Bytes → Bytes) (value : Nat)
    (hi : i ≤ node.num) : ∀ c ∈ kids (insertEntry node i key value), c ∈ kids node := by
  intro c hc
  obtain ⟨j, hj, rfl⟩ := mem_slice.mp hc
  simp only [insertEntry, Nat.zero_add] at hj ⊢
  by_cases same : j = i
  · subst same
    rw [Function.update_self]
    exact mem_kids hi
  · rw [Function.update_of_ne same, slotMove]
    split
    · exact mem_kids (by omega)
    · exact mem_kids (by omega)

theorem removeEntry_entries (node : BtreeNode) {i : Nat} (hi : i < node.num) :
    entries (removeEntry node i) = node.ents 0 i ++ node.ents (i + 1) (node.num - i - 1) := by
  have len : (removeEntry node i).num = i + (node.num - i - 1) := by
    simp only [removeEntry]; omega
  rw [entries, BtreeNode.ents, len, slice_add]
  congr 1
  · refine slice_congr fun j hj => ?_
    simp only [removeEntry, Nat.zero_add]
    rw [slotMove_below (by omega)]
  · refine slice_congr fun j hj => ?_
    simp only [removeEntry, Nat.zero_add]
    rw [slotMove_in (by omega)]

theorem removeEntry_kids (node : BtreeNode) (i : Nat) :
    ∀ c ∈ kids (removeEntry node i), c ∈ kids node := by
  intro c hc
  obtain ⟨j, hj, rfl⟩ := mem_slice.mp hc
  simp only [removeEntry, Nat.zero_add] at hj ⊢
  rw [slotMove]
  split
  · exact mem_kids (by omega)
  · exact mem_kids (by omega)

end FileDb
