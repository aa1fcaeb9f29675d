import CommonLib.FileDb.Operations
import CommonLib.FileDb.Keys
import CommonLib.OrderedTree.Weave

/- One block read as a node of the tree: its entries and its children, where a key
   belongs among them, and what the slot operations make of them. -/
namespace FileDb
open OrderedTree
variable {κ : Type} [LinearOrder κ] {t : KeyType} {n : Nat}

abbrev Entry := Bytes × Nat

def BtreeKey.entry (k : BtreeKey) : Entry := (k.key, k.value)

def BtreeNode.ents (b : BtreeNode) : Nat → Nat → List Entry := slice fun i => (b.slot i).entry
def BtreeNode.chs (b : BtreeNode) : Nat → Nat → List Nat := slice fun i => (b.slot i).child

def entries (b : BtreeNode) : List Entry := b.ents 0 b.num
def kids (b : BtreeNode) : List Nat := b.chs 0 (b.num + 1)

def KeyOrder.entryRank (O : KeyOrder κ t n) (e : Entry) : κ := O.rank e.1

@[simp] theorem entries_length (b : BtreeNode) : (entries b).length = b.num := by
  simp [entries, BtreeNode.ents]

@[simp] theorem kids_length (b : BtreeNode) : (kids b).length = b.num + 1 := by
  simp [kids, BtreeNode.chs]

theorem mem_entries {b : BtreeNode} {i : Nat} (h : i < b.num) : (b.slot i).entry ∈ entries b :=
  mem_slice.mpr ⟨i, h, by simp⟩

theorem mem_kids {b : BtreeNode} {i : Nat} (h : i ≤ b.num) : (b.slot i).child ∈ kids b :=
  mem_slice.mpr ⟨i, by omega, by simp⟩

theorem kids_halves (b : BtreeNode) {c : Nat} (lt : c < b.num) :
    kids b = b.chs 0 (c + 1) ++ b.chs (c + 1) (b.num - c) := by
  have halves := slice_add (fun j => (b.slot j).child) 0 (c + 1) (b.num - c)
  rw [Nat.zero_add, show c + 1 + (b.num - c) = b.num + 1 by omega] at halves
  exact halves

theorem entries_focus (b : BtreeNode) {i : Nat} (h : i < b.num) :
    entries b = b.ents 0 i ++ (b.slot i).entry :: b.ents (i + 1) (b.num - i - 1) :=
  slice_focus _ h

theorem entries_split (b : BtreeNode) {i : Nat} (h : i ≤ b.num) :
    entries b = b.ents 0 i ++ b.ents i (b.num - i) := by
  have := slice_add (fun i => (b.slot i).entry) 0 i (b.num - i)
  rw [Nat.zero_add, Nat.add_sub_cancel' h] at this
  exact this

theorem kids_focus (b : BtreeNode) {i : Nat} (h : i ≤ b.num) :
    kids b = b.chs 0 i ++ (b.slot i).child :: b.chs (i + 1) (b.num - i) := by
  have := slice_focus (fun i => (b.slot i).child) (show i < b.num + 1 by omega)
  rwa [show b.num + 1 - i - 1 = b.num - i by omega] at this

theorem kids_focus_pair (b : BtreeNode) {i : Nat} (h : i < b.num) :
    kids b = b.chs 0 i ++
      (b.slot i).child :: (b.slot (i + 1)).child :: b.chs (i + 2) (b.num - i - 1) := by
  rw [kids_focus b h.le]
  obtain ⟨m, hm⟩ : ∃ m, b.num - i = m + 1 := ⟨b.num - i - 1, by omega⟩
  rw [BtreeNode.chs, hm, slice_succ, show m + 1 - 1 = m by omega]

/-! ### Where a key belongs -/

structure NodeKeys (O : KeyOrder κ t n) (b : BtreeNode) : Prop where
  image : ∀ e ∈ entries b, O.img e.1
  ordered : Ordered O.entryRank (entries b)

theorem NodeKeys.image_at {O : KeyOrder κ t n} {b : BtreeNode} (h : NodeKeys O b) {i : Nat}
    (hi : i < b.num) : O.img (b.slot i).key := h.image _ (mem_entries hi)

theorem NodeKeys.lt {O : KeyOrder κ t n} {b : BtreeNode} (h : NodeKeys O b) {i j : Nat}
    (lt : i < j) (hj : j < b.num) : O.rank (b.slot i).key < O.rank (b.slot j).key :=
  ordered_slice.mp h.ordered i j lt hj

inductive Found (O : KeyOrder κ t n) (b : BtreeNode) (target : Bytes) : Int → Prop where
  | at (i : Nat) (hi : i < b.num) (eq : O.rank (b.slot i).key = O.rank target) : Found O b target i
  | gap (p : Nat) (hp : p ≤ b.num) (below : ∀ j < p, O.rank (b.slot j).key < O.rank target)
      (above : ∀ j, p ≤ j → j < b.num → O.rank target < O.rank (b.slot j).key) :
      Found O b target (-(p : Int) - 1)

theorem keyBinarySearchLoop_round {d : DbT} {b : BtreeNode} (target : Bytes)
    (fits : ∀ i < b.num, Fits d i) (fuel : Nat) {low high : Int} (l0 : 0 ≤ low)
    (h0 : high < b.num) (le : low ≤ high) :
    ∃ mid : Nat, low ≤ mid ∧ mid ≤ high ∧
      keyBinarySearchLoop d b target (fuel + 1) low high =
        if keyCmp d.keyType target (b.slot mid).key d.keySize = 0 then .ok (mid : Int)
        else if keyCmp d.keyType target (b.slot mid).key d.keySize > 0 then
          keyBinarySearchLoop d b target fuel (mid + 1) high
        else keyBinarySearchLoop d b target fuel low (mid - 1) := by
  obtain ⟨mid, hmid⟩ : ∃ mid : Nat, low + (high - low) / 2 = mid :=
    ⟨(low + (high - low) / 2).toNat, by omega⟩
  have lt : mid < b.num := by omega
  refine ⟨mid, by omega, by omega, ?_⟩
  simp only [keyBinarySearchLoop, if_pos le, hmid, Int.toNat_natCast, slotAt, fits mid lt,
    ↓reduceIte]
  rfl

theorem keyBinarySearchLoop_found {d : DbT} (O : KeyOrder κ d.keyType d.keySize) {b : BtreeNode}
    {target : Bytes} (keys : NodeKeys O b) (arg : O.arg target) (fits : ∀ i < b.num, Fits d i)
    (fuel : Nat) (low high : Int) (l0 : 0 ≤ low) (h0 : high < b.num) (lh : low ≤ high + 1)
    (below : ∀ j : Nat, (j : Int) < low → O.rank (b.slot j).key < O.rank target)
    (above : ∀ j : Nat, high < j → j < b.num → O.rank target < O.rank (b.slot j).key)
    (enough : high + 1 - low < fuel) :
    ∃ r, keyBinarySearchLoop d b target fuel low high = .ok r ∧ Found O b target r := by
  induction fuel generalizing low high with
  | zero => omega
  | succ fuel ih =>
    by_cases le : low ≤ high
    · obtain ⟨mid, least, most, round⟩ := keyBinarySearchLoop_round target fits fuel l0 h0 le
      have lt : mid < b.num := by omega
      have img := keys.image_at lt
      rw [round]
      split
      · rename_i zero
        exact ⟨mid, rfl, .at mid lt ((O.zero_iff arg img).mp zero).symm⟩
      · rename_i nonzero
        split
        · rename_i pos
          have here := (O.pos_iff arg img).mp pos
          refine ih (mid + 1) high (by omega) h0 (by omega) ?_ above (by omega)
          intro j hj
          rcases Nat.lt_or_ge j mid with less | same
          · exact (keys.lt less lt).trans here
          · have : j = mid := by omega
            exact this ▸ here
        · rename_i notPos
          have here := (O.neg_iff arg img).mp (by omega)
          refine ih low (mid - 1) l0 (by omega) (by omega) below ?_ (by omega)
          intro j hj hn
          rcases Nat.lt_or_ge mid j with more | same
          · exact here.trans (keys.lt more hn)
          · have : j = mid := by omega
            exact this ▸ here
    · obtain ⟨p, rfl⟩ : ∃ p : Nat, low = p := ⟨low.toNat, by omega⟩
      refine ⟨-(p : Int) - 1, if_neg le, .gap p (by omega) ?_ ?_⟩
      · exact fun j hj => below j (by omega)
      · exact fun j hj hn => above j (by omega) hn

theorem keyBinarySearch_found {d : DbT} (O : KeyOrder κ d.keyType d.keySize) {b : BtreeNode}
    {target : Bytes} (keys : NodeKeys O b) (arg : O.arg target) (fits : ∀ i < b.num, Fits d i)
    (small : b.num < 2 ^ 31) :
    ∃ r, keyBinarySearch d b target = .ok r ∧ Found O b target r := by
  have high : ((b.num : Int) - 1).bmod (2 ^ 32) = (b.num : Int) - 1 := by
    apply Int.bmod_eq_of_le <;> omega
  simp only [keyBinarySearch, high]
  refine keyBinarySearchLoop_found O keys arg fits _ 0 _ le_rfl
    (by omega) (by omega) ?_ ?_ (by omega)
  · intro j hj; omega
  · intro j hj hn; omega

theorem keyBinarySearch_empty (d : DbT) {node : BtreeNode} (empty : node.num = 0) (target : Bytes) :
    keyBinarySearch d node target = .ok (-1) := by
  rw [keyBinarySearch, empty]
  rfl

end FileDb
