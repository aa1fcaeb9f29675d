import CommonLib.RadixTree.Deletion

/- `ngx_radix32tree_find` and `ngx_radix128tree_find`. -/
namespace RadixTree
open SearchTree

section Search
variable {σ : Type} {c : Cursor σ} {pool : Pool} {t : Tree} {path : Path Cell} {sub whole : Shape}
  {bit rest : σ} {bits : List Side} {fuel : Nat}

theorem latest_content (x : Cell) (found : Option (BitVec 64)) :
    (latest (fun x : Cell => content x.value) x found).getD noValue =
      if x.value ≠ noValue then x.value else found.getD noValue := by
  rw [latest, content]
  by_cases free : x.value = noValue
  · simp [free]
  · simp [free]

theorem search_pass {set : Bool} {bit' : σ} {x : Cell} {a b : Shape}
    (h : Holds pool t [] path (join (side set) a x b)) (key : c.key bit = some set)
    (next : c.next bit = some bit') (found : Option (BitVec 64)) :
    search c t (fuel + 1) bit (addr x) (found.getD noValue) =
      search c t fuel bit' (ptr 0 a)
        ((latest (fun x : Cell => content x.value) x found).getD noValue) := by
  have used : addr x ≠ 0 := by simpa using h.toStands.ptr_ne_nil (join_ne_nil _ _ _ _)
  rw [latest_content]
  simp [search, used, value_eq h.toStands.cell, (child_eq h.toStands.cell).1, key, next]

theorem lastOn_join {s : Side} {a b : Shape} {x : Cell} (found : Option (BitVec 64)) :
    lastOn (fun x : Cell => content x.value) (join s a x b) (s :: bits) found =
      lastOn (fun x : Cell => content x.value) a bits
        (latest (fun x : Cell => content x.value) x found) := by
  cases s <;> rfl

theorem search_holds (h : Holds pool t [] path sub) (followed : Follows c bit bits rest)
    (ends : follow sub bits = .nil) (enough : bits.length < fuel) (found : Option (BitVec 64)) :
    search c t fuel bit (ptr 0 sub) (found.getD noValue) =
      some ((lastOn (fun x : Cell => content x.value) sub bits found).getD noValue) := by
  induction followed generalizing path sub fuel found with
  | here =>
    obtain ⟨fuel, rfl⟩ : ∃ k, fuel = k + 1 := ⟨fuel - 1, by omega⟩
    rw [follow_here] at ends
    subst ends
    simp [search, lastOn]
  | @more bit bit' set bits rest key next _ ih =>
    obtain ⟨fuel, rfl⟩ : ∃ k, fuel = k + 1 := ⟨fuel - 1, by omega⟩
    by_cases none : sub = .nil
    · subst none
      simp [search, lastOn]
    · obtain ⟨x, l, r, rfl⟩ := exists_node none
      obtain ⟨a, b, same⟩ := exists_join (side set) x l r
      rw [same] at h ends ⊢
      rw [follow_near] at ends
      have below : Holds pool t [] (⟨side set, x, b⟩ :: path) a := holds_up.mpr h
      have enough' : bits.length < fuel := by simpa using enough
      rw [ptr_join, search_pass h key next, lastOn_join]
      exact ih below ends enough' _

theorem search_fault (h : Holds pool t [] path sub) (followed : Follows c bit bits rest)
    (node : follow sub bits ≠ .nil) (ended : c.key rest = none) (fuel : Nat)
    (found : Option (BitVec 64)) :
    search c t fuel bit (ptr 0 sub) (found.getD noValue) = none := by
  induction followed generalizing path sub fuel found with
  | here =>
    cases fuel with
    | zero => rfl
    | succ fuel =>
      rw [follow_here] at node
      have used := h.toStands.ptr_ne_nil node
      obtain ⟨x, l, r, rfl⟩ := exists_node node
      have own := value_eq (h.toStands.cell (s := .left))
      simp only [ptr_node] at used ⊢
      simp [search, used, own, ended]
  | @more bit bit' set bits rest key next _ ih =>
    cases fuel with
    | zero => rfl
    | succ fuel =>
      have there : sub ≠ .nil := by
        rintro rfl
        exact node (follow_nil _)
      obtain ⟨x, l, r, rfl⟩ := exists_node there
      obtain ⟨a, b, same⟩ := exists_join (side set) x l r
      rw [same] at h node ⊢
      rw [follow_near] at node
      have below : Holds pool t [] (⟨side set, x, b⟩ :: path) a := holds_up.mpr h
      rw [ptr_join, search_pass h key next]
      exact ih below node ended _ _

end Search

section Find
variable {pool : Pool} {t : Tree} {whole : Shape}

theorem follows32_more (key : BitVec 32) :
    Follows (cursor32 key 0) 0x80000000 (word32 key ++ [.left]) 0 := by
  have last : (cursor32 key 0).key 0 = some false := by simp [cursor32]
  exact (follows32 key 0).append (.more last rfl .here)

/-- The value of the longest prefix of a key. -/
theorem find32_holds (h : Holds pool t [] [] whole)
    (depth : ∀ w, Present whole w → w.length ≤ 32) (key : BitVec 32) :
    radix32Find t key = some ((longest (values whole) (word32 key)).getD noValue) := by
  have long : (word32 key ++ [Side.left]).length = 33 := by simp [word32, word]
  have ends : follow whole (word32 key ++ [.left]) = .nil := by
    by_contra node
    have short := depth _ node
    omega
  have nothing : values whole (word32 key ++ [.left]) = none := by
    rw [values, table, itemAt, ends]
    rfl
  have root : t.root = ptr 0 whole := h.root
  rw [radix32Find, root]
  refine (search_holds h (follows32_more key) ends (by omega) none).trans ?_
  rw [lastOn_eq, Option.or_none]
  change some ((longest (values whole) _).getD noValue) = _
  rw [longest_append, nothing, Option.none_or]

/-- The value of the longest prefix of an address, unless there is a node for the address itself:
    then a byte behind the address is read. -/
theorem find128_holds (h : Holds pool t [] [] whole) (key : Address) :
    radix128Find t key = if follow whole (word128 key) = .nil then
      some ((longest (values whole) (word128 key)).getD noValue) else none := by
  have root : t.root = ptr 0 whole := h.root
  rw [radix128Find, root]
  split
  · rename_i ends
    have long : (word128 key).length = 128 := by simp [word128, word]
    refine (search_holds h (follows128 key) ends (by omega) none).trans ?_
    rw [lastOn_eq, Option.or_none]
    rfl
  · rename_i node
    exact search_fault h (follows128 key) node rfl _ none

end Find

end RadixTree
