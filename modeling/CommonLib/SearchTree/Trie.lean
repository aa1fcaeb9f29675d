import CommonLib.SearchTree.Path
import Mathlib.Data.List.Infix

/- A binary tree read as a table: the way to a node is its key. -/
namespace SearchTree
variable {α β : Type}

def follow : BinaryTree α → List Side → BinaryTree α
  | t, [] => t
  | .nil, _ :: _ => .nil
  | .node _ l _, .left :: bits => follow l bits
  | .node _ _ r, .right :: bits => follow r bits

def rootItem : BinaryTree α → Option α
  | .nil => none
  | .node x _ _ => some x

def Present (t : BinaryTree α) (bits : List Side) : Prop := follow t bits ≠ .nil

def itemAt (t : BinaryTree α) (bits : List Side) : Option α := rootItem (follow t bits)

def way (path : Path α) : List Side := (path.map (·.side)).reverse

section Follow
variable {s : Side} {t u : BinaryTree α} {x : α} {path : Path α} {bits more : List Side}

@[simp] theorem follow_here (t : BinaryTree α) : follow t [] = t := by cases t <;> rfl

@[simp] theorem follow_nil (bits : List Side) : follow (.nil : BinaryTree α) bits = .nil := by
  cases bits <;> rfl

@[simp] theorem follow_near : follow (join s t x u) (s :: bits) = follow t bits := by
  cases s <;> rfl

theorem follow_far {s' : Side} (other : s' ≠ s) : follow (join s t x u) (s' :: bits) = follow u bits := by
  cases s <;> cases s' <;> first | rfl | exact absurd rfl other

theorem follow_append (t : BinaryTree α) (bits more : List Side) :
    follow t (bits ++ more) = follow (follow t bits) more := by
  induction bits generalizing t with
  | nil => simp
  | cons s bits ih =>
    cases t with
    | nil => simp
    | node x l r => cases s <;> exact ih _

@[simp] theorem way_cons (step : Step α) (path : Path α) :
    way (step :: path) = way path ++ [step.side] := by
  simp [way]

theorem follow_plug (path : Path α) (t : BinaryTree α) (bits : List Side) :
    follow (plug path t) (way path ++ bits) = follow t bits := by
  induction path generalizing t bits with
  | nil => rfl
  | cons step path ih =>
    rw [plug, way_cons, List.append_assoc, ih, List.singleton_append, follow_near]

theorem follow_way (path : Path α) (t : BinaryTree α) : follow (plug path t) (way path) = t := by
  have whole := follow_plug path t []
  rwa [List.append_nil, follow_here] at whole

theorem plug_ne_nil (there : t ≠ .nil) : plug path t ≠ .nil := by
  intro none
  have back := follow_way path t
  rw [none, follow_nil] at back
  exact there back.symm

theorem itemAt_elsewhere (path : Path α) (t u : BinaryTree α) (away : ¬ way path <+: bits) :
    itemAt (plug path t) bits = itemAt (plug path u) bits := by
  induction path generalizing t u with
  | nil => exact absurd (List.nil_prefix (l := bits)) away
  | cons step path ih =>
    rw [plug, plug]
    by_cases inside : way path <+: bits
    · obtain ⟨more, rfl⟩ := inside
      rw [itemAt, itemAt, follow_plug, follow_plug]
      cases more with
      | nil => cases step.side <;> rfl
      | cons s more =>
        have other : s ≠ step.side := by
          rintro rfl
          exact away ⟨more, by simp⟩
        rw [follow_far other, follow_far other]
    · exact ih _ _ inside

theorem itemAt_plug (path : Path α) (t : BinaryTree α) (bits : List Side) :
    itemAt (plug path t) (way path ++ bits) = itemAt t bits := by
  rw [itemAt, follow_plug, itemAt]

theorem present_iff : Present t bits ↔ (itemAt t bits).isSome := by
  rw [Present, itemAt]
  cases follow t bits <;> simp [rootItem]

theorem Present.mono (present : Present t bits) (before : more <+: bits) : Present t more := by
  obtain ⟨rest, rfl⟩ := before
  intro none
  rw [Present, follow_append, none, follow_nil] at present
  exact present rfl

theorem present_parent {step : Step α} : Present (plug (step :: path) t) (way path) := by
  rw [Present, plug, follow_way]
  exact join_ne_nil _ _ _ _

theorem present_above {step : Step α} (inside : bits <+: way (step :: path))
    (higher : bits ≠ way (step :: path)) : Present (plug (step :: path) t) bits := by
  rw [way_cons] at inside higher
  exact present_parent.mono ((List.prefix_concat_iff.mp inside).resolve_left higher)

end Follow

/-! ### The table -/

section Table
variable {value : α → Option β} {t u : BinaryTree α} {x : α} {path : Path α} {bits : List Side}
  {f g : List Side → Option β}

def table (value : α → Option β) (t : BinaryTree α) (bits : List Side) : Option β :=
  (itemAt t bits).bind value

def latest (value : α → Option β) (x : α) (found : Option β) : Option β := (value x).or found

def lastOn (value : α → Option β) : BinaryTree α → List Side → Option β → Option β
  | .nil, _, found => found
  | .node x _ _, [], found => latest value x found
  | .node x l _, .left :: bits, found => lastOn value l bits (latest value x found)
  | .node x _ r, .right :: bits, found => lastOn value r bits (latest value x found)

/-- The value of the longest prefix that has one. -/
def longest (f : List Side → Option β) (bits : List Side) : Option β :=
  bits.inits.reverse.findSome? f

@[simp] theorem longest_nil : longest f [] = f [] := by
  simp [longest]

theorem longest_cons (s : Side) (bits : List Side) :
    longest f (s :: bits) = (longest (fun rest => f (s :: rest)) bits).or (f []) := by
  simp only [longest, List.inits_cons, List.reverse_cons, List.findSome?_append,
    List.findSome?_cons, List.findSome?_nil, ← List.map_reverse, List.findSome?_map]
  cases f [] <;> rfl

theorem longest_append (s : Side) (bits : List Side) :
    longest f (bits ++ [s]) = (f (bits ++ [s])).or (longest f bits) := by
  induction bits generalizing f with
  | nil => simp [longest_cons]
  | cons s' bits ih => rw [List.cons_append, longest_cons, ih, longest_cons, Option.or_assoc]

theorem longest_none (none : ∀ rest, f rest = none) : longest f bits = .none :=
  List.findSome?_eq_none_iff.mpr fun rest _ => none rest

theorem lastOn_eq (t : BinaryTree α) (bits : List Side) (found : Option β) :
    lastOn value t bits found = (longest (table value t) bits).or found := by
  induction t generalizing bits found with
  | nil =>
    rw [lastOn, longest_none fun rest => by simp [table, itemAt, rootItem], Option.none_or]
  | node x l r hl hr =>
    cases bits with
    | nil =>
      rw [lastOn, longest_nil]
      rfl
    | cons s bits =>
      rw [longest_cons, Option.or_assoc]
      cases s with
      | left => exact hl bits _
      | right => exact hr bits _

theorem itemAt_swap (below : ∀ s bits, itemAt t (s :: bits) = itemAt u (s :: bits)) :
    itemAt (plug path t) = Function.update (itemAt (plug path u)) (way path) (rootItem t) := by
  funext bits
  by_cases inside : way path <+: bits
  · obtain ⟨more, rfl⟩ := inside
    rw [itemAt_plug]
    cases more with
    | nil => simp [itemAt]
    | cons s more =>
      rw [Function.update_of_ne (by simp), itemAt_plug]
      exact below s more
  · rw [Function.update_of_ne fun same => inside (by rw [same]), itemAt_elsewhere path t u inside]

theorem table_swap (below : ∀ s bits, itemAt t (s :: bits) = itemAt u (s :: bits)) :
    table value (plug path t) =
      Function.update (table value (plug path u)) (way path) ((rootItem t).bind value) := by
  funext bits
  rw [table, itemAt_swap below]
  by_cases here : bits = way path
  · subst here
    rw [Function.update_self, Function.update_self]
  · rw [Function.update_of_ne here, Function.update_of_ne here, table]

theorem present_swap (below : ∀ s bits, itemAt t (s :: bits) = itemAt u (s :: bits)) :
    Present (plug path t) bits ↔ if bits = way path then t ≠ .nil else Present (plug path u) bits := by
  rw [present_iff, itemAt_swap below]
  split
  · rename_i here
    subst here
    rw [Function.update_self]
    cases t <;> simp [rootItem]
  · rename_i elsewhere
    rw [Function.update_of_ne elsewhere, present_iff]

end Table

end SearchTree
