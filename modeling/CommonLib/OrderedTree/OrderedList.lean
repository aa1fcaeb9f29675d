import Mathlib.Order.Basic
import Mathlib.Data.List.Basic
import Mathlib.Data.List.Pairwise
import Mathlib.Order.Lattice

/- Lists kept strictly increasing under a rank, read as finite maps, and slices of a
   function on Nat. An ordered search structure is correct when its in-order list
   changes by one insertion or one removal. -/
namespace OrderedTree

section Ordered
variable {α κ : Type} [LinearOrder κ] (rank : α → κ)

def Ordered (l : List α) : Prop := l.Pairwise fun a b => rank a < rank b

def lookup (l : List α) (k : κ) : Option α := l.find? fun e => decide (rank e = k)

variable {rank}

theorem ordered_append {p q : List α} :
    Ordered rank (p ++ q) ↔
      Ordered rank p ∧ Ordered rank q ∧ ∀ a ∈ p, ∀ b ∈ q, rank a < rank b := by
  simp [Ordered, List.pairwise_append]

theorem ordered_cons {e : α} {q : List α} :
    Ordered rank (e :: q) ↔ (∀ b ∈ q, rank e < rank b) ∧ Ordered rank q := by
  simp [Ordered]

theorem ordered_sublist {p q : List α} (h : p.Sublist q) (o : Ordered rank q) : Ordered rank p :=
  o.sublist h

theorem ordered_insert {p q : List α} {e : α} (o : Ordered rank (p ++ q))
    (below : ∀ a ∈ p, rank a < rank e) (above : ∀ b ∈ q, rank e < rank b) :
    Ordered rank (p ++ e :: q) := by
  obtain ⟨op, oq, cross⟩ := ordered_append.mp o
  refine ordered_append.mpr ⟨op, ordered_cons.mpr ⟨above, oq⟩, ?_⟩
  intro a ha b hb
  rcases List.mem_cons.mp hb with rfl | hb
  · exact below a ha
  · exact cross a ha b hb

theorem lookup_some {l : List α} {k : κ} {e : α} (h : lookup rank l k = some e) :
    e ∈ l ∧ rank e = k := by
  refine ⟨List.mem_of_find?_eq_some h, ?_⟩
  simpa using List.find?_some h

theorem lookup_none_iff {l : List α} {k : κ} :
    lookup rank l k = none ↔ ∀ e ∈ l, rank e ≠ k := by
  simp [lookup]

theorem lookup_append {p q : List α} {k : κ} :
    lookup rank (p ++ q) k = (lookup rank p k).or (lookup rank q k) := by
  simp [lookup, List.find?_append]

theorem lookup_cons {e : α} {q : List α} {k : κ} :
    lookup rank (e :: q) k = if rank e = k then some e else lookup rank q k := by
  by_cases h : rank e = k <;> simp [lookup, h]

/-- One insertion changes the map at one key. -/
theorem lookup_insert {p q : List α} {e : α} (o : Ordered rank (p ++ e :: q)) (k : κ) :
    lookup rank (p ++ e :: q) k = if rank e = k then some e else lookup rank (p ++ q) k := by
  simp only [lookup_append, lookup_cons]
  split
  · rename_i same
    have absent : lookup rank p k = none := lookup_none_iff.mpr fun a ha => by
      have := (ordered_append.mp o).2.2 a ha e (List.mem_cons_self)
      exact (same ▸ this).ne
    simp [absent]
  · rfl

theorem lookup_at {p q : List α} {e : α} (o : Ordered rank (p ++ e :: q)) :
    lookup rank (p ++ e :: q) (rank e) = some e := by
  simp [lookup_insert o]

theorem lookup_mem {l : List α} {e : α} (o : Ordered rank l) (mem : e ∈ l) :
    lookup rank l (rank e) = some e := by
  obtain ⟨p, q, rfl⟩ := List.append_of_mem mem
  exact lookup_at o

theorem lookup_removed {p q : List α} {e : α} (o : Ordered rank (p ++ e :: q)) :
    lookup rank (p ++ q) (rank e) = none := by
  refine lookup_none_iff.mpr fun a ha => ?_
  obtain ⟨_, oq, cross⟩ := ordered_append.mp o
  rcases List.mem_append.mp ha with ha | ha
  · exact (cross a ha e List.mem_cons_self).ne
  · exact ((ordered_cons.mp oq).1 a ha).ne'

theorem lookup_between {p q : List α} {k : κ} (below : ∀ a ∈ p, rank a < k)
    (above : ∀ b ∈ q, k < rank b) : lookup rank (p ++ q) k = none := by
  refine lookup_none_iff.mpr fun a ha => ?_
  rcases List.mem_append.mp ha with ha | ha
  · exact (below a ha).ne
  · exact (above a ha).ne'

end Ordered

/-! ### Slices -/

section Slice
variable {α : Type}

def slice (f : Nat → α) (p n : Nat) : List α := (List.range' p n).map f

@[simp] theorem slice_length (f : Nat → α) (p n : Nat) : (slice f p n).length = n := by
  simp [slice]

@[simp] theorem slice_zero (f : Nat → α) (p : Nat) : slice f p 0 = [] := rfl

theorem slice_succ (f : Nat → α) (p n : Nat) : slice f p (n + 1) = f p :: slice f (p + 1) n := by
  simp [slice, List.range'_succ]

theorem slice_add (f : Nat → α) (p m n : Nat) :
    slice f p (m + n) = slice f p m ++ slice f (p + m) n := by
  simp [slice, ← List.map_append]

theorem slice_last (f : Nat → α) (p n : Nat) : slice f p (n + 1) = slice f p n ++ [f (p + n)] := by
  rw [slice_add]; rfl

theorem slice_focus (f : Nat → α) {n i : Nat} (h : i < n) :
    slice f 0 n = slice f 0 i ++ f i :: slice f (i + 1) (n - i - 1) := by
  obtain ⟨m, rfl⟩ : ∃ m, n = i + (m + 1) := ⟨n - i - 1, by omega⟩
  rw [slice_add, slice_succ, Nat.zero_add, show i + (m + 1) - i - 1 = m by omega]

theorem slice_congr {f g : Nat → α} {p q n : Nat} (h : ∀ j < n, f (p + j) = g (q + j)) :
    slice f p n = slice g q n := by
  apply List.ext_getElem
  · simp
  · intro j h1 h2
    simp only [slice_length] at h1
    simp [slice, List.getElem_range', h j h1]

theorem mem_slice {f : Nat → α} {p n : Nat} {a : α} :
    a ∈ slice f p n ↔ ∃ j < n, f (p + j) = a := by
  simp only [slice, List.mem_map, List.mem_range']
  constructor
  · rintro ⟨_, ⟨i, hi, rfl⟩, rfl⟩
    exact ⟨i, hi, by simp⟩
  · rintro ⟨j, hj, rfl⟩
    exact ⟨p + j, ⟨j, hj, by simp⟩, rfl⟩

theorem ordered_slice {κ : Type} [LinearOrder κ] {rank : α → κ} {f : Nat → α} {n : Nat} :
    Ordered rank (slice f 0 n) ↔ ∀ i j, i < j → j < n → rank (f i) < rank (f j) := by
  simp only [Ordered, List.pairwise_iff_getElem, slice_length]
  constructor
  · intro h i j lt hj
    simpa [slice] using h i j (by omega) hj lt
  · intro h i j hi hj lt
    simpa [slice] using h i j lt hj

end Slice

end OrderedTree
