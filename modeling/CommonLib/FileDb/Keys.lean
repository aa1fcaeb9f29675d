import CommonLib.FileDb.Format
import Mathlib.Data.List.Lex
import Mathlib.Data.List.TakeWhile
import Mathlib.Order.Basic
import Mathlib.Tactic.Ring

/- What the tree needs of a comparator: on the keys that are used, its sign is the
   order of a rank, and writing a key into a slot keeps the rank. -/
namespace FileDb
variable {κ : Type} [LinearOrder κ]

/-- `arg` holds of the keys passed in, `img` of the key areas they leave in slots. -/
structure KeyOrder (κ : Type) [LinearOrder κ] (t : KeyType) (n : Nat) where
  rank : Bytes → κ
  arg : Bytes → Prop
  img : Bytes → Prop
  zero_iff : ∀ {a b}, arg a → img b → (keyCmp t a b n = 0 ↔ rank a = rank b)
  pos_iff : ∀ {a b}, arg a → img b → (0 < keyCmp t a b n ↔ rank b < rank a)
  write_img : ∀ {a} old, arg a → img (keyWrite t n old a)
  write_rank : ∀ {a} old, arg a → rank (keyWrite t n old a) = rank a
  short : ∀ {a}, arg a → t = .stringKey → strlen a < n

theorem KeyOrder.neg_iff {t : KeyType} {n : Nat} (O : KeyOrder κ t n) {a b : Bytes}
    (ha : O.arg a) (hb : O.img b) : keyCmp t a b n < 0 ↔ O.rank a < O.rank b := by
  have hz := O.zero_iff ha hb
  have hp := O.pos_iff ha hb
  constructor
  · intro neg
    rcases lt_trichotomy (O.rank a) (O.rank b) with lt | eq | gt
    · exact lt
    · have := hz.mpr eq; omega
    · have := hp.mpr gt; omega
  · intro lt
    have notPos : ¬ 0 < keyCmp t a b n := fun h => absurd (hp.mp h) lt.asymm
    have notZero : keyCmp t a b n ≠ 0 := fun h => lt.ne (hz.mp h)
    omega

/-! ### Strings -/

def chars (s : Bytes) : List Nat := (s.takeWhile (· ≠ 0)).map UInt8.toNat

theorem chars_cons_zero (s : Bytes) : chars (0 :: s) = [] := by simp [chars]

theorem chars_cons {c : UInt8} (h : c ≠ 0) (s : Bytes) : chars (c :: s) = c.toNat :: chars s := by
  simp [chars, h]

theorem strlen_cons {c : UInt8} (h : c ≠ 0) (s : Bytes) : strlen (c :: s) = strlen s + 1 := by
  simp [strlen, h]

theorem chars_lt_of_head {a b : UInt8} (as bs : Bytes) (h : a.toNat < b.toNat) :
    chars (a :: as) < chars (b :: bs) := by
  have hb : b ≠ 0 := by rintro rfl; simp at h
  by_cases ha : a = 0
  · subst ha
    rw [chars_cons_zero, chars_cons hb]
    exact List.nil_lt_cons _ _
  · rw [chars_cons ha, chars_cons hb]
    exact List.cons_lt_cons_iff.mpr (Or.inl h)

theorem strncmp_spec (n : Nat) (a b : Bytes) (ha : 0 ∈ a) (hb : 0 ∈ b) (la : strlen a < n) :
    (strncmp a b n = 0 ↔ chars a = chars b) ∧ (0 < strncmp a b n ↔ chars b < chars a) := by
  induction n generalizing a b with
  | zero => omega
  | succ n ih =>
    cases a with
    | nil => simp at ha
    | cons x as =>
      cases b with
      | nil => simp at hb
      | cons y bs =>
        by_cases same : x = y
        · subst same
          by_cases zero : x = 0
          · subst zero
            simp [strncmp, chars_cons_zero]
          · rw [strlen_cons zero] at la
            have ha' : (0 : UInt8) ∈ as := by simpa [Ne.symm zero] using ha
            have hb' : (0 : UInt8) ∈ bs := by simpa [Ne.symm zero] using hb
            have step := ih as bs ha' hb' (by omega)
            simpa [strncmp, zero, chars_cons zero, List.cons_lt_cons_iff] using step
        · have apart : x.toNat ≠ y.toNat := fun h => same (UInt8.toNat_inj.mp h)
          simp only [strncmp, ne_eq, same, not_false_eq_true, ↓reduceIte]
          rcases Nat.lt_or_gt_of_ne apart with lt | gt
          · have order := chars_lt_of_head as bs lt
            constructor
            · exact ⟨fun h => by omega, fun h => absurd h order.ne⟩
            · exact ⟨fun h => by omega, fun h => absurd h order.asymm⟩
          · have order := chars_lt_of_head bs as gt
            constructor
            · exact ⟨fun h => by omega, fun h => absurd h.symm order.ne⟩
            · exact ⟨fun _ => order, fun _ => by omega⟩

theorem take_strlen {a : Bytes} (h : 0 ∈ a) :
    a.take (strlen a + 1) = a.takeWhile (· ≠ 0) ++ [0] := by
  induction a with
  | nil => simp at h
  | cons c a ih =>
    by_cases zero : c = 0
    · subst zero; simp [strlen]
    · have mem : (0 : UInt8) ∈ a := by simpa [Ne.symm zero] using h
      rw [strlen_cons zero]
      simpa [zero] using ih mem

theorem strcpy_image {a : Bytes} (old : Bytes) (h : 0 ∈ a) :
    0 ∈ a.take (strlen a + 1) ++ old.drop (strlen a + 1) ∧
      chars (a.take (strlen a + 1) ++ old.drop (strlen a + 1)) = chars a := by
  rw [take_strlen h]
  constructor
  · simp
  · have nonzero : ∀ c ∈ a.takeWhile (· ≠ 0), c ≠ 0 := fun c hc => by
      simpa using List.mem_takeWhile_imp hc
    rw [chars, List.append_assoc, List.takeWhile_append_of_pos (by simpa using nonzero)]
    simp [chars]

def stringOrder (n : Nat) : KeyOrder (List Nat) .stringKey n where
  rank := chars
  arg a := 0 ∈ a ∧ strlen a < n
  img b := 0 ∈ b
  zero_iff ha hb := (strncmp_spec n _ _ ha.1 hb ha.2).1
  pos_iff ha hb := (strncmp_spec n _ _ ha.1 hb ha.2).2
  write_img old ha := (strcpy_image old ha.1).1
  write_rank old ha := (strcpy_image old ha.1).2
  short ha _ := ha.2

/-! ### Byte keys -/

def byteValues (n : Nat) (b : Bytes) : List Nat := (b.take n).map UInt8.toNat

theorem memcmp_spec (n : Nat) (a b : Bytes) (ha : n ≤ a.length) (hb : n ≤ b.length) :
    (memcmp a b n = 0 ↔ byteValues n a = byteValues n b) ∧
      (0 < memcmp a b n ↔ byteValues n b < byteValues n a) := by
  induction n generalizing a b with
  | zero => simp [memcmp, byteValues]
  | succ n ih =>
    cases a with
    | nil => simp at ha
    | cons x as =>
      cases b with
      | nil => simp at hb
      | cons y bs =>
        have step := ih as bs (by simpa using ha) (by simpa using hb)
        by_cases same : x = y
        · subst same
          simpa [memcmp, byteValues, List.cons_lt_cons_iff] using step
        · have apart : x.toNat ≠ y.toNat := fun h => same (UInt8.toNat_inj.mp h)
          simp only [memcmp, ne_eq, same, not_false_eq_true, ↓reduceIte, byteValues,
            List.take_succ_cons, List.map_cons, List.cons.injEq, List.cons_lt_cons_iff, apart,
            apart.symm, false_and, or_false, iff_false]
          omega

def bytesOrder (n : Nat) : KeyOrder (List Nat) .bytesKey n where
  rank := byteValues n
  arg a := n ≤ a.length
  img b := n ≤ b.length
  zero_iff ha hb := (memcmp_spec n _ _ ha hb).1
  pos_iff ha hb := (memcmp_spec n _ _ ha hb).2
  write_img old ha := by
    simp only [keyWrite, List.length_append, List.length_take]
    omega
  write_rank old ha := by
    simp only [keyWrite, byteValues]
    rw [List.take_append_of_le_length (by simp [ha]), List.take_take, min_self]
  short _ h := nomatch h

end FileDb
