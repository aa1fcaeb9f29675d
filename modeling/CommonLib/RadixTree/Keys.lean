import CommonLib.RadixTree.Operations
import Mathlib.Tactic.IntervalCases

/- The ways down that the loops read off a key and a mask. -/
namespace RadixTree
open SearchTree

section Reading
variable {σ : Type}

/-- The way that a key and a mask lead, until the mask or the loop is at its end. -/
inductive Spells (c : Cursor σ) : σ → List Side → Prop
  | stop {bit} : c.mask bit = some false → Spells c bit []
  | last {bit set} : c.mask bit = some true → c.key bit = some set → c.next bit = none →
      Spells c bit [side set]
  | more {bit bit' set bits} : c.mask bit = some true → c.key bit = some set →
      c.next bit = some bit' → Spells c bit' bits → Spells c bit (side set :: bits)

inductive Follows (c : Cursor σ) : σ → List Side → σ → Prop
  | here {bit} : Follows c bit [] bit
  | more {bit bit' set bits rest} : c.key bit = some set → c.next bit = some bit' →
      Follows c bit' bits rest → Follows c bit (side set :: bits) rest

variable {c : Cursor σ} {bit : σ} {s s' : Side} {bits : List Side}

theorem Spells.ends (spelled : Spells c bit [s]) :
    ∃ set, s = side set ∧ c.mask bit = some true ∧ c.key bit = some set ∧
      (c.next bit = none ∨ ∃ bit', c.next bit = some bit' ∧ c.mask bit' = some false) := by
  cases spelled with
  | last ones key ends => exact ⟨_, rfl, ones, key, .inl ends⟩
  | more ones key next later =>
    cases later with
    | stop done => exact ⟨_, rfl, ones, key, .inr ⟨_, next, done⟩⟩

theorem Spells.goes_on (spelled : Spells c bit (s :: s' :: bits)) :
    ∃ set bit', s = side set ∧ c.mask bit = some true ∧ c.key bit = some set ∧
      c.next bit = some bit' ∧ Spells c bit' (s' :: bits) := by
  cases spelled with
  | more ones key next later => exact ⟨_, _, rfl, ones, key, next, later⟩

theorem Follows.append {more : List Side} {bit' bit'' : σ} (first : Follows c bit bits bit')
    (second : Follows c bit' more bit'') : Follows c bit (bits ++ more) bit'' := by
  induction first with
  | here => exact second
  | more key next _ ih => exact .more key next (ih second)

end Reading

def masked (key mask : Nat → Bool) (n : Nat) : List Side :=
  ((List.range n).takeWhile mask).map (side ∘ key)

def word (key : Nat → Bool) (n : Nat) : List Side := (List.range n).map (side ∘ key)

def bit32 (key : BitVec 32) (i : Nat) : Bool := key.getMsbD i

def bit128 (key : Address) (i : Nat) : Bool := (key[i / 8]?.getD 0).getMsbD (i % 8)

def masked32 (key mask : BitVec 32) : List Side := masked (bit32 key) (bit32 mask) 32

def word32 (key : BitVec 32) : List Side := word (bit32 key) 32

def masked128 (key mask : Address) : List Side := masked (bit128 key) (bit128 mask) 128

def word128 (key : Address) : List Side := word (bit128 key) 128

theorem length_masked_le (key mask : Nat → Bool) (n : Nat) : (masked key mask n).length ≤ n := by
  rw [masked, List.length_map]
  exact (List.takeWhile_sublist _).length_le.trans_eq List.length_range

section Steps
variable {σ : Type} {c : Cursor σ} {p : Nat → σ} {key mask : Nat → Bool} {n : Nat}

theorem spells_from (masks : ∀ i < n, c.mask (p i) = some (mask i))
    (keys : ∀ i < n, c.key (p i) = some (key i))
    (nexts : ∀ i, i + 1 < n → c.next (p i) = some (p (i + 1)))
    (ends : c.next (p (n - 1)) = none ∨
      c.next (p (n - 1)) = some (p n) ∧ c.mask (p n) = some false) (m k : Nat)
    (rest : k + (m + 1) = n) :
    Spells c (p k) (((List.range' k (m + 1)).takeWhile mask).map (side ∘ key)) := by
  induction m generalizing k with
  | zero =>
    have last : k = n - 1 := by omega
    have hmask := masks k (by omega)
    cases ones : mask k with
    | false => simpa [List.range'_succ, ones] using Spells.stop (by rw [hmask, ones])
    | true =>
      rw [ones] at hmask
      rw [← last] at ends
      have spelled : Spells c (p k) [side (key k)] := by
        rcases ends with left | ⟨next, done⟩
        · exact .last hmask (keys k (by omega)) left
        · exact .more hmask (keys k (by omega)) next (.stop done)
      simpa [List.range'_succ, ones] using spelled
  | succ m ih =>
    have hmask := masks k (by omega)
    cases ones : mask k with
    | false => simpa [List.range'_succ, ones] using Spells.stop (by rw [hmask, ones])
    | true =>
      rw [ones] at hmask
      have tail := ih (k + 1) (by omega)
      have spelled := Spells.more hmask (keys k (by omega)) (nexts k (by omega)) tail
      rw [List.range'_succ, List.takeWhile_cons, ones]
      exact spelled

theorem spells_masked (masks : ∀ i < n, c.mask (p i) = some (mask i))
    (keys : ∀ i < n, c.key (p i) = some (key i))
    (nexts : ∀ i, i + 1 < n → c.next (p i) = some (p (i + 1)))
    (ends : c.next (p (n - 1)) = none ∨
      c.next (p (n - 1)) = some (p n) ∧ c.mask (p n) = some false) (some_ : 0 < n) :
    Spells c (p 0) (masked key mask n) := by
  obtain ⟨m, rfl⟩ : ∃ m, n = m + 1 := ⟨n - 1, by omega⟩
  rw [masked, List.range_eq_range']
  exact spells_from masks keys nexts ends m 0 (Nat.zero_add _)

theorem follows_from (keys : ∀ i < n, c.key (p i) = some (key i))
    (nexts : ∀ i < n, c.next (p i) = some (p (i + 1))) (m k : Nat) (rest : k + m = n) :
    Follows c (p k) ((List.range' k m).map (side ∘ key)) (p n) := by
  induction m generalizing k with
  | zero =>
    obtain rfl : k = n := by omega
    exact .here
  | succ m ih =>
    have tail := ih (k + 1) (by omega)
    exact .more (keys k (by omega)) (nexts k (by omega)) tail

theorem follows_word (keys : ∀ i < n, c.key (p i) = some (key i))
    (nexts : ∀ i < n, c.next (p i) = some (p (i + 1))) :
    Follows c (p 0) (word key n) (p n) := by
  rw [word, List.range_eq_range']
  exact follows_from keys nexts n 0 (Nat.zero_add n)

end Steps

section Bits
variable {w i : Nat}

theorem twoPow_shift (inside : i < w) :
    BitVec.twoPow w (w - 1) >>> i = BitVec.twoPow w (w - 1 - i) := by
  refine BitVec.eq_of_getLsbD_eq fun k _ => ?_
  rw [BitVec.getLsbD_ushiftRight, BitVec.getLsbD_twoPow, BitVec.getLsbD_twoPow, Bool.eq_iff_iff]
  simp only [Bool.and_eq_true, decide_eq_true_eq]
  omega

theorem twoPow_shift_ne_zero (inside : i < w) : BitVec.twoPow w (w - 1) >>> i ≠ 0 := by
  intro zero
  rw [twoPow_shift inside] at zero
  have value := congrArg BitVec.toNat zero
  rw [BitVec.toNat_twoPow_of_lt (by omega)] at value
  exact absurd value (Nat.two_pow_pos _).ne'

theorem and_twoPow_shift (x : BitVec w) (inside : i < w) :
    (x &&& BitVec.twoPow w (w - 1) >>> i != 0) = x.getMsbD i := by
  have one := twoPow_shift_ne_zero inside
  rw [twoPow_shift inside] at one ⊢
  rw [BitVec.and_twoPow, BitVec.getMsbD_eq_getLsbD]
  cases set : x.getLsbD (w - 1 - i) with
  | true => simpa [inside] using one
  | false => simp

end Bits

/-! ### 32 bits -/

section Word
variable (key mask : BitVec 32)

def pos32 (i : Nat) : BitVec 32 := BitVec.twoPow 32 31 >>> i

theorem pos32_succ (i : Nat) : pos32 i >>> 1 = pos32 (i + 1) := by
  rw [pos32, pos32, BitVec.shiftRight_add]

theorem next32 (i : Nat) : (cursor32 key mask).next (pos32 i) = some (pos32 (i + 1)) :=
  congrArg some (pos32_succ i)

theorem key32 {i : Nat} (inside : i < 32) :
    (cursor32 key mask).key (pos32 i) = some (bit32 key i) :=
  congrArg some (and_twoPow_shift key inside)

theorem mask32 {i : Nat} (inside : i < 32) :
    (cursor32 key mask).mask (pos32 i) = some (bit32 mask i) := by
  refine congrArg some (Eq.trans ?_ (and_twoPow_shift mask inside))
  rw [BitVec.and_comm]
  rfl

theorem pos32_end : pos32 32 = 0 := by decide

theorem spells32 : Spells (cursor32 key mask) 0x80000000 (masked32 key mask) := by
  refine spells_masked (p := pos32) (fun _ inside => mask32 key mask inside)
    (fun _ inside => key32 key mask inside) (fun i _ => next32 key mask i)
    (.inr ⟨next32 key mask 31, ?_⟩) (by decide)
  rw [pos32_end, cursor32]
  simp

theorem follows32 : Follows (cursor32 key mask) 0x80000000 (word32 key) 0 :=
  follows_word (p := pos32) (fun _ inside => key32 key mask inside)
    (fun i _ => next32 key mask i)

end Word

/-! ### 128 bits -/

section Address
variable (key mask : Address)

def pos128 (i : Nat) : BitVec 8 × Nat := (BitVec.twoPow 8 7 >>> (i % 8), i / 8)

theorem pos128_wrap {i : Nat} (last : i % 8 = 7) :
    (pos128 i).1 >>> 1 = 0 ∧ pos128 (i + 1) = (0x80, (pos128 i).2 + 1) := by
  have quotient : (i + 1) / 8 = i / 8 + 1 := by omega
  have remainder : (i + 1) % 8 = 0 := by omega
  have out : BitVec.twoPow 8 7 >>> 7 >>> 1 = 0 := by decide
  rw [pos128, pos128, last, quotient, remainder]
  exact ⟨out, rfl⟩

theorem pos128_step {i : Nat} (inner : i % 8 ≠ 7) :
    (pos128 i).1 >>> 1 ≠ 0 ∧ pos128 (i + 1) = ((pos128 i).1 >>> 1, (pos128 i).2) := by
  have quotient : (i + 1) / 8 = i / 8 := by omega
  have remainder : (i + 1) % 8 = i % 8 + 1 := by omega
  have left := twoPow_shift_ne_zero (w := 8) (i := i % 8 + 1) (by omega)
  rw [BitVec.shiftRight_add] at left
  rw [pos128, pos128, quotient, remainder, BitVec.shiftRight_add]
  exact ⟨left, rfl⟩

theorem byteBit_pos {i : Nat} (inside : i < 128) : byteBit key (pos128 i) = some (bit128 key i) := by
  have byte : i / 8 < 16 := by omega
  rw [pos128, byteBit, bit128, Vector.getElem?_eq_getElem byte]
  exact congrArg some (and_twoPow_shift _ (Nat.mod_lt _ (by decide)))

theorem next128 {i : Nat} (inside : i + 1 < 128) :
    (cursor128 key mask).next (pos128 i) = some (pos128 (i + 1)) := by
  by_cases last : i % 8 = 7
  · obtain ⟨out, same⟩ := pos128_wrap last
    have byte : (pos128 i).2 + 1 ≠ 16 := by
      simp only [pos128]
      omega
    rw [same]
    exact (if_pos out).trans (if_neg byte)
  · obtain ⟨inner, same⟩ := pos128_step last
    rw [same]
    exact if_neg inner

theorem lookup128_next (i : Nat) : (lookup128 key).next (pos128 i) = some (pos128 (i + 1)) := by
  by_cases last : i % 8 = 7
  · obtain ⟨out, same⟩ := pos128_wrap last
    rw [same]
    exact if_pos out
  · obtain ⟨inner, same⟩ := pos128_step last
    rw [same]
    exact if_neg inner

theorem spells128 : Spells (cursor128 key mask) (0x80, 0) (masked128 key mask) :=
  spells_masked (p := pos128) (fun _ inside => byteBit_pos mask inside)
    (fun _ inside => byteBit_pos key inside) (fun _ inside => next128 key mask inside)
    (.inl rfl) (by decide)

theorem follows128 : Follows (lookup128 key) (0x80, 0) (word128 key) (0x80, 16) :=
  follows_word (p := pos128) (fun _ inside => byteBit_pos key inside)
    (fun i _ => lookup128_next key i)

end Address

end RadixTree
