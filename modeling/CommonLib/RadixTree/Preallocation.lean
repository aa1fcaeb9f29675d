import CommonLib.RadixTree.Runs
import Mathlib.Data.Nat.Bitwise

/- The preallocation of `ngx_radix_tree_create`: all the prefixes up to a length, without values. -/
namespace RadixTree
open SearchTree

def numbered (n i : Nat) : List Side := (List.range n).map fun k => side (i.testBit (n - 1 - k))

theorem numbered_iff {n : Nat} {w : List Side} : (∃ i < 2 ^ n, w = numbered n i) ↔ w.length = n := by
  constructor
  · rintro ⟨i, _, rfl⟩
    simp [numbered]
  · rintro rfl
    refine ⟨Nat.ofBits fun k : Fin w.length => decide (w[w.length - 1 - k] = .right),
      Nat.ofBits_lt_two_pow _, List.ext_getElem (by simp [numbered]) fun k here _ => ?_⟩
    have back : w.length - 1 - (w.length - 1 - k) = k := by omega
    simp only [numbered, List.getElem_map, List.getElem_range]
    rw [Nat.testBit_ofBits_lt _ _ (by omega)]
    simp only [back, side]
    cases w[k] <;> simp

def Ones (mask : BitVec 32) (n : Nat) : Prop := ∀ k < 32, mask.getMsbD k = decide (k < n)

theorem ones_zero : Ones 0 0 := by
  intro k _
  simp

theorem Ones.next {mask : BitVec 32} {n : Nat} (ones : Ones mask n) : Ones (nextMask mask) (n + 1) := by
  intro k inside
  have top : (0x80000000 : BitVec 32).getMsbD k = decide (k = 0) := by
    have power : (0x80000000 : BitVec 32) = BitVec.twoPow 32 31 := by decide
    rw [power, BitVec.getMsbD_eq_getLsbD, BitVec.getLsbD_twoPow, Bool.eq_iff_iff]
    simp only [Bool.and_eq_true, decide_eq_true_eq]
    omega
  rw [nextMask, BitVec.getMsbD_or, top, BitVec.getMsbD_ushiftRight]
  cases k with
  | zero => simp
  | succ k => simp [ones k (by omega), inside]

theorem takeWhile_range (p : Nat → Bool) {m n : Nat} (inside : m ≤ n)
    (ones : ∀ k < n, p k = decide (k < m)) : (List.range n).takeWhile p = List.range m := by
  obtain ⟨d, rfl⟩ := Nat.exists_eq_add_of_le inside
  rw [List.range_add, List.takeWhile_append_of_pos]
  · cases d with
    | zero => simp
    | succ d =>
      have ends : p m = false := by simpa using ones m (by omega)
      rw [List.range_succ_eq_map]
      simp [ends]
  · intro k member
    have below := List.mem_range.mp member
    simpa [below] using ones k (by omega)

def keyOf (n i : Nat) : BitVec 32 := BitVec.ofNat 32 (i * 2 ^ (31 - n))

theorem masked_keyOf {mask : BitVec 32} {n : Nat} (ones : Ones mask (n + 1)) (inside : n < 32)
    (i : Nat) : masked32 (keyOf n i) mask = numbered (n + 1) i := by
  rw [masked32, masked, takeWhile_range (bit32 mask) inside ones, numbered]
  refine List.map_congr_left fun k member => congrArg side ?_
  have below := List.mem_range.mp member
  rw [bit32, keyOf, BitVec.getMsbD_eq_getLsbD, BitVec.getLsbD_ofNat, Nat.testBit_mul_two_pow]
  have e : 32 - 1 - k - (31 - n) = n + 1 - 1 - k := by omega
  have high : 31 - n ≤ 32 - 1 - k := by omega
  have low : 32 - 1 - k < 32 := by omega
  have first : k < 32 := by omega
  rw [e, decide_eq_true high, decide_eq_true low, decide_eq_true first]
  rfl

theorem keyOf_succ {n : Nat} (inside : n < 32) (i : Nat) : keyOf n i + pos32 n = keyOf n (i + 1) := by
  have inc : pos32 n = BitVec.ofNat 32 (2 ^ (31 - n)) := by
    refine BitVec.eq_of_toNat_eq ?_
    have small : 2 ^ (31 - n) < 2 ^ 32 := Nat.pow_lt_pow_right (by decide) (by omega)
    rw [pos32, twoPow_shift (w := 32) inside, BitVec.toNat_twoPow_of_lt (by omega),
      BitVec.toNat_ofNat, Nat.mod_eq_of_lt small]
  rw [inc, keyOf, keyOf, ← BitVec.ofNat_add, Nat.succ_mul]

theorem keyOf_eq_zero {n i : Nat} (inside : n < 32) (number : i ≤ 2 ^ (n + 1)) (pos : 0 < i) :
    keyOf n i = 0 ↔ i = 2 ^ (n + 1) := by
  have whole : 2 ^ (n + 1) * 2 ^ (31 - n) = 2 ^ 32 := by
    rw [← Nat.pow_add]
    congr 1
    omega
  rw [keyOf]
  constructor
  · intro zero
    have value := congrArg BitVec.toNat zero
    rw [BitVec.toNat_ofNat] at value
    rcases Nat.lt_or_eq_of_le number with less | same
    · have small : i * 2 ^ (31 - n) < 2 ^ 32 := by
        rw [← whole]
        exact Nat.mul_lt_mul_of_pos_right less (Nat.two_pow_pos _)
      rw [Nat.mod_eq_of_lt small] at value
      have some_ := Nat.mul_pos pos (Nat.two_pow_pos (31 - n))
      simp at value
      omega
    · exact same
  · rintro rfl
    rw [whole]
    rfl

section Loops
variable {pool : Pool} {t t' : Tree} {whole : Shape} {mask : BitVec 32} {n i fuel : Nat}

structure Filled (whole : Shape) (n i : Nat) : Prop where
  there : whole ≠ .nil
  table : values whole = noTable
  present : ∀ w, Present whole w ↔ w.length ≤ n ∨ ∃ j < i, w = numbered (n + 1) j

theorem Filled.deeper (filled : Filled whole n (2 ^ (n + 1))) : Filled whole (n + 1) 0 := by
  refine ⟨filled.there, filled.table, fun w => ?_⟩
  rw [filled.present, numbered_iff]
  constructor
  · rintro (short | long)
    · exact .inl (Nat.le_succ_of_le short)
    · exact .inl long.le
  · rintro (short | ⟨j, wrong, _⟩)
    · exact (Nat.le_or_eq_of_le_succ short)
    · exact absurd wrong (Nat.not_lt_zero j)

theorem Filled.next (filled : Filled whole n i) {whole' : Shape}
    (inserted : Inserted pool t t' whole (numbered (n + 1) i) noValue .ok whole') :
    Filled whole' n (i + 1) := by
  refine ⟨inserted.there filled.there, ?_, fun w => ?_⟩
  · rw [inserted.2.1, filled.table]
    exact Function.update_eq_self_iff.mpr rfl
  · rw [inserted.2.2, filled.present]
    constructor
    · rintro ((short | ⟨j, earlier, same⟩) | inside)
      · exact .inl short
      · exact .inr ⟨j, Nat.lt_succ_of_lt earlier, same⟩
      · have long : (numbered (n + 1) i).length = n + 1 := by simp [numbered]
        rcases Nat.le_or_eq_of_le_succ (inside.length_le.trans_eq long) with short | whole
        · exact .inl short
        · exact .inr ⟨i, Nat.lt_succ_self i, inside.eq_of_length (whole.trans long.symm)⟩
    · rintro (short | ⟨j, earlier, same⟩)
      · exact .inl (.inl short)
      · rcases Nat.lt_succ_iff_lt_or_eq.mp earlier with less | rfl
        · exact .inl (.inr ⟨j, less, same⟩)
        · exact .inr (by rw [same])

theorem level_filled (h : Holds pool t [] [] whole) (filled : Filled whole n i)
    (ones : Ones mask (n + 1)) (inside : n < 32) (number : i < 2 ^ (n + 1))
    (enough : 2 ^ (n + 1) ≤ fuel + i) :
    (∃ asked, level pool mask (pos32 n) fuel t (keyOf n i) = some (.error asked) ∧
      ∃ k < asked, pool.page k = none) ∨
    ∃ t' whole', level pool mask (pos32 n) fuel t (keyOf n i) = some (.ok t') ∧
      Holds pool t' [] [] whole' ∧ Filled whole' (n + 1) 0 := by
  induction fuel generalizing t whole i with
  | zero => omega
  | succ fuel ih =>
    obtain ⟨t1, reply, whole1, run, h1, inserted⟩ :=
      radix32.insert_holds (keyOf n i) mask noValue h filled.there
    have run' : radix32Insert pool t (keyOf n i) mask noValue = some (t1, reply) := run
    have place : radix32.masked (keyOf n i) mask = numbered (n + 1) i := masked_keyOf ones inside i
    rw [place] at inserted
    cases reply with
    | error =>
      obtain ⟨_, ⟨k, _, below, failed⟩, _⟩ := inserted
      exact .inl ⟨t1.asked, by simp [level, run'], k, below, failed⟩
    | busy =>
      refine absurd ?_ inserted.1
      rw [filled.table]
      rfl
    | ok =>
      have filled1 := filled.next inserted
      have zero := keyOf_eq_zero inside (Nat.succ_le_of_lt number) (Nat.succ_pos i)
      by_cases last : i + 1 = 2 ^ (n + 1)
      · rw [last] at filled1
        refine .inr ⟨t1, whole1, ?_, h1, filled1.deeper⟩
        simp only [level, run', keyOf_succ inside, Option.bind_eq_bind, Option.bind_some, ne_eq,
          not_true_eq_false, if_false]
        exact if_pos (zero.mpr last)
      · have pass : level pool mask (pos32 n) (fuel + 1) t (keyOf n i) =
            level pool mask (pos32 n) fuel t1 (keyOf n (i + 1)) := by
          simp only [level, run', keyOf_succ inside, Option.bind_eq_bind, Option.bind_some, ne_eq,
            not_true_eq_false, if_false]
          exact if_neg fun wrong => last (zero.mp wrong)
        rw [pass]
        exact ih h1 filled1 (by omega) (by omega)

theorem levels_filled {m : Nat} (h : Holds pool t [] [] whole) (filled : Filled whole n 0)
    (ones : Ones mask n) (inside : n + m ≤ 32) (enough : 2 ^ (n + m) ≤ fuel) :
    (∃ asked, levels pool fuel m t mask (pos32 n) = some (.error asked) ∧
      ∃ k < asked, pool.page k = none) ∨
    ∃ t' whole', levels pool fuel m t mask (pos32 n) = some (.ok t') ∧
      Holds pool t' [] [] whole' ∧ Filled whole' (n + m) 0 := by
  induction m generalizing t whole mask n with
  | zero => exact .inr ⟨t, whole, rfl, h, filled⟩
  | succ m ih =>
    have first : keyOf n 0 = 0 := by simp [keyOf]
    have fits : 2 ^ (n + 1) ≤ fuel + 0 :=
      (Nat.pow_le_pow_right (by decide) (by omega)).trans enough
    have step := level_filled h filled ones.next (by omega) (Nat.two_pow_pos _) fits
    rw [first] at step
    rw [levels, pos32_succ]
    rcases step with ⟨asked, run, failed⟩ | ⟨t1, whole1, run, h1, filled1⟩
    · rw [run]
      exact .inl ⟨asked, rfl, failed⟩
    · rw [run]
      have length : n + 1 + m = n + (m + 1) := by omega
      have rest := ih h1 filled1 ones.next (by omega) (by rwa [length])
      rw [length] at rest
      exact rest

end Loops

def depthOf (pool : Pool) (preallocate : Int) : Nat :=
  if preallocate = -1 then defaultLevels pool else preallocate.toNat

/-- A new tree has a node for every prefix up to the depth asked for and no other node, and no value;
    it is NULL only where there is no memory for it or for a page that it asked for. -/
theorem create_filled {pool : Pool} {mem : Mem} {fuel : Nat} {preallocate : Int}
    (null : mem 0 = none) (known : -1 ≤ preallocate) (inside : depthOf pool preallocate ≤ 32)
    (enough : 2 ^ depthOf pool preallocate ≤ fuel) :
    (∃ asked, create pool fuel mem preallocate = some (.error asked) ∧
      (pool.header = false ∨ ∃ k < asked, pool.page k = none)) ∨
    ∃ t whole, create pool fuel mem preallocate = some (.ok t) ∧ Holds pool t [] [] whole ∧
      values whole = noTable ∧ ∀ w, Present whole w ↔ w.length ≤ depthOf pool preallocate := by
  rcases create_eq null fuel preallocate with failed | ⟨t1, q, h, same⟩
  · exact .inl failed
  · have run : create pool fuel mem preallocate =
        levels pool fuel (depthOf pool preallocate) t1 0 (pos32 0) := by
      rw [same, depthOf]
      split_ifs with default wrong
      · rfl
      · omega
      · rfl
    have filled : Filled (leaf q noValue) 0 0 :=
      ⟨by simp [leaf], values_leaf q, fun w => by simp [present_leaf]⟩
    have length : 0 + depthOf pool preallocate = depthOf pool preallocate := Nat.zero_add _
    have fits : 2 ^ (0 + depthOf pool preallocate) ≤ fuel := by rwa [length]
    have rest := levels_filled h filled ones_zero (by omega) fits
    rw [length, ← run] at rest
    rcases rest with ⟨asked, failed, page⟩ | ⟨t, whole, made, holds, all⟩
    · exact .inl ⟨asked, failed, .inr page⟩
    · refine .inr ⟨t, whole, made, holds, all.table, fun w => ?_⟩
      rw [all.present]
      simp

theorem create_filled_sample : ∃ t whole, create samplePool 8 (fun _ => none) 3 = some (.ok t) ∧
    Holds samplePool t [] [] whole ∧ values whole = noTable ∧
    ∀ w, Present whole w ↔ w.length ≤ 3 := by
  have made := @create_filled samplePool (fun _ => none) 8 3 rfl (by decide) (by decide) (by decide)
  refine made.resolve_left ?_
  rintro ⟨asked, _, header | ⟨k, _, refused⟩⟩
  · exact absurd header (by decide)
  · exact Option.some_ne_none _ refused

end RadixTree
