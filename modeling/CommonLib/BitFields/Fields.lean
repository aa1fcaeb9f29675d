import Mathlib.Data.List.Basic
import Mathlib.Data.BitVec

/- Fields of given widths packed into one number, the first field in the highest bits, and the
   machine words that hold them. -/
namespace BitFields

def pack : List Nat → List Nat → Nat
  | _ :: ws, v :: vs => v * 2 ^ ws.sum + pack ws vs
  | _, _ => 0

def unpack : List Nat → Nat → List Nat
  | [], _ => []
  | w :: ws, n => n / 2 ^ ws.sum % 2 ^ w :: unpack ws n

def Fit : List Nat → List Nat → Prop
  | [], [] => True
  | w :: ws, v :: vs => v < 2 ^ w ∧ Fit ws vs
  | _, _ => False

theorem pack_lt {ws vs : List Nat} (fit : Fit ws vs) : pack ws vs < 2 ^ ws.sum := by
  induction ws generalizing vs with
  | nil => cases vs <;> exact Nat.two_pow_pos _
  | cons w ws ih =>
    cases vs with
    | nil => exact fit.elim
    | cons v vs =>
      obtain ⟨small, fit⟩ := fit
      have rest := ih fit
      have whole : (v + 1) * 2 ^ ws.sum ≤ 2 ^ w * 2 ^ ws.sum := Nat.mul_le_mul_right _ small
      rw [List.sum_cons, Nat.pow_add, pack]
      rw [Nat.succ_mul] at whole
      omega

theorem unpack_mod (ws : List Nat) {n m : Nat} (same : n % 2 ^ ws.sum = m % 2 ^ ws.sum) :
    unpack ws n = unpack ws m := by
  induction ws with
  | nil => rfl
  | cons w ws ih =>
    rw [List.sum_cons, Nat.add_comm, Nat.pow_add] at same
    rw [unpack, unpack, ← Nat.mod_mul_right_div_self, same, Nat.mod_mul_right_div_self]
    have low := congrArg (· % 2 ^ ws.sum) same
    simp only [Nat.mod_mul_right_mod] at low
    rw [ih low]

theorem unpack_pack {ws vs : List Nat} (fit : Fit ws vs) : unpack ws (pack ws vs) = vs := by
  induction ws generalizing vs with
  | nil =>
    cases vs with
    | nil => rfl
    | cons v vs => exact fit.elim
  | cons w ws ih =>
    cases vs with
    | nil => exact fit.elim
    | cons v vs =>
      obtain ⟨small, fit⟩ := fit
      have rest := pack_lt fit
      have tail : (v * 2 ^ ws.sum + pack ws vs) % 2 ^ ws.sum = pack ws vs % 2 ^ ws.sum := by
        rw [Nat.mul_comm, Nat.mul_add_mod]
      have head : (v * 2 ^ ws.sum + pack ws vs) / 2 ^ ws.sum = v := by
        rw [Nat.mul_comm, Nat.mul_add_div (Nat.two_pow_pos _), Nat.div_eq_of_lt rest, Nat.add_zero]
      rw [pack, unpack, head, Nat.mod_eq_of_lt small, unpack_mod ws tail, ih fit]

theorem pack_unpack (ws : List Nat) (n : Nat) : pack ws (unpack ws n) = n % 2 ^ ws.sum := by
  induction ws with
  | nil => exact (Nat.mod_one n).symm
  | cons w ws ih =>
    rw [unpack, pack, ih, List.sum_cons, Nat.add_comm w, Nat.pow_add, Nat.mod_mul, Nat.mul_comm,
      Nat.add_comm]

theorem pack_snoc {ws vs : List Nat} (same : ws.length = vs.length) (w v : Nat) :
    pack (ws ++ [w]) (vs ++ [v]) = pack ws vs * 2 ^ w + v := by
  induction ws generalizing vs with
  | nil =>
    rw [List.eq_nil_of_length_eq_zero same.symm]
    simp [pack]
  | cons u ws ih =>
    cases vs with
    | nil => exact nomatch same
    | cons x vs =>
      rw [List.cons_append, List.cons_append, pack, pack, ih (Nat.succ.inj same), List.sum_append,
        List.sum_singleton, Nat.pow_add, Nat.add_mul, Nat.mul_assoc, Nat.add_assoc]

theorem Fit.length {ws vs : List Nat} (fit : Fit ws vs) : ws.length = vs.length := by
  induction ws generalizing vs with
  | nil =>
    cases vs with
    | nil => rfl
    | cons v vs => exact fit.elim
  | cons w ws ih =>
    cases vs with
    | nil => exact fit.elim
    | cons v vs => exact congrArg Nat.succ (ih fit.2)

theorem Fit.snoc {ws vs : List Nat} (fit : Fit ws vs) {w v : Nat} (small : v < 2 ^ w) :
    Fit (ws ++ [w]) (vs ++ [v]) := by
  induction ws generalizing vs with
  | nil =>
    cases vs with
    | nil => exact ⟨small, trivial⟩
    | cons x vs => exact fit.elim
  | cons u ws ih =>
    cases vs with
    | nil => exact fit.elim
    | cons x vs => exact ⟨fit.1, ih fit.2⟩

/-! ### Words -/

/-- A word that holds the fields in its low bits. -/
structure Holds {m : Nat} (word : BitVec m) (ws vs : List Nat) : Prop where
  value : word.toNat = pack ws vs
  fit : Fit ws vs

theorem Holds.start {m w : Nat} {word : BitVec m} {v : Nat} (value : word.toNat = v)
    (small : v < 2 ^ w) :
    Holds word [w] [v] := by
  constructor
  · rw [value]
    simp [pack]
  · exact ⟨small, trivial⟩

theorem Holds.push {m : Nat} {word : BitVec m} {ws vs : List Nat}
    (holds : Holds word ws vs) {w : Nat}
    {value : BitVec m} {v : Nat} (value_ : value.toNat = v) (small : v < 2 ^ w)
    (room : ws.sum + w ≤ m) :
    Holds (word <<< w ||| value) (ws ++ [w]) (vs ++ [v]) := by
  obtain ⟨packed, fit⟩ := holds
  have inside : word.toNat * 2 ^ w < 2 ^ m := by
    calc word.toNat * 2 ^ w < 2 ^ ws.sum * 2 ^ w :=
          Nat.mul_lt_mul_of_pos_right (packed ▸ pack_lt fit) (Nat.two_pow_pos w)
      _ = 2 ^ (ws.sum + w) := (Nat.pow_add 2 _ _).symm
      _ ≤ 2 ^ m := Nat.pow_le_pow_right Nat.two_pos room
  constructor
  · rw [BitVec.toNat_or, BitVec.toNat_shiftLeft, Nat.shiftLeft_eq, Nat.mod_eq_of_lt inside, value_,
      pack_snoc fit.length, ← packed, Nat.mul_comm, Nat.two_pow_add_eq_or_of_lt small]
  · exact fit.snoc small

theorem field_toNat {m : Nat} (word : BitVec m) (s k w : Nat) (narrow : w ≤ k) (mask : BitVec m)
    (ones : mask.toNat = 2 ^ k - 1) :
    ((word >>> s &&& mask).setWidth w).toNat = word.toNat / 2 ^ s % 2 ^ w := by
  rw [BitVec.toNat_setWidth, BitVec.toNat_and, BitVec.toNat_ushiftRight,
    Nat.shiftRight_eq_div_pow, ones,
    Nat.and_two_pow_sub_one_eq_mod, Nat.mod_mod_of_dvd _ (Nat.pow_dvd_pow 2 narrow)]

theorem shifted_toNat {m : Nat} (word : BitVec m) (s w : Nat) :
    ((word >>> s).setWidth w).toNat = word.toNat / 2 ^ s % 2 ^ w := by
  rw [BitVec.toNat_setWidth, BitVec.toNat_ushiftRight, Nat.shiftRight_eq_div_pow]

theorem lowest_toNat {m : Nat} (word : BitVec m) (w : Nat) (mask : BitVec m)
    (ones : mask.toNat = 2 ^ w - 1) :
    ((word &&& mask).setWidth w).toNat = word.toNat / 2 ^ 0 % 2 ^ w := by
  rw [BitVec.toNat_setWidth, BitVec.toNat_and, ones, Nat.and_two_pow_sub_one_eq_mod, Nat.mod_mod,
    Nat.pow_zero, Nat.div_one]

end BitFields
