import Mathlib.Data.List.GetD
import Mathlib.Algebra.Group.Nat.Defs

/- A memory of bytes, and the little-endian words in it. -/
namespace Memory

abbrev Mem := Nat → BitVec 8

def put (mem : Mem) (addr : Nat) (bytes : List (BitVec 8)) : Mem :=
  fun a => if addr ≤ a then bytes.getD (a - addr) (mem a) else mem a

def load (mem : Mem) (addr : Nat) : Nat → Nat
  | 0 => 0
  | size + 1 => (mem addr).toNat + 256 * load mem (addr + 1) size

def wordBytes : Nat → Nat → List (BitVec 8)
  | 0, _ => []
  | size + 1, value => BitVec.ofNat 8 value :: wordBytes size (value / 256)

def store (mem : Mem) (addr size value : Nat) : Mem := put mem addr (wordBytes size value)

@[simp] theorem wordBytes_length (size value : Nat) : (wordBytes size value).length = size := by
  induction size generalizing value with
  | zero => rfl
  | succ size ih => simp [wordBytes, ih]

def Outside (addr size a : Nat) : Prop := a < addr ∨ addr + size ≤ a

theorem put_outside (mem : Mem) {addr a : Nat} {bytes : List (BitVec 8)}
    (outside : Outside addr bytes.length a) : put mem addr bytes a = mem a := by
  unfold put
  rcases outside with below | above
  · rw [if_neg (by omega)]
  · rw [if_pos (by omega), List.getD_eq_default _ _ (by omega)]

theorem store_outside (mem : Mem) {addr size a : Nat} (value : Nat)
    (outside : Outside addr size a) :
    store mem addr size value a = mem a :=
  put_outside mem (by simpa using outside)

theorem put_inside (mem : Mem) {addr i : Nat} {bytes : List (BitVec 8)}
    (inside : i < bytes.length) :
    put mem addr bytes (addr + i) = bytes[i] := by
  simp [put, inside]

theorem load_lt (mem : Mem) (addr size : Nat) : load mem addr size < 256 ^ size := by
  induction size generalizing addr with
  | zero => exact Nat.zero_lt_one
  | succ size ih =>
    have low : (mem addr).toNat < 256 := (mem addr).isLt
    have high := ih (addr + 1)
    rw [load, Nat.pow_succ]
    omega

theorem load_congr {mem mem' : Mem} {addr size : Nat}
    (same : ∀ a, addr ≤ a → a < addr + size → mem' a = mem a) :
        load mem' addr size = load mem addr size := by
  induction size generalizing addr with
  | zero => rfl
  | succ size ih =>
    have rest : load mem' (addr + 1) size = load mem (addr + 1) size :=
      ih fun a low high => same a (by omega) (by omega)
    rw [load, load, rest, same addr (Nat.le_refl _) (by omega)]

theorem load_put_apart (mem : Mem) {addr dst size : Nat} {bytes : List (BitVec 8)}
    (apart : addr + size ≤ dst ∨ dst + bytes.length ≤ addr) :
    load (put mem dst bytes) addr size = load mem addr size := by
  apply load_congr
  intro a low high
  apply put_outside
  unfold Outside
  omega

theorem load_store_apart (mem : Mem) {addr dst size size' : Nat} (value : Nat)
    (apart : addr + size ≤ dst ∨ dst + size' ≤ addr) :
    load (store mem dst size' value) addr size = load mem addr size :=
  load_put_apart mem (by simpa using apart)

theorem load_store (mem : Mem) (addr : Nat) {size value : Nat} (fits : value < 256 ^ size) :
    load (store mem addr size value) addr size = value := by
  induction size generalizing mem addr value with
  | zero =>
    rw [Nat.pow_zero] at fits
    rw [load]
    omega
  | succ size ih =>
    have first : store mem addr (size + 1) value addr = BitVec.ofNat 8 value := by
      simp [store, put, wordBytes]
    have rest : load (store mem addr (size + 1) value) (addr + 1) size = value / 256 := by
      rw [← ih mem (addr + 1) (Nat.div_lt_of_lt_mul
        (by rw [Nat.mul_comm, ← Nat.pow_succ]; exact fits))]
      apply load_congr
      intro a low high
      obtain ⟨i, rfl⟩ := Nat.exists_eq_add_of_le low
      have inside : i < (wordBytes size (value / 256)).length := by simp; omega
      have place : addr + 1 + i = addr + (i + 1) := by omega
      rw [store, store, put_inside mem inside, place, put_inside mem (by simp; omega)]
      rfl
    rw [load, first, rest, BitVec.toNat_ofNat]
    omega

end Memory
