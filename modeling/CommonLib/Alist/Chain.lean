import CommonLib.Alist.Operations
import Mathlib.Data.List.Pairwise

/- The chain of a list's blocks in the memory. -/
namespace Alist
open Memory

structure Block where
  base : Nat
  asked : Nat

namespace Block

def offset (block : Block) : Nat := (block.asked + 9) / 8 * 8

def link (block : Block) : Nat := block.base + block.offset

def region (block : Block) : Nat × Nat := (block.base, block.offset + 16)

theorem asked_le (block : Block) : block.asked + 2 ≤ block.offset := by
  unfold offset
  omega

theorem link_pos (block : Block) : 2 < block.link := by
  have room := block.asked_le
  have aligned : block.offset % 8 = 0 := by unfold offset; omega
  unfold link
  omega

end Block

def Fits (n : Nat) : Prop := (n + 9) / 8 * 8 + 16 < 2 ^ 64

instance (n : Nat) : Decidable (Fits n) := inferInstanceAs (Decidable (_ < _))

theorem padding_toNat (n : BitVec 64) : (-n &&& (8 - 1)).toNat = (8 - n.toNat % 8) % 8 := by
  have mask : (8 - 1 : BitVec 64).toNat = 2 ^ 3 - 1 := rfl
  rw [BitVec.toNat_and, mask, Nat.and_two_pow_sub_one_eq_mod, BitVec.toNat_neg]
  have small := n.isLt
  omega

/-- `alist_malloc` refuses just the sizes for which a sum wraps. -/
theorem linkOffset_eq (n : BitVec 64) :
    linkOffset n = if Fits n.toNat then some
        (BitVec.ofNat 64 ((n.toNat + 9) / 8 * 8)) else none := by
  have small := n.isLt
  have limit : ¬ (soapMaxAllocSize > 0 ∧ n > soapMaxAllocSize) := by simp [soapMaxAllocSize]
  have two : (n + 2).toNat = (n.toNat + 2) % 2 ^ 64 := by simp [BitVec.toNat_add]
  unfold linkOffset
  rw [if_neg limit]
  by_cases first : n + 2 < n
  · have wraps : ¬ Fits n.toNat := by
      rw [BitVec.lt_def, two] at first
      unfold Fits
      omega
    rw [if_pos first, if_neg wraps]
  · have exact_ : (n + 2).toNat = n.toNat + 2 := by
      rw [BitVec.lt_def, two] at first
      omega
    have pad := padding_toNat (n + 2)
    have rounded : (n + 2 + (-(n + 2) &&& (8 - 1))).toNat = ((n.toNat + 9) / 8 * 8) % 2 ^ 64 := by
      rw [BitVec.toNat_add, pad, exact_]
      omega
    have total : (n + 2 + (-(n + 2) &&& (8 - 1)) + 8 + 8).toNat =
        ((n.toNat + 9) / 8 * 8 + 16) % 2 ^ 64 := by
      rw [BitVec.toNat_add, BitVec.toNat_add, rounded]
      simp
    rw [if_neg first]
    by_cases fits : Fits n.toNat
    · have passes : ¬ n + 2 + (-(n + 2) &&& (8 - 1)) + 8 + 8 < n + 2 := by
        unfold Fits at fits
        rw [BitVec.lt_def, total, exact_]
        omega
      rw [if_pos fits]
      dsimp only
      rw [if_neg passes]
      congr 1
      apply BitVec.eq_of_toNat_eq
      rw [rounded, BitVec.toNat_ofNat]
    · have stops : n + 2 + (-(n + 2) &&& (8 - 1)) + 8 + 8 < n + 2 := by
        unfold Fits at fits
        rw [BitVec.lt_def, total, exact_]
        omega
      rw [if_neg fits]
      dsimp only
      rw [if_pos stops]

/-! ### The chain -/

def Chain (mem : Mem) : Nat → List Block → Prop
  | node, [] => node = 0
  | node, block :: blocks =>
    node = block.link ∧ load mem (block.link - 2) 2 = soapCanary ∧
      load mem (block.link + 8) 8 = block.offset ∧ Chain mem (load mem block.link 8) blocks

theorem Chain.congr {mem mem' : Mem} {node : Nat} {blocks : List Block}
    (chain : Chain mem node blocks)
    (same : ∀ block ∈ blocks, ∀ a, block.link - 2 ≤ a → a < block.link + 16 → mem' a = mem a) :
    Chain mem' node blocks := by
  induction blocks generalizing node with
  | nil => exact chain
  | cons block blocks ih =>
    obtain ⟨leads, canary, size, rest⟩ := chain
    have here := same block (by simp)
    have positive := block.link_pos
    have link : load mem' block.link 8 = load mem block.link 8 :=
      load_congr fun a low high => here a (by omega) (by omega)
    refine ⟨leads, ?_, ?_, ?_⟩
    · rw [← canary]
      exact load_congr fun a low high => here a (by omega) (by omega)
    · rw [← size]
      exact load_congr fun a low high => here a (by omega) (by omega)
    · rw [link]
      exact ih rest fun other member => same other (by simp [member])

def Apart (r s : Nat × Nat) : Prop := r.1 + r.2 ≤ s.1 ∨ s.1 + s.2 ≤ r.1

theorem Apart.symm {r s : Nat × Nat} (apart : Apart r s) : Apart s r := Or.symm apart

/-- The heap holds the blocks of a list, and its chain has them in order. -/
structure Tracks (list : Nat) (heap : Heap) (blocks : List Block) : Prop where
  live : heap.live = blocks.map Block.region
  header : (list, 8) ∈ heap.objects
  chain : Chain heap.mem (load heap.mem list 8) blocks
  apart : blocks.Pairwise fun b c => Apart b.region c.region
  beside : ∀ block ∈ blocks, Apart (list, 8) block.region
  space : ∀ block ∈ blocks, 0 < block.base ∧ block.base + block.offset + 16 ≤ 2 ^ 64

end Alist
