import CommonLib.Alist.Tracking

/- Every run of calls keeps the chain of a list. -/
namespace Alist
open Memory

def alistInit (list : Nat) (heap : Heap) : Option Heap := heap.writeWord list 8 0

def Call.track (blocks : List Block) : Call → List Block
  | .malloc n answer => allocated n.toNat answer blocks
  | .calloc n answer => allocated n.toNat answer blocks
  | .strdup none _ => blocks
  | .strdup (some s) answer =>
    let n := BitVec.ofNat 64 s.length + 1
    if n > 0 then allocated n.toNat answer blocks else blocks
  | .dealloc p => if p = 0 then [] else blocks.eraseP (·.base = p)
  | .uninit => []
  | .user _ _ => blocks

/-- The allocator answers with a block of its own, and users store inside of their bytes. -/
def Call.Allowed (list : Nat) (blocks : List Block) : Call → Prop
  | .malloc n answer => Fresh list blocks n.toNat answer
  | .calloc n answer => Fresh list blocks n.toNat answer
  | .strdup none _ => True
  | .strdup (some s) answer => Fresh list blocks (BitVec.ofNat 64 s.length + 1).toNat answer
  | .user addr _ => ∃ block ∈ blocks, block.base ≤ addr ∧ addr < block.base + block.asked
  | _ => True

def AllowedRun (list : Nat) : List Block → List Call → Prop
  | _, [] => True
  | blocks, call :: calls => call.Allowed list blocks ∧ AllowedRun list (call.track blocks) calls

section Steps
variable {list : Nat} {heap : Heap} {blocks : List Block}

theorem calloc_tracks {n : BitVec 64} {answer : Answer} (tracks : Tracks list heap blocks)
    (fresh : Fresh list blocks n.toNat answer) :
    ∃ heap' p, alistCalloc list heap n answer = some (heap', p) ∧
      Tracks list heap' (allocated n.toNat answer blocks) ∧
      (p = 0 ∧ allocated n.toNat answer blocks = blocks ∨
        p ≠ 0 ∧ allocated n.toNat answer blocks = ⟨p, n.toNat⟩ :: blocks) := by
  obtain ⟨heap₁, p, run, tracked, result⟩ := malloc_tracks tracks fresh
  rcases result with ⟨null, _, same⟩ | ⟨real, first⟩
  · refine ⟨heap₁, p, ?_, tracked, Or.inl ⟨null, same⟩⟩
    simp [alistCalloc, run, null]
  · rw [first] at tracked
    obtain ⟨heap₂, written, tracked⟩ := user_tracks p (List.replicate n.toNat 0) tracked
      List.mem_cons_self (Nat.le_refl p) (by simp)
    refine ⟨heap₂, p, ?_, by rw [first]; exact tracked, Or.inr ⟨real, first⟩⟩
    simp only [alistCalloc, run, Option.bind_eq_bind, Option.bind_some, ne_eq, real,
      not_false_eq_true,
      if_true, written, Option.pure_def]

theorem strdup_tracks {s : List (BitVec 8)} {answer : Answer} (tracks : Tracks list heap blocks)
    (fresh : Fresh list blocks (BitVec.ofNat 64 s.length + 1).toNat answer) :
    ∃ heap' p, alistStrdup list heap (some s) answer = some (heap', p) ∧
      Tracks list heap' ((Call.strdup (some s) answer).track blocks) := by
  rw [alistStrdup, Call.track]
  dsimp only
  generalize BitVec.ofNat 64 s.length + 1 = n at fresh
  by_cases positive : n > 0
  · rw [if_pos positive, if_pos positive]
    obtain ⟨heap₁, p, run, tracked, result⟩ := calloc_tracks tracks fresh
    rcases result with ⟨null, same⟩ | ⟨real, first⟩
    · refine ⟨heap₁, 0, ?_, tracked⟩
      simp [run, null]
    · rw [first] at tracked ⊢
      have size : 0 < n.toNat := positive
      have last : (n - 1).toNat = n.toNat - 1 := by
        have small := n.isLt
        rw [BitVec.toNat_sub]
        simp
        omega
      have within : ((s ++ [0]).take n.toNat).length ≤ n.toNat := List.length_take_le ..
      obtain ⟨heap₂, copied, tracked⟩ := user_tracks p ((s ++ [0]).take n.toNat) tracked
        List.mem_cons_self (Nat.le_refl p) (Nat.add_le_add_left within p)
      obtain ⟨heap₃, ended, tracked⟩ := user_tracks (p + (n - 1).toNat) [0] tracked
        List.mem_cons_self (Nat.le_add_right p _) (by rw [last]; simp; omega)
      refine ⟨heap₃, p, ?_, tracked⟩
      simp only [run, Option.bind_eq_bind, Option.bind_some, real, if_false, copied, ended,
        Option.pure_def]
  · rw [if_neg positive, if_neg positive]
    exact ⟨heap, 0, rfl, tracks⟩

theorem call_tracks {call : Call} (tracks : Tracks list heap blocks)
    (allowed : call.Allowed list blocks) :
    ∃ heap', call.run list heap = some heap' ∧ Tracks list heap' (call.track blocks) := by
  cases call with
  | malloc n answer =>
    obtain ⟨heap', p, run, tracked, _⟩ := malloc_tracks tracks allowed
    exact ⟨heap', by simp [Call.run, run], tracked⟩
  | calloc n answer =>
    obtain ⟨heap', p, run, tracked, _⟩ := calloc_tracks tracks allowed
    exact ⟨heap', by simp [Call.run, run], tracked⟩
  | strdup s answer =>
    cases s with
    | none => exact ⟨heap, rfl, tracks⟩
    | some s =>
      obtain ⟨heap', p, run, tracked⟩ := strdup_tracks tracks allowed
      exact ⟨heap', by simp [Call.run, run], tracked⟩
  | dealloc p =>
    by_cases null : p = 0
    · subst null
      exact dealloc_null tracks
    · rw [Call.track, if_neg null]
      by_cases tracked : ∃ block ∈ blocks, block.base = p
      · obtain ⟨heap', run, after, _⟩ := dealloc_tracked tracks tracked
        exact ⟨heap', run, after⟩
      · have absent : ∀ block ∈ blocks, block.base ≠ p :=
          fun block member same => tracked ⟨block, member, same⟩
        rw [List.eraseP_of_forall_not (by simpa using absent)]
        exact ⟨heap, dealloc_untracked tracks null absent, tracks⟩
  | uninit => exact dealloc_null tracks
  | user addr byte =>
    obtain ⟨block, member, low, high⟩ := allowed
    exact user_tracks addr [byte] tracks member low (by simp; omega)

theorem run_tracks {calls : List Call} (tracks : Tracks list heap blocks)
    (allowed : AllowedRun list blocks calls) :
    ∃ heap', runCalls list heap calls = some heap' ∧
        Tracks list heap' (calls.foldl Call.track blocks) := by
  induction calls generalizing heap blocks with
  | nil => exact ⟨heap, rfl, tracks⟩
  | cons call calls ih =>
    obtain ⟨here, later⟩ := allowed
    obtain ⟨heap₁, one, tracked⟩ := call_tracks tracks here
    obtain ⟨heap₂, rest, final⟩ := ih tracked later
    refine ⟨heap₂, ?_, final⟩
    simp only [runCalls, List.foldlM_cons, one, Option.bind_eq_bind, Option.bind_some]
    exact rest

theorem init_tracks (quiet : heap.live = []) (header : (list, 8) ∈ heap.objects) :
    ∃ heap', alistInit list heap = some heap' ∧ Tracks list heap' [] := by
  have within : heap.Within list 8 :=
    ⟨(list, 8), List.mem_append_right _ header, Nat.le_refl _, Nat.le_refl _⟩
  refine ⟨_, Heap.writeWord_eq 0 within, quiet, header, ?_, List.Pairwise.nil, by simp, by simp⟩
  exact load_store _ _ (by decide)

end Steps

theorem linkOffset_exact {n offset : BitVec 64} (served : linkOffset n = some offset) :
    offset.toNat = (n.toNat + 9) / 8 * 8 ∧ offset.toNat + 16 < 2 ^ 64 := by
  rw [linkOffset_eq] at served
  split at served
  · rename_i fits
    unfold Fits at fits
    cases served
    rw [BitVec.toNat_ofNat, Nat.mod_eq_of_lt (by omega)]
    exact ⟨rfl, fits⟩
  · cases served

/-- In every run of allowed calls the chain has just the blocks handed out and not freed, newest first;
    a block is freed alone, all of them are freed together, and no call goes outside of what is alive. -/
theorem alist_tracks (list : Nat) (heap₀ : Heap) (quiet : heap₀.live = [])
    (header : (list, 8) ∈ heap₀.objects)
    (calls : List Call) (allowed : AllowedRun list [] calls) :
    ∃ heap blocks, (alistInit list heap₀).bind (fun heap => runCalls list heap calls) = some heap ∧
      blocks = calls.foldl Call.track [] ∧ Tracks list heap blocks ∧
      (∀ block ∈ blocks, block.asked + 2 ≤ block.offset ∧ block.base + block.offset + 16 ≤ 2 ^ 64) ∧
      (∀ n offset, linkOffset n = some offset →
        offset.toNat = (n.toNat + 9) / 8 * 8 ∧ offset.toNat + 16 < 2 ^ 64) ∧
      (∀ p ≠ 0, (∀ block ∈ blocks, block.base ≠ p) → alistDealloc list heap p = some heap) ∧
      (∀ p, (∃ block ∈ blocks, block.base = p) → ∃ heap', alistDealloc list heap p = some heap' ∧
        Tracks list heap' (blocks.eraseP (·.base = p)) ∧ UsersKept heap.mem heap'.mem blocks) ∧
      (∃ heap', alistDealloc list heap 0 = some heap' ∧ alistUninit list heap = some heap' ∧
        Tracks list heap' [] ∧ heap'.live = []) := by
  obtain ⟨heap₁, started, empty⟩ := init_tracks quiet header
  obtain ⟨heap, run, tracks⟩ := run_tracks empty allowed
  refine ⟨heap, _, by rw [started]; exact run, rfl, tracks, ?_, ?_, ?_, ?_, ?_⟩
  · intro block member
    exact ⟨block.asked_le, (tracks.space block member).2⟩
  · intro n offset served
    exact linkOffset_exact served
  · intro p real absent
    exact dealloc_untracked tracks real absent
  · intro p tracked
    exact dealloc_tracked tracks tracked
  · obtain ⟨heap', freed, none_⟩ := dealloc_null tracks
    exact ⟨heap', freed, freed, none_, none_.live⟩

theorem two_blocks_tracked :
    ∃ heap blocks,
      (alistInit 64 ⟨fun _ => 0, [], [(64, 8)]⟩).bind (fun heap => runCalls 64 heap
        [.malloc 5 (some (4096, fun _ => 7)), .strdup (some [0x61]) (some (8192, fun _ => 7)),
          .user 4100 0x62, .dealloc 4096]) = some heap ∧
      blocks = [⟨8192, 2⟩] ∧ Tracks 64 heap blocks := by
  have allowed : AllowedRun 64 [] [.malloc 5 (some (4096, fun _ => 7)),
      .strdup (some [0x61]) (some (8192, fun _ => 7)), .user 4100 0x62, .dealloc 4096] := by
    refine ⟨?_, ?_, ?_, trivial, trivial⟩
    · rintro p junk ⟨rfl, rfl⟩ _
      simp [Apart, Block.region, Block.offset]
    · rintro p junk ⟨rfl, rfl⟩ _
      simp [Call.track, allocated, Fits, Apart, Block.region, Block.offset]
    · exact ⟨⟨4096, 5⟩, by simp [Call.track, allocated, Fits], by decide, by decide⟩
  obtain ⟨heap, blocks, run, tracked, tracks, _⟩ :=
    alist_tracks 64 ⟨fun _ => 0, [], [(64, 8)]⟩ rfl (by simp) _ allowed
  refine ⟨heap, blocks, run, ?_, tracks⟩
  rw [tracked]
  simp [Call.track, allocated, Fits]

end Alist
