import CommonLib.Alist.Chain

/- Walks along the chain: a block is unlinked where its pointer was found. -/
namespace Alist
open Memory

section Walk
variable {heap : Heap} {p q fuel : Nat}

theorem block_words {block : Block} (live : block.region ∈ heap.live) :
    heap.Within (block.link - 2) 2 ∧ heap.Within block.link 8 ∧ heap.Within (block.link + 8) 8 := by
  have room := block.asked_le
  have link : block.link = block.base + block.offset := rfl
  have within : ∀ addr size, block.base ≤ addr → addr + size ≤ block.base + (block.offset + 16) →
      heap.Within addr size := fun addr size => Heap.within_live live
  exact ⟨within _ _ (by omega) (by omega), within _ _ (by omega) (by omega),
    within _ _ (by omega) (by omega)⟩

theorem deallocFrom_block {block : Block} (cell : heap.Within q 8) (live : block.region ∈ heap.live)
    (node : load heap.mem q 8 = block.link) (canary : load heap.mem (block.link - 2) 2 = soapCanary)
    (size : load heap.mem (block.link + 8) 8 = block.offset) :
    deallocFrom p (fuel + 1) heap q =
      if p = block.base then
        (heap.writeWord q 8 (load heap.mem block.link 8)).bind fun heap => heap.free p
      else deallocFrom p fuel heap block.link := by
  obtain ⟨before, here, behind⟩ := block_words live
  have positive : block.link ≠ 0 := by
    have low := block.link_pos
    omega
  have start : block.link - block.offset = block.base := by
    unfold Block.link
    omega
  rw [deallocFrom]
  simp only [Heap.read_eq cell, node, if_neg positive, Heap.read_eq before, canary, ne_eq,
    not_true_eq_false, if_false, Heap.read_eq behind, size, start, Heap.read_eq here,
    Option.bind_eq_bind, Option.bind_some]

/-- A pointer that is not tracked is looked for up to the end of the chain. -/
theorem deallocFrom_untracked {blocks : List Block} (cell : heap.Within q 8)
    (chain : Chain heap.mem (load heap.mem q 8) blocks)
    (live : ∀ block ∈ blocks, block.region ∈ heap.live)
    (absent : ∀ block ∈ blocks, block.base ≠ p) (enough : blocks.length < fuel) :
    deallocFrom p fuel heap q = some heap := by
  induction blocks generalizing q fuel with
  | nil =>
    cases fuel with
    | zero => simp at enough
    | succ fuel =>
      have last : load heap.mem q 8 = 0 := chain
      rw [deallocFrom]
      simp [Heap.read_eq cell, last]
  | cons block blocks ih =>
    cases fuel with
    | zero => simp at enough
    | succ fuel =>
      obtain ⟨node, canary, size, rest⟩ := chain
      have here := live block (by simp)
      have other : p ≠ block.base := fun same => absent block (by simp) same.symm
      rw [deallocFrom_block cell here node canary size, if_neg other]
      exact ih (block_words here).2.1 rest (fun b member => live b (by simp [member]))
        (fun b member => absent b (by simp [member])) (by simpa using enough)

/-- A pointer that is tracked is unlinked and freed. The memory changes in one link: of the cell where
    the walk started or of a block before it. -/
theorem deallocFrom_tracked {blocks : List Block} (cell : heap.Within q 8)
    (chain : Chain heap.mem (load heap.mem q 8) blocks)
    (live : ∀ block ∈ blocks, block.region ∈ heap.live)
    (apart : blocks.Pairwise fun b c => Apart b.region c.region)
    (beside : ∀ block ∈ blocks, Apart (q, 8) block.region)
    (tracked : ∃ block ∈ blocks, block.base = p) (enough : blocks.length < fuel) :
    ∃ mem, deallocFrom p fuel heap q = some ⟨mem, heap.live.eraseP (·.1 = p), heap.objects⟩ ∧
      Chain mem (load mem q 8) (blocks.eraseP (·.base = p)) ∧
      ∀ a, Outside q 8 a → (∀ block ∈ blocks, Outside block.link 8 a) → mem a = heap.mem a := by
  induction blocks generalizing q fuel with
  | nil => simp at tracked
  | cons block blocks ih =>
    cases fuel with
    | zero => simp at enough
    | succ fuel =>
      obtain ⟨node, canary, size, rest⟩ := chain
      obtain ⟨first, later⟩ := List.pairwise_cons.mp apart
      have here := live block (by simp)
      have room := block.asked_le
      have link : block.link = block.base + block.offset := rfl
      have aside : Apart (q, 8) block.region := beside block (by simp)
      simp only [Apart, Block.region] at first aside
      rw [deallocFrom_block cell here node canary size]
      by_cases found : p = block.base
      · -- the pointer to this block now leads to the next one
        rw [if_pos found, Heap.writeWord_eq _ cell, List.eraseP_cons_of_pos (by simp [found])]
        refine ⟨store heap.mem q 8 (load heap.mem block.link 8), ?_, ?_, ?_⟩
        · rw [Option.bind_some, found]
          exact Heap.free_eq here
        · rw [load_store _ _ (load_lt _ _ 8)]
          refine rest.congr fun other member a low high => store_outside _ _ ?_
          have clear := beside other (by simp [member])
          have space := other.asked_le
          simp only [Apart, Block.region] at clear
          simp only [Outside, Block.link] at low high ⊢
          omega
        · intro a outside _
          exact store_outside _ _ outside
      · -- the walk goes on from the link of this block
        rw [if_neg found, List.eraseP_cons_of_neg (by simpa using Ne.symm found)]
        have further : ∃ other ∈ blocks, other.base = p := by
          obtain ⟨other, member, same⟩ := tracked
          rcases List.mem_cons.mp member with rfl | member
          · exact absurd same.symm found
          · exact ⟨other, member, same⟩
        have clear : ∀ other ∈ blocks, Apart (block.link, 8) other.region := by
          intro other member
          have between := first other member
          simp only [Apart, Block.region]
          omega
        obtain ⟨mem, run, walked, frame⟩ := ih (block_words here).2.1 rest
          (fun b member => live b (by simp [member])) later clear further (by simpa using enough)
        have kept : ∀ a, Outside block.link 8 a →
          (∀ other ∈ blocks, Outside other.region.1 other.region.2 a) →
            mem a = heap.mem a := by
          intro a outside others
          refine frame a outside fun other member => ?_
          have far := others other member
          have space := other.asked_le
          simp only [Outside, Block.region, Block.link] at far ⊢
          omega
        have cellKept : load mem q 8 = load heap.mem q 8 := by
          refine load_congr fun a low high =>
            kept a (by unfold Outside; omega) fun other member => ?_
          have far := beside other (by simp [member])
          simp only [Apart, Block.region] at far
          simp only [Outside, Block.region]
          omega
        have ownKept : ∀ addr width, block.base ≤ addr →
          addr + width ≤ block.base + (block.offset + 16) →
            (addr + width ≤ block.link ∨ block.link + 8 ≤ addr) →
            load mem addr width = load heap.mem addr width := by
          intro addr width low high aside
          refine load_congr fun a above below =>
            kept a (by unfold Outside; omega) fun other member => ?_
          have far := first other member
          simp only [Outside, Block.region]
          omega
        refine ⟨mem, run, ⟨?_, ?_, ?_, walked⟩, ?_⟩
        · rw [cellKept, node]
        · rw [← canary]
          exact ownKept _ _ (by omega) (by omega) (by omega)
        · rw [← size]
          exact ownKept _ _ (by omega) (by omega) (by omega)
        · intro a _ outside
          exact frame a (outside block
            (by simp)) fun other member => outside other (by simp [member])

end Walk
end Alist
