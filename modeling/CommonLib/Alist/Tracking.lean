import CommonLib.Alist.Dealloc

/- What every operation does to the blocks that a list tracks, and runs of operations. -/
namespace Alist
open Memory

section Steps
variable {list : Nat} {heap : Heap} {blocks : List Block}

theorem Tracks.cell (tracks : Tracks list heap blocks) : heap.Within list 8 :=
  ⟨(list, 8), List.mem_append_right _ tracks.header, Nat.le_refl _, Nat.le_refl _⟩

theorem Tracks.block_live (tracks : Tracks list heap blocks) :
    ∀ block ∈ blocks, block.region ∈ heap.live := by
  intro block member
  rw [tracks.live]
  exact List.mem_map_of_mem member

theorem Tracks.length_live (tracks : Tracks list heap blocks) :
    heap.live.length = blocks.length := by
  rw [tracks.live, List.length_map]

theorem Tracks.apart_of_ne (tracks : Tracks list heap blocks) {b c : Block} (hb : b ∈ blocks)
    (hc : c ∈ blocks) (different : b ≠ c) : Apart b.region c.region := by
  have symmetric : Std.Symm fun b c : Block => Apart b.region c.region := ⟨fun _ _ => Apart.symm⟩
  exact tracks.apart.forall hb hc different

theorem live_erase (p : Nat) (blocks : List Block) :
    (blocks.map Block.region).eraseP (·.1 = p) = (blocks.eraseP (·.base = p)).map Block.region := by
  rw [List.eraseP_map]
  rfl

/-! ### Freeing -/

def UsersKept (mem mem' : Mem) (blocks : List Block) : Prop :=
  ∀ block ∈ blocks, ∀ i < block.asked, mem' (block.base + i) = mem (block.base + i)

theorem dealloc_tracked {p : Nat} (tracks : Tracks list heap blocks)
    (tracked : ∃ block ∈ blocks, block.base = p) :
    ∃ heap', alistDealloc list heap p = some heap' ∧
      Tracks list heap' (blocks.eraseP (·.base = p)) ∧ UsersKept heap.mem heap'.mem blocks := by
  have enough : blocks.length < heap.live.length + 1 := by
    rw [tracks.length_live]
    omega
  obtain ⟨mem, run, chain, frame⟩ := deallocFrom_tracked tracks.cell tracks.chain tracks.block_live
    tracks.apart tracks.beside tracked enough
  have real : p ≠ 0 := by
    obtain ⟨block, member, rfl⟩ := tracked
    have low := (tracks.space block member).1
    omega
  have fewer := List.eraseP_subset (l := blocks) (p := fun b => decide (b.base = p))
  refine ⟨_, (if_pos real).trans run, ⟨?_, tracks.header, chain, ?_, ?_, ?_⟩, ?_⟩
  · simp only [tracks.live]
    exact live_erase p blocks
  · exact tracks.apart.sublist List.eraseP_sublist
  · exact fun block member => tracks.beside block (fewer member)
  · exact fun block member => tracks.space block (fewer member)
  · intro block member i inside
    have room := block.asked_le
    have clear := tracks.beside block member
    simp only [Apart, Block.region] at clear
    refine frame _ (by unfold Outside; omega) fun other member' => ?_
    by_cases same : other = block
    · rw [same]
      unfold Outside Block.link
      omega
    · have far := tracks.apart_of_ne member' member same
      have space := other.asked_le
      simp only [Apart, Block.region] at far
      unfold Outside Block.link
      omega

theorem dealloc_untracked {p : Nat} (tracks : Tracks list heap blocks) (real : p ≠ 0)
    (absent : ∀ block ∈ blocks, block.base ≠ p) : alistDealloc list heap p = some heap := by
  have enough : blocks.length < heap.live.length + 1 := by
    rw [tracks.length_live]
    omega
  rw [alistDealloc, if_pos real]
  exact deallocFrom_untracked tracks.cell tracks.chain tracks.block_live absent enough

theorem tracks_pop {block : Block} (tracks : Tracks list heap (block :: blocks)) :
    Tracks list ⟨store heap.mem list 8 (load heap.mem block.link 8),
      heap.live.eraseP (·.1 = block.base),
      heap.objects⟩ blocks := by
  obtain ⟨live, header, ⟨_, _, _, rest⟩, apart, beside, space⟩ := tracks
  refine ⟨?_, header, ?_, (List.pairwise_cons.mp apart).2,
    fun b member => beside b (by simp [member]),
    fun b member => space b (by simp [member])⟩
  · simp only [live]
    rw [live_erase, List.eraseP_cons_of_pos (by simp)]
  · rw [load_store _ _ (load_lt _ _ 8)]
    refine rest.congr fun other member a low high => store_outside _ _ ?_
    have clear := beside other (by simp [member])
    have room := other.asked_le
    simp only [Apart, Block.region] at clear
    simp only [Outside, Block.link] at low high ⊢
    omega

/-- Freeing everything frees each block, and the chain is empty. -/
theorem deallocAll_tracks {fuel : Nat} (tracks : Tracks list heap blocks)
    (enough : blocks.length < fuel) :
    ∃ heap', deallocAll list fuel heap = some heap' ∧ Tracks list heap' [] := by
  induction blocks generalizing heap fuel with
  | nil =>
    cases fuel with
    | zero => simp at enough
    | succ fuel =>
      have last : load heap.mem list 8 = 0 := tracks.chain
      refine ⟨heap, ?_, tracks⟩
      rw [deallocAll]
      simp [Heap.read_eq tracks.cell, last]
  | cons block blocks ih =>
    cases fuel with
    | zero => simp at enough
    | succ fuel =>
      obtain ⟨heap', run, final⟩ := ih (tracks_pop tracks) (by simpa using enough)
      refine ⟨heap', ?_, final⟩
      obtain ⟨node, canary, size, _⟩ := tracks.chain
      have here := tracks.block_live block (by simp)
      obtain ⟨before, link, behind⟩ := block_words here
      have low := block.link_pos
      have positive : block.link ≠ 0 := by omega
      have start : block.link - block.offset = block.base := by
        unfold Block.link
        omega
      have clear := tracks.beside block (by simp)
      have room := block.asked_le
      have sizeKept : load (store heap.mem list 8 (load heap.mem block.link 8)) (block.link + 8) 8 =
          block.offset := by
        rw [load_store_apart _ _
          (by simp only [Apart, Block.region] at clear; unfold Block.link; omega)]
        exact size
      -- the same blocks are alive once the list leads to the next one
      let popped : Heap := ⟨store heap.mem list 8 (load heap.mem block.link 8), heap.live,
        heap.objects⟩
      have within : popped.Within (block.link + 8) 8 := Heap.within_mem behind _
      have sizeRead : popped.read (block.link + 8) 8 = some block.offset := by
        rw [Heap.read_eq within, sizeKept]
      have freed : popped.free block.base =
          some ⟨popped.mem, heap.live.eraseP (·.1 = block.base), heap.objects⟩ := Heap.free_eq here
      rw [deallocAll]
      simp only [Heap.read_eq tracks.cell, node, if_neg positive, Heap.read_eq before,
        canary, ne_eq,
        not_true_eq_false, if_false, Heap.read_eq link, Heap.writeWord_eq _ tracks.cell,
        Option.bind_eq_bind, Option.bind_some]
      rw [sizeRead, Option.bind_some, start, freed]
      exact run

theorem dealloc_null (tracks : Tracks list heap blocks) :
    ∃ heap', alistDealloc list heap 0 = some heap' ∧ Tracks list heap' [] := by
  rw [alistDealloc, if_neg (by simp)]
  exact deallocAll_tracks tracks (by rw [tracks.length_live]; omega)

/-! ### Storing the users' bytes -/

theorem user_tracks (addr : Nat) (bytes : List (BitVec 8)) {block : Block}
    (tracks : Tracks list heap blocks)
    (member : block ∈ blocks) (low : block.base ≤ addr)
    (high : addr + bytes.length ≤ block.base + block.asked) :
    ∃ heap', heap.write addr bytes = some heap' ∧ Tracks list heap' blocks := by
  have room := block.asked_le
  have within : heap.Within addr bytes.length :=
    Heap.within_live (tracks.block_live block member) low (by omega)
  have clear := tracks.beside block member
  simp only [Apart, Block.region] at clear
  have header : load (put heap.mem addr bytes) list 8 = load heap.mem list 8 :=
    load_put_apart _ (by omega)
  refine ⟨_, Heap.write_eq within, tracks.live, tracks.header, ?_, tracks.apart, tracks.beside,
    tracks.space⟩
  rw [header]
  refine tracks.chain.congr fun other member' a above below => put_outside _ ?_
  by_cases same : other = block
  · subst same
    unfold Block.link at above
    unfold Outside
    omega
  · have far := tracks.apart_of_ne member' member same
    have space := other.asked_le
    simp only [Apart, Block.region] at far
    unfold Block.link at above below
    unfold Outside
    omega

/-! ### Allocating -/

def Fresh (list : Nat) (blocks : List Block) (n : Nat) (answer : Answer) : Prop :=
  ∀ p junk, answer = some (p, junk) → Fits n →
    0 < p ∧ p + Block.offset ⟨p, n⟩ + 16 ≤ 2 ^ 64 ∧ Apart (list, 8) (Block.region ⟨p, n⟩) ∧
      ∀ block ∈ blocks, Apart (Block.region ⟨p, n⟩) block.region

def allocated (n : Nat) (answer : Answer) (blocks : List Block) : List Block :=
  match answer with
  | none => blocks
  | some (p, _) => if Fits n then ⟨p, n⟩ :: blocks else blocks

def linked (mem : Mem) (list node : Nat) (block : Block) : Mem :=
  store (store (store (store mem (block.link - 2) 2 soapCanary) block.link 8 node)
    (block.link + 8) 8
    block.offset) list 8 block.link

theorem linked_outside {mem : Mem} {node a : Nat} {block : Block} (aside : Outside list 8 a)
    (outside : Outside block.base (block.offset + 16) a) :
        linked mem list node block a = mem a := by
  have room := block.asked_le
  have high : block.link = block.base + block.offset := rfl
  unfold Outside at outside
  rw [linked, store_outside _ _ aside, store_outside _ _ (by unfold Outside; omega),
    store_outside _ _ (by unfold Outside; omega), store_outside _ _ (by unfold Outside; omega)]

theorem link_tracks {block : Block} {found : Mem} (tracks : Tracks list heap blocks)
    (space : 0 < block.base ∧ block.base + block.offset + 16 ≤ 2 ^ 64)
    (beside : Apart (list, 8) block.region)
    (apart : ∀ other ∈ blocks, Apart block.region other.region)
    (same : ∀ a, Outside block.base (block.offset + 16) a → found a = heap.mem a) :
    Tracks list ⟨linked found list (load heap.mem list 8) block, block.region :: heap.live,
      heap.objects⟩
      (block :: blocks) := by
  have room := block.asked_le
  have high : block.link = block.base + block.offset := rfl
  simp only [Apart, Block.region] at beside
  have kept : ∀ other ∈ blocks, ∀ a, other.link - 2 ≤ a → a < other.link + 16 →
      linked found list (load heap.mem list 8) block a = heap.mem a := by
    intro other member a above below
    have clear := tracks.beside other member
    have far := apart other member
    have roomy := other.asked_le
    simp only [Apart, Block.region] at clear far
    unfold Block.link at above below
    have outside : Outside block.base (block.offset + 16) a := by unfold Outside; omega
    rw [linked_outside (by unfold Outside; omega) outside]
    exact same a outside
  constructor
  · simp only [tracks.live, List.map_cons]
  · exact tracks.header
  · have leads : load (linked found list (load heap.mem list 8) block) list 8 = block.link :=
      load_store _ _ (show block.link < 256 ^ 8 by omega)
    have canary : load (linked found list (load heap.mem list 8) block) (block.link - 2) 2 =
        soapCanary := by
      rw [linked, load_store_apart _ _ (by omega), load_store_apart _ _ (by omega),
        load_store_apart _ _ (by omega), load_store _ _ (by decide)]
    have size : load (linked found list (load heap.mem list 8) block) (block.link + 8) 8 =
        block.offset := by
      rw [linked, load_store_apart _ _
        (by omega), load_store _ _ (show block.offset < 256 ^ 8 by omega)]
    have next : load (linked found list (load heap.mem list 8) block) block.link 8 =
        load heap.mem list 8 := by
      rw [linked, load_store_apart _ _ (by omega), load_store_apart _ _ (by omega),
        load_store _ _ (load_lt heap.mem list 8)]
    refine ⟨leads, canary, size, ?_⟩
    rw [next]
    exact tracks.chain.congr kept
  · exact List.pairwise_cons.mpr ⟨apart, tracks.apart⟩
  · intro other member
    rcases List.mem_cons.mp member with rfl | member
    · exact beside
    · exact tracks.beside other member
  · intro other member
    rcases List.mem_cons.mp member with rfl | member
    · exact space
    · exact tracks.space other member

theorem found_outside {block : Block} (junk : Mem) {a : Nat}
    (outside : Outside block.base (block.offset + 16) a) :
    (heap.malloc block.base (block.offset + 16) junk).mem a = heap.mem a := by
  refine if_neg fun inside => ?_
  unfold Outside at outside
  omega

theorem link_run {block : Block} {found : Heap} {node : Nat} (live : block.region ∈ found.live)
    (header : found.Within list 8) (memlist :
    load (store found.mem (block.link - 2) 2 soapCanary) list 8 = node) :
    (do
      let heap ← found.writeWord (block.link - 2) 2 soapCanary
      let memlist ← heap.read list 8
      let heap ← heap.writeWord block.link 8 memlist
      let heap ← heap.writeWord (block.link + 8) 8 block.offset
      let heap ← heap.writeWord list 8 block.link
      return (heap, block.base)) =
    some (⟨linked found.mem list node block, found.live, found.objects⟩, block.base) := by
  obtain ⟨before, here, behind⟩ := block_words live
  have read : ∀ mem, Heap.read ⟨mem, found.live, found.objects⟩ list 8 = some (load mem list 8) :=
    fun mem => Heap.read_eq (Heap.within_mem header mem)
  have writeLink : ∀ mem value, Heap.writeWord ⟨mem, found.live, found.objects⟩ block.link 8 value =
      some ⟨store mem block.link 8 value, found.live, found.objects⟩ :=
    fun mem value => Heap.writeWord_eq value (Heap.within_mem here mem)
  have writeSize : ∀ mem value, Heap.writeWord ⟨mem, found.live,
    found.objects⟩ (block.link + 8) 8 value =
      some ⟨store mem (block.link + 8) 8 value, found.live, found.objects⟩ :=
    fun mem value => Heap.writeWord_eq value (Heap.within_mem behind mem)
  have writeList : ∀ mem value, Heap.writeWord ⟨mem, found.live, found.objects⟩ list 8 value =
      some ⟨store mem list 8 value, found.live, found.objects⟩ :=
    fun mem value => Heap.writeWord_eq value (Heap.within_mem header mem)
  simp only [Heap.writeWord_eq _ before, read, memlist, writeLink, writeSize, writeList,
    Option.bind_eq_bind, Option.bind_some, Option.pure_def, linked]

theorem malloc_run (block : Block) (junk : Mem) {n : BitVec 64} (tracks : Tracks list heap blocks)
    (asked : n.toNat = block.asked) (fits : Fits n.toNat) (beside : Apart (list, 8) block.region) :
    alistMalloc list heap n (some (block.base, junk)) =
      some (⟨linked (heap.malloc block.base (block.offset + 16) junk).mem list
        (load heap.mem list 8) block,
        block.region :: heap.live, heap.objects⟩, block.base) := by
  have room := block.asked_le
  have link : block.base + block.offset = block.link := rfl
  have small := fits
  unfold Fits at small
  have rounded : block.offset = (n.toNat + 9) / 8 * 8 := by rw [asked]; rfl
  have offset : (BitVec.ofNat 64 ((n.toNat + 9) / 8 * 8)).toNat = block.offset := by
    rw [BitVec.toNat_ofNat, Nat.mod_eq_of_lt (by omega), rounded]
  have total : (BitVec.ofNat 64 ((n.toNat + 9) / 8 * 8) + 8 + 8).toNat = block.offset + 16 := by
    rw [BitVec.toNat_add, BitVec.toNat_add, offset]
    simp
    omega
  have memlist : load (store (heap.malloc block.base (block.offset + 16) junk).mem
    (block.link - 2) 2
      soapCanary) list 8 = load heap.mem list 8 := by
    simp only [Apart, Block.region] at beside
    refine load_congr fun a above below => ?_
    rw [store_outside _ _ (by unfold Outside; omega)]
    exact found_outside junk (by unfold Outside; omega)
  have header : (heap.malloc block.base (block.offset + 16) junk).Within list 8 :=
    ⟨(list, 8), List.mem_append_right _ tracks.header, Nat.le_refl _, Nat.le_refl _⟩
  rw [alistMalloc, linkOffset_eq, if_pos fits]
  simp only [total, offset, link]
  exact link_run List.mem_cons_self header memlist

/-- `alist_malloc` puts the block in front of the list, or changes nothing and returns a null pointer. -/
theorem malloc_tracks {n : BitVec 64} {answer : Answer} (tracks : Tracks list heap blocks)
    (fresh : Fresh list blocks n.toNat answer) :
    ∃ heap' p, alistMalloc list heap n answer = some (heap', p) ∧
      Tracks list heap' (allocated n.toNat answer blocks) ∧
      (p = 0 ∧ heap' = heap ∧ allocated n.toNat answer blocks = blocks ∨
        p ≠ 0 ∧ allocated n.toNat answer blocks = ⟨p, n.toNat⟩ :: blocks) := by
  by_cases fits : Fits n.toNat
  · cases answer with
    | none =>
      rw [alistMalloc, linkOffset_eq, if_pos fits]
      exact ⟨heap, 0, rfl, tracks, Or.inl ⟨rfl, rfl, rfl⟩⟩
    | some answer =>
      obtain ⟨p, junk⟩ := answer
      obtain ⟨low, high, beside, apart⟩ := fresh p junk rfl fits
      have run := malloc_run ⟨p, n.toNat⟩ junk tracks rfl fits beside
      have tracked := link_tracks tracks ⟨low, high⟩ beside apart fun a => found_outside junk
      have first : allocated n.toNat (some (p, junk)) blocks = ⟨p, n.toNat⟩ :: blocks := if_pos fits
      rw [first]
      exact ⟨_, p, run, tracked, Or.inr ⟨by omega, rfl⟩⟩
  · have refused : allocated n.toNat answer blocks = blocks := by
      cases answer with
      | none => rfl
      | some answer => exact if_neg fits
    rw [alistMalloc, linkOffset_eq, if_neg fits, refused]
    exact ⟨heap, 0, rfl, tracks, Or.inl ⟨rfl, rfl, rfl⟩⟩

end Steps
end Alist
