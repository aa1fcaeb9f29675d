import CommonLib.Alist.Runs

/- `echo_alist`: it takes the chain apart that it lists. -/
namespace Alist
open Memory

def echoLoop (list : Nat) : Nat → Heap → Option (Heap × List Nat)
  | 0, _ => none
  | fuel + 1, heap => do
    let p ← heap.read list 8
    if p = 0 then return (heap, [])
    else
      let canary ← heap.read (p - 2) 2
      if canary ≠ soapCanary then return (heap, [])
      else
        let next ← heap.read p 8
        let heap ← heap.writeWord list 8 next
        let size ← heap.read (p + 8) 8
        let (heap, printed) ← echoLoop list fuel heap
        return (heap, (p - size) :: printed)

/-- `echo_alist`, and the lines of its listing. A run that lasts longer than there are blocks is
    `none`. -/
def echoAlist (list : Nat) (heap : Heap) : Option (Heap × List Nat) :=
  echoLoop list (heap.live.length + 1) heap

inductive Step where
  | call (made : Call)
  | echo

def Step.Allowed (list : Nat) (blocks : List Block) : Step → Prop
  | .call made => made.Allowed list blocks
  | .echo => True

def Step.track (blocks : List Block) : Step → List Block
  | .call made => made.track blocks
  | .echo => blocks

def AllowedSteps (list : Nat) : List Block → List Step → Prop
  | _, [] => True
  | blocks, step :: steps => step.Allowed list blocks ∧ AllowedSteps list (step.track blocks) steps

/-- A listing reports: it shows each block once, the chain still has them all, and whatever is called
    next frees what it would have freed before. -/
structure Reported (list : Nat) (heap : Heap) (blocks : List Block) (heap' : Heap)
    (printed : List Nat) : Prop where
  visits : printed = blocks.map Block.base
  chain : Chain heap'.mem (load heap'.mem list 8) blocks
  frees : ∀ calls, (runCalls list heap' calls).map Heap.live =
    (runCalls list heap calls).map Heap.live

def AlwaysReports (list : Nat) : Heap → List Block → List Step → Prop
  | _, _, [] => True
  | heap, blocks, .call made :: steps =>
    ∃ heap', made.run list heap = some heap' ∧ AlwaysReports list heap' (made.track blocks) steps
  | heap, blocks, .echo :: steps =>
    ∃ heap' printed, echoAlist list heap = some (heap', printed) ∧
      Reported list heap blocks heap' printed ∧ AlwaysReports list heap' blocks steps

def NothingListed : List Block → List Step → Prop
  | _, [] => True
  | blocks, .call made :: steps => NothingListed (made.track blocks) steps
  | blocks, .echo :: steps => blocks = [] ∧ NothingListed blocks steps

section Listing
variable {list : Nat} {heap : Heap} {blocks : List Block}

theorem echoLoop_run {fuel : Nat} (cell : heap.Within list 8)
    (chain : Chain heap.mem (load heap.mem list 8) blocks)
    (live : ∀ block ∈ blocks, block.region ∈ heap.live)
    (beside : ∀ block ∈ blocks, Apart (list, 8) block.region) (enough : blocks.length < fuel) :
    ∃ mem, echoLoop list fuel heap =
        some (⟨mem, heap.live, heap.objects⟩, blocks.map Block.base) ∧
      load mem list 8 = 0 ∧ (blocks = [] → mem = heap.mem) := by
  induction blocks generalizing heap fuel with
  | nil =>
    cases fuel with
    | zero => simp at enough
    | succ fuel =>
      have last : load heap.mem list 8 = 0 := chain
      refine ⟨heap.mem, ?_, last, fun _ => rfl⟩
      rw [echoLoop]
      simp [Heap.read_eq cell, last]
  | cons block blocks ih =>
    cases fuel with
    | zero => simp at enough
    | succ fuel =>
      obtain ⟨node, canary, size, rest⟩ := chain
      obtain ⟨before, link, behind⟩ := block_words (live block (by simp))
      have low := block.link_pos
      have positive : block.link ≠ 0 := by omega
      have start : block.link - block.offset = block.base := by
        unfold Block.link
        omega
      have clear := beside block (by simp)
      have room := block.asked_le
      -- the list leads to the next block
      let popped : Heap := ⟨store heap.mem list 8 (load heap.mem block.link 8), heap.live,
        heap.objects⟩
      have leads : load popped.mem list 8 = load heap.mem block.link 8 :=
        load_store _ _ (load_lt _ _ 8)
      have sizeRead : popped.read (block.link + 8) 8 = some block.offset := by
        rw [Heap.read_eq (Heap.within_mem behind _), load_store_apart _ _
          (by simp only [Apart, Block.region] at clear; unfold Block.link; omega), size]
      have behindIt : Chain popped.mem (load popped.mem list 8) blocks := by
        rw [leads]
        refine rest.congr fun other member a above below => store_outside _ _ ?_
        have far := beside other (by simp [member])
        have space := other.asked_le
        simp only [Apart, Block.region] at far
        simp only [Outside, Block.link] at above below ⊢
        omega
      have cell' : popped.Within list 8 := Heap.within_mem cell _
      obtain ⟨mem, run, emptied, _⟩ := ih cell' behindIt
        (fun b member => live b (by simp [member])) (fun b member => beside b (by simp [member]))
        (by simpa using enough)
      refine ⟨mem, ?_, emptied, by simp⟩
      rw [echoLoop]
      simp only [Heap.read_eq cell, node, if_neg positive, Heap.read_eq before, canary, ne_eq,
        not_true_eq_false, if_false, Heap.read_eq link, Heap.writeWord_eq _ cell,
        Option.bind_eq_bind, Option.bind_some]
      rw [sizeRead, Option.bind_some, run, start]
      rfl

theorem echo_run (tracks : Tracks list heap blocks) :
    ∃ mem, echoAlist list heap =
        some (⟨mem, heap.live, heap.objects⟩, blocks.map Block.base) ∧
      load mem list 8 = 0 ∧ (blocks = [] → mem = heap.mem) :=
  echoLoop_run tracks.cell tracks.chain tracks.block_live tracks.beside
    (by rw [tracks.length_live]; omega)

theorem echo_nothing (tracks : Tracks list heap []) : echoAlist list heap = some (heap, []) := by
  obtain ⟨mem, run, _, same⟩ := echo_run tracks
  rw [same rfl] at run
  exact run

theorem reported_iff {heap' : Heap} {printed : List Nat} (tracks : Tracks list heap blocks)
    (run : echoAlist list heap = some (heap', printed)) :
    Reported list heap blocks heap' printed ↔ blocks = [] := by
  obtain ⟨mem, ran, emptied, _⟩ := echo_run tracks
  constructor
  · intro reported
    rw [run] at ran
    cases ran
    have chain := reported.chain
    rw [emptied] at chain
    cases blocks with
    | nil => rfl
    | cons block blocks =>
      have low := block.link_pos
      have leads : 0 = block.link := chain.1
      omega
  · intro nothing
    subst nothing
    rw [echo_nothing tracks] at run
    cases run
    exact ⟨rfl, tracks.chain, fun _ => rfl⟩

theorem echo_leaks (tracks : Tracks list heap blocks) :
    ∃ heap' printed, echoAlist list heap = some (heap', printed) ∧ heap'.live = heap.live ∧
      ∀ p, alistDealloc list heap' p = some heap' := by
  obtain ⟨mem, run, emptied, _⟩ := echo_run tracks
  refine ⟨_, _, run, rfl, fun p => ?_⟩
  have cell : Heap.Within ⟨mem, heap.live, heap.objects⟩ list 8 := Heap.within_mem tracks.cell _
  unfold alistDealloc
  split
  · have chain : Chain mem (load mem list 8) [] := emptied
    exact deallocFrom_untracked cell chain (by simp) (by simp) (by simp)
  · rw [deallocAll]
    simp [Heap.read_eq cell, emptied]

theorem alwaysReports_iff {steps : List Step} (tracks : Tracks list heap blocks)
    (allowed : AllowedSteps list blocks steps) :
    AlwaysReports list heap blocks steps ↔ NothingListed blocks steps := by
  induction steps generalizing heap blocks with
  | nil => exact Iff.rfl
  | cons step steps ih =>
    obtain ⟨here, later⟩ := allowed
    cases step with
    | call made =>
      obtain ⟨heap₁, run, tracked⟩ := call_tracks tracks here
      rw [AlwaysReports, NothingListed, ← ih tracked later]
      constructor
      · rintro ⟨heap', ran, reports⟩
        rw [run] at ran
        cases ran
        exact reports
      · intro reports
        exact ⟨heap₁, run, reports⟩
    | echo =>
      rw [AlwaysReports, NothingListed, ← ih tracks later]
      constructor
      · rintro ⟨heap', printed, run, reported, reports⟩
        have nothing := (reported_iff tracks run).mp reported
        subst nothing
        rw [echo_nothing tracks] at run
        cases run
        exact ⟨rfl, reports⟩
      · rintro ⟨nothing, reports⟩
        subst nothing
        have run := echo_nothing tracks
        exact ⟨heap, [], run, (reported_iff tracks run).mpr rfl, reports⟩

end Listing
/-- In every run from an empty list on, the listings only report if and only if each of them finds the
    list without a block. -/
theorem listings_report_iff (list : Nat) (heap₀ : Heap) (quiet : heap₀.live = [])
    (header : (list, 8) ∈ heap₀.objects) (steps : List Step) (allowed : AllowedSteps list [] steps) :
    ∃ heap, alistInit list heap₀ = some heap ∧
      (AlwaysReports list heap [] steps ↔ NothingListed [] steps) := by
  obtain ⟨heap, started, tracks⟩ := init_tracks quiet header
  exact ⟨heap, started, alwaysReports_iff tracks allowed⟩

def bare : Heap := ⟨fun _ => 0, [], [(64, 8)]⟩

theorem fresh_4096 (n : Nat) (small : n ≤ 1024) :
    Fresh 64 [] n (some (4096, fun _ => 7)) := by
  intro p junk answer _
  cases answer
  simp only [Block.offset, Apart, Block.region]
  refine ⟨by omega, by omega, by omega, by simp⟩

theorem listings_report_sample :
    ∃ heap, alistInit 64 bare = some heap ∧
      AlwaysReports 64 heap []
        [.echo, .call (.malloc 5 (some (4096, fun _ => 7))), .call (.dealloc 4096), .echo] := by
  obtain ⟨heap, started, reports⟩ := listings_report_iff 64 bare rfl List.mem_cons_self
    [.echo, .call (.malloc 5 (some (4096, fun _ => 7))), .call (.dealloc 4096), .echo]
    ⟨trivial, fresh_4096 5 (by decide), trivial, trivial, trivial⟩
  refine ⟨heap, started, reports.mpr ?_⟩
  simp [NothingListed, Call.track, allocated, Fits]

/-- A block is allocated and listed, as the test program does it. -/
theorem listed_block_lost :
    ¬ ∃ heap, alistInit 64 bare = some heap ∧
      AlwaysReports 64 heap [] [.call (.malloc 1024 (some (4096, fun _ => 7))), .echo] := by
  rintro ⟨heap, started, reports⟩
  have header : (64, 8) ∈ bare.objects := List.mem_cons_self
  obtain ⟨heap', again, tracks⟩ := init_tracks rfl header
  rw [started] at again
  cases again
  have allowed : AllowedSteps 64 [] [.call (.malloc 1024 (some (4096, fun _ => 7))), .echo] :=
    ⟨fresh_4096 1024 (by decide), trivial, trivial⟩
  have nothing := (alwaysReports_iff tracks allowed).mp reports
  simp [NothingListed, Call.track, allocated, Fits] at nothing

end Alist
