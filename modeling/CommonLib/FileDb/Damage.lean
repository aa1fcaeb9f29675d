import CommonLib.FileDb.Image
import CommonLib.FileDb.Checker

/- When `db_search` returns on a file that need not be a database: the child offsets on the way
   down must not lead back, and what it reads of the blocks must lie inside the handle. -/
namespace FileDb
namespace Image
open Relation
variable {f : Image} {d : DbT} {rest : Nat → UInt8} {key : Bytes} {valueSize : Nat} {b c : Buffer}

/-! ### The rounds of the binary search -/

theorem keyBinarySearchLoop_ends (d : DbT) (m : Nat → UInt8) (target : Bytes) (fuel : Nat)
    (low high : Int)
    (pos : 0 < fuel) (enough : high + 1 - low < fuel) :
    keyBinarySearchLoop d m target fuel low high ≠ .error .fuel ∧
      keyBinarySearchLoop d m target fuel low high ≠ .error .value := by
  induction fuel generalizing low high with
  | zero => omega
  | succ fuel ih =>
    simp only [keyBinarySearchLoop]
    split
    · split
      · exact ⟨nofun, nofun⟩
      · split
        · exact ⟨nofun, nofun⟩
        · split
          · exact ih _ _ (by omega) (by omega)
          · exact ih _ _ (by omega) (by omega)
    · exact ⟨nofun, nofun⟩

theorem keyBinarySearch_ends (d : DbT) (m : Nat → UInt8) (num : Nat) (target : Bytes) :
    keyBinarySearch d m num target ≠ .error .fuel ∧
      keyBinarySearch d m num target ≠ .error .value := by
  refine keyBinarySearchLoop_ends d m target _ _ _ (Nat.succ_pos _) ?_
  have wrapped : ((num : Int) - 1).bmod (2 ^ 32) ≤ (num : Int) - 1 := by
    rw [Int.bmod_def]
    split
    · omega
    · omega
  omega

/-! ### One block -/

def stop (d : DbT) (rest : Nat → UInt8) (key : Bytes) (b : Buffer) : Result Int :=
  keyBinarySearch d (memory rest b) (b.word 8 8) key

def nextChild (d : DbT) (rest : Nat → UInt8) (key : Bytes) (b : Buffer) : Option Nat :=
  match stop d rest key b with
  | .error _ => none
  | .ok i =>
    if 0 ≤ i then none
    else match readWord (memory rest b) (slotPlace d (-(i + 1)).toNat + 8) with
      | .error _ => none
      | .ok offset => if offset = 0 then none else some offset

/-- A record has its size inside the handle, and all of its bytes if they are copied. -/
def RecordInside (m : Nat → UInt8) (p : Int) (valueSize : Nat) : Prop :=
  0 ≤ p ∧ p + valueHead ≤ handleSize ∧
    (leNat valueHead (bytesAt m p.toNat valueHead) ≤ valueSize →
      p.toNat + valueHead + leNat valueHead (bytesAt m p.toNat valueHead) ≤ handleSize)

/-- What a search reads of a block lies in the handle: the keys it compares, the word of the slot
    at which it stops, and the record that the slot of the key names. -/
structure Inside (f : Image) (d : DbT) (rest : Nat → UInt8) (key : Bytes) (valueSize : Nat)
    (b : Buffer) : Prop where
  compared : stop d rest key b ≠ .error .slot
  child : ∀ i, stop d rest key b = .ok i → i < 0 →
    slotPlace d (-(i + 1)).toNat + 16 ≤ handleSize
  value : ∀ i, stop d rest key b = .ok i → 0 ≤ i → slotPlace d i.toNat + 8 ≤ handleSize
  record : ∀ i offset, stop d rest key b = .ok i → 0 ≤ i →
    leNat 8 (bytesAt (memory rest b) (slotPlace d i.toNat) 8) = offset →
    RecordInside (memory rest (f.nodeSeek b (recordBlock offset)))
      (recordPlace (f.nodeSeek b (recordBlock offset)) offset) valueSize

theorem copyRecord_inside_iff {m : Nat → UInt8} {p : Int} :
    (∀ e, copyRecord m p valueSize ≠ .error e) ↔ RecordInside m p valueSize := by
  unfold copyRecord RecordInside
  constructor
  · intro sound
    split at sound
    · exact absurd rfl (sound .value)
    · rename_i near
      rw [not_or] at near
      refine ⟨by omega, by omega, ?_⟩
      intro room
      simp only at sound
      rw [if_neg (by omega)] at sound
      split at sound
      · exact absurd rfl (sound .value)
      · rename_i whole
        exact not_lt.mp whole
  · rintro ⟨low, high, whole⟩ e
    rw [if_neg (by omega)]
    simp only
    split
    · exact nofun
    · rename_i room
      rw [if_neg (not_lt.mpr (whole (not_lt.mp room)))]
      exact nofun

theorem readWord_ok {m : Nat → UInt8} {p : Nat} (inside : p + 8 ≤ handleSize) :
    readWord m p = .ok (leNat 8 (bytesAt m p 8)) := by
  rw [readWord, if_pos inside]

theorem readWord_error {m : Nat → UInt8} {p : Nat} (outside : ¬ p + 8 ≤ handleSize) :
    readWord m p = .error .slot := by
  rw [readWord, if_neg outside]

theorem searchRound_found {i : Int} (here : stop d rest key b = .ok i) (found : 0 ≤ i) :
    f.searchRound d rest key valueSize b =
      (readWord (memory rest b) (slotPlace d i.toNat)).bind fun offset =>
        (f.seekRecord rest valueSize b offset).map Sum.inl := by
  rw [stop] at here
  rw [searchRound, here, Except.bind]
  exact if_pos found

theorem searchRound_gap {i : Int} (here : stop d rest key b = .ok i) (gap : ¬ 0 ≤ i) :
    f.searchRound d rest key valueSize b =
      (readWord (memory rest b) (slotPlace d (-(i + 1)).toNat + 8)).map fun offset =>
        if offset = 0 then .inl (.error .ENOMSG) else .inr (f.nodeSeek b offset) := by
  rw [stop] at here
  rw [searchRound, here, Except.bind]
  exact if_neg gap

theorem searchRound_error {e : Fault} (here : stop d rest key b = .error e) :
    f.searchRound d rest key valueSize b = .error e := by
  rw [stop] at here
  rw [searchRound, here, Except.bind]

theorem leads_iff : Iteration.Leads (f.searchRound d rest key valueSize) b c ↔
    ∃ offset, nextChild d rest key b = some offset ∧ c = f.nodeSeek b offset := by
  unfold Iteration.Leads nextChild
  cases here : stop d rest key b with
  | error e =>
    rw [searchRound_error here]
    exact ⟨nofun, nofun⟩
  | ok i =>
    simp only
    by_cases found : 0 ≤ i
    · rw [if_pos found, searchRound_found here found]
      refine ⟨?_, nofun⟩
      intro goes
      cases word : readWord (memory rest b) (slotPlace d i.toNat) with
      | error e =>
        rw [word] at goes
        exact nomatch goes
      | ok offset =>
        rw [word, Except.bind] at goes
        cases record : f.seekRecord rest valueSize b offset with
        | error e =>
          rw [record] at goes
          exact nomatch goes
        | ok r =>
          rw [record] at goes
          exact nomatch goes
    · rw [if_neg found, searchRound_gap here found]
      cases word : readWord (memory rest b) (slotPlace d (-(i + 1)).toNat + 8) with
      | error e => exact ⟨nofun, nofun⟩
      | ok offset =>
        simp only [Except.map]
        split
        · exact ⟨nofun, nofun⟩
        · constructor
          · intro goes
            exact ⟨offset, rfl, (Sum.inr.inj (Except.ok.inj goes)).symm⟩
          · rintro ⟨o, same, rfl⟩
            rw [Option.some.inj same]

/-- A round is defined exactly if all that it reads lies in the handle. -/
theorem inside_iff :
    (∀ e, f.searchRound d rest key valueSize b ≠ .error e) ↔ f.Inside d rest key valueSize b := by
  constructor
  · intro sound
    have value : ∀ i, stop d rest key b = .ok i → 0 ≤ i →
        slotPlace d i.toNat + 8 ≤ handleSize := by
      intro i here found
      by_contra outside
      refine sound .slot ?_
      rw [searchRound_found here found, readWord_error outside]
      rfl
    refine ⟨?_, ?_, value, ?_⟩
    · intro past
      exact sound .slot (searchRound_error past)
    · intro i here gap
      by_contra outside
      refine sound .slot ?_
      rw [searchRound_gap here (not_le.mpr gap), readWord_error (by omega)]
      rfl
    · rintro i offset here found rfl
      refine copyRecord_inside_iff.mp ?_
      intro e fails
      refine sound e ?_
      have fails : f.seekRecord rest valueSize b
          (leNat 8 (bytesAt (memory rest b) (slotPlace d i.toNat) 8)) = .error e := fails
      rw [searchRound_found here found, readWord_ok (value i here found), Except.bind, fails]
      rfl
  · rintro ⟨compared, child, value, record⟩ e fails
    cases here : stop d rest key b with
    | error fault =>
      obtain rfl := Except.error.inj ((searchRound_error here).symm.trans fails)
      have ends := keyBinarySearch_ends d (memory rest b) (b.word 8 8) key
      cases fault with
      | slot => exact compared here
      | value => exact ends.2 here
      | fuel => exact ends.1 here
    | ok i =>
      by_cases found : 0 ≤ i
      · rw [searchRound_found here found, readWord_ok (value i here found), Except.bind] at fails
        have sound := copyRecord_inside_iff.mpr (record i _ here found rfl)
        cases copied : f.seekRecord rest valueSize b
            (leNat 8 (bytesAt (memory rest b) (slotPlace d i.toNat) 8)) with
        | error fault => exact sound fault copied
        | ok r =>
          rw [copied] at fails
          exact nomatch fails
      · rw [searchRound_gap here found, readWord_ok (child i here (not_le.mp found))] at fails
        exact nomatch fails

/-! ### The way down -/

instance : Finite Buffer :=
  have : Finite UInt8 := Finite.of_injective UInt8.toFin fun _ _ same => UInt8.toFin_inj.mp same
  inferInstanceAs (Finite (Fin blockSize → UInt8))

def Follows (f : Image) (d : DbT) (rest : Nat → UInt8) (key : Bytes) (b c : Buffer) : Prop :=
  ∃ offset, nextChild d rest key b = some offset ∧ c = f.nodeSeek b offset

/-- No block that the child offsets lead to from the root leads back to itself, and what is read
    of these blocks lies in the handle. -/
def Descends (f : Image) (d : DbT) (rest : Nat → UInt8) (key : Bytes) (valueSize : Nat) : Prop :=
  ∀ b, ReflTransGen (f.Follows d rest key) f.root b →
    ¬ TransGen (f.Follows d rest key) b b ∧ f.Inside d rest key valueSize b

def blockAt (f : Image) (x : Nat) : Buffer := f.nodeSeek (fun _ => 0) x

def ChildOf (f : Image) (d : DbT) (rest : Nat → UInt8) (key : Bytes) (x y : Nat) : Prop :=
  x + blockSize ≤ f.size ∧ nextChild d rest key (f.blockAt x) = some y

/-- No offset that the child offsets lead to from `DB_HEAD_SIZE` leads back to itself, each is
    that of a block of the file, and what is read of it lies in the handle. -/
def OffsetsDescend (f : Image) (d : DbT) (rest : Nat → UInt8) (key : Bytes) (valueSize : Nat) :
    Prop :=
  ∀ x, ReflTransGen (f.ChildOf d rest key) headSize x →
    x + blockSize ≤ f.size ∧ ¬ TransGen (f.ChildOf d rest key) x x ∧
      f.Inside d rest key valueSize (f.blockAt x)

/-- The end of the file does not cut a block that the child offsets lead to. -/
def Uncut (f : Image) (d : DbT) (rest : Nat → UInt8) (key : Bytes) : Prop :=
  ∀ x, ReflTransGen (f.ChildOf d rest key) headSize x → x + blockSize ≤ f.size ∨ f.size ≤ x

theorem returns_iff_descends :
    Iteration.Returns (f.searchRound d rest key valueSize) f.root ↔
      f.Descends d rest key valueSize := by
  have same : Iteration.Leads (f.searchRound d rest key valueSize) = f.Follows d rest key := by
    funext b c
    exact propext leads_iff
  rw [Iteration.returns_iff, same]
  simp only [inside_iff]
  exact Iff.rfl

theorem nodeSeek_whole {offset : Nat} (whole : offset + blockSize ≤ f.size) (b c : Buffer) :
    f.nodeSeek b offset = f.nodeSeek c offset := by
  funext j
  have within := j.isLt
  rw [nodeSeek, nodeSeek, if_pos (by omega), if_pos (by omega)]

theorem nodeSeek_past {offset : Nat} (past : f.size ≤ offset) (b : Buffer) :
    f.nodeSeek b offset = b := by
  funext j
  rw [nodeSeek, if_neg (by omega)]

theorem ChildOf.follows {x y : Nat} (step : f.ChildOf d rest key x y)
    (whole : y + blockSize ≤ f.size) : f.Follows d rest key (f.blockAt x) (f.blockAt y) :=
  ⟨y, step.2, nodeSeek_whole whole _ _⟩

theorem Descends.reaches (descends : f.Descends d rest key valueSize)
    (uncut : f.Uncut d rest key) (first : headSize + blockSize ≤ f.size) {x : Nat}
    (reach : ReflTransGen (f.ChildOf d rest key) headSize x) :
    x + blockSize ≤ f.size ∧ ReflTransGen (f.Follows d rest key) f.root (f.blockAt x) := by
  induction reach with
  | refl => exact ⟨first, .refl⟩
  | @tail x y reach step ih =>
    obtain ⟨whole, there⟩ := ih
    rcases uncut y (reach.tail step) with inside | past
    · exact ⟨inside, there.tail (step.follows inside)⟩
    · have stays : f.Follows d rest key (f.blockAt x) (f.blockAt x) :=
        ⟨y, step.2, (nodeSeek_past past _).symm⟩
      exact absurd (.single stays) (descends _ there).1

/-- The blocks that a search reads are those at the offsets. -/
theorem OffsetsDescend.reaches (descends : f.OffsetsDescend d rest key valueSize) {b : Buffer}
    (reach : ReflTransGen (f.Follows d rest key) f.root b) :
    ∃ x, ReflTransGen (f.ChildOf d rest key) headSize x ∧ f.blockAt x = b := by
  induction reach with
  | refl => exact ⟨headSize, .refl, rfl⟩
  | tail _ step ih =>
    obtain ⟨x, there, rfl⟩ := ih
    obtain ⟨y, next, rfl⟩ := step
    have after := there.tail ⟨(descends x there).1, next⟩
    exact ⟨y, after, nodeSeek_whole (descends y after).1 _ _⟩

theorem OffsetsDescend.leads (descends : f.OffsetsDescend d rest key valueSize) {x : Nat}
    (reach : ReflTransGen (f.ChildOf d rest key) headSize x) {c : Buffer}
    (way : ReflTransGen (f.Follows d rest key) (f.blockAt x) c) :
    ∃ y, ReflTransGen (f.ChildOf d rest key) x y ∧ f.blockAt y = c := by
  induction way with
  | refl => exact ⟨x, .refl, rfl⟩
  | tail _ step ih =>
    obtain ⟨y, there, rfl⟩ := ih
    obtain ⟨z, next, rfl⟩ := step
    have after := there.tail ⟨(descends y (reach.trans there)).1, next⟩
    exact ⟨z, after, nodeSeek_whole (descends z (reach.trans after)).1 _ _⟩

theorem OffsetsDescend.descends (descends : f.OffsetsDescend d rest key valueSize) :
    f.Descends d rest key valueSize := by
  intro b reach
  obtain ⟨x, there, rfl⟩ := descends.reaches reach
  refine ⟨?_, (descends x there).2.2⟩
  intro cycle
  obtain ⟨c, ⟨y, next, rfl⟩, back⟩ := TransGen.head'_iff.mp cycle
  have step : f.ChildOf d rest key x y := ⟨(descends x there).1, next⟩
  have after := there.tail step
  rw [nodeSeek_whole (descends y after).1 _ (fun _ => 0)] at back
  obtain ⟨z, way, same⟩ := descends.leads after back
  -- the offset at the end of the round has the same block, and so the same child
  have again : f.ChildOf d rest key z y := ⟨(descends z (after.trans way)).1, same ▸ next⟩
  exact (descends y after).2.1 (TransGen.tail' way again)

theorem offsetsDescend_iff (uncut : f.Uncut d rest key) (first : headSize + blockSize ≤ f.size) :
    f.OffsetsDescend d rest key valueSize ↔ f.Descends d rest key valueSize := by
  constructor
  · exact OffsetsDescend.descends
  · intro descends x reach
    obtain ⟨whole, there⟩ := descends.reaches uncut first reach
    refine ⟨whole, ?_, (descends _ there).2⟩
    intro cycle
    have up : ∀ y, TransGen (f.ChildOf d rest key) x y →
        TransGen (f.Follows d rest key) (f.blockAt x) (f.blockAt y) := by
      intro y way
      induction way with
      | single step =>
        exact .single (step.follows (descends.reaches uncut first (reach.tail step)).1)
      | tail way step ih =>
        have after := (reach.trans way.to_reflTransGen).tail step
        exact ih.tail (step.follows (descends.reaches uncut first after).1)
    exact (descends _ there).1 (up x cycle)

theorem first_block (opened : f.dbOpen = some d) : headSize + blockSize ≤ f.size := by
  by_contra small
  have refused : f.dbChecker f.head = -1 := by
    rw [dbChecker, if_pos (.inl (not_le.mp small))]
  rw [dbOpen, if_pos refused] at opened
  exact nomatch opened

theorem dbSearch_short (short : ¬ TooLong d key) (n : Nat) :
    f.dbSearch d rest key valueSize n =
      Iteration.loop (f.searchRound d rest key valueSize) n f.root :=
  if_neg short

/-- A search in a file that was accepted returns just when the child offsets on the key's way never
    lead back and what it reads of the blocks lies in the handle. Where the end of the file cuts no
    block on the way, these are offsets of whole blocks of the file. -/
theorem dbSearch_returns_iff (f : Image) (d : DbT) (opened : f.dbOpen = some d)
    (rest : Nat → UInt8) (key : Bytes) (valueSize : Nat) :
    ((∃ n r, f.dbSearch d rest key valueSize n = some (.ok r)) ↔
        TooLong d key ∨ f.Descends d rest key valueSize) ∧
      (f.Uncut d rest key →
        ((∃ n r, f.dbSearch d rest key valueSize n = some (.ok r)) ↔
          TooLong d key ∨ f.OffsetsDescend d rest key valueSize)) := by
  have main : (∃ n r, f.dbSearch d rest key valueSize n = some (.ok r)) ↔
      TooLong d key ∨ f.Descends d rest key valueSize := by
    by_cases long : TooLong d key
    · exact ⟨fun _ => .inl long, fun _ => ⟨0, .error .EINVAL, if_pos long⟩⟩
    · simp only [dbSearch_short long, long, false_or]
      exact returns_iff_descends
  refine ⟨main, ?_⟩
  intro uncut
  rw [offsetsDescend_iff uncut (first_block opened)]
  exact main

/-! ### A file that is accepted -/

def loopedByte (i : Nat) : UInt8 :=
  match i with
  | 4 => 1 | 8 => 4 | 16 => 32 | 24 => 254 | 40 => 1
  | 4097 => 16 | 4120 => 1 | 4137 => 16
  | _ => 0

def looped : Image := ⟨12288, loopedByte, by decide⟩

theorem memory_block {q n : Nat} (inside : q + n ≤ blockSize) :
    bytesAt (memory rest b) (headSize + q) n = b.bytes q n := by
  unfold bytesAt Buffer.bytes
  apply List.map_congr_left
  intro j low
  have low := List.mem_range.mp low
  rw [memory, if_pos (by omega), show headSize + q + j - headSize = q + j by omega]

theorem block_inside {q n : Nat} (inside : q + n ≤ blockSize) : headSize + q + n ≤ handleSize := by
  unfold handleSize
  omega

theorem readWord_slot {i : Nat} (fits : Fits d i) (align : keyHead ≤ d.keyAlign) :
    readWord (memory rest b) (slotPlace d i) = .ok ((readNode d b).slot i).value ∧
      readWord (memory rest b) (slotPlace d i + 8) = .ok ((readNode d b).slot i).child := by
  have room : nodeHead + d.keyAlign * i + 16 ≤ blockSize := by
    unfold Fits at fits
    rw [Nat.mul_succ] at fits
    unfold keyHead at align
    omega
  unfold slotPlace
  rw [Nat.add_assoc headSize, Nat.add_assoc headSize _ 8,
    readWord_ok (block_inside (by omega)), readWord_ok (block_inside (by omega)),
    memory_block (by omega), memory_block (by omega)]
  exact ⟨rfl, rfl⟩

theorem looped_round (rest : Nat → UInt8) (key : Bytes) (valueSize : Nat) :
    looped.searchRound looped.head rest key valueSize looped.root = .ok (.inr looped.root) := by
  have empty : looped.root.word 8 8 = 0 := by decide +kernel
  have here : stop looped.head rest key looped.root = .ok (-1) := by
    rw [stop, empty]
    rfl
  have fits : Fits looped.head 0 := by decide +kernel
  have child : ((readNode looped.head looped.root).slot 0).child = headSize := by decide +kernel
  have again : looped.nodeSeek looped.root headSize = looped.root :=
    nodeSeek_whole (by decide) _ _
  have word : readWord (memory rest looped.root) _ = _ :=
    (readWord_slot fits (by decide +kernel)).2
  rw [searchRound_gap here (by decide), show (-(-1 + 1 : Int)).toNat = 0 from rfl, word, child,
    Except.map, if_neg (by decide), again]

/-- The file is accepted, and no search in it ever returns. -/
theorem looped_never_returns : looped.dbOpen = some looped.head ∧
    ∀ rest key valueSize n, looped.dbSearch looped.head rest key valueSize n = none := by
  refine ⟨by decide +kernel, fun rest key valueSize n => ?_⟩
  have bytes : looped.head.keyType = .bytesKey := by decide +kernel
  rw [dbSearch_short (by simp [TooLong, bytes])]
  have start : Iteration.path (looped.searchRound looped.head rest key valueSize) 0 looped.root =
      some looped.root := rfl
  have back : Iteration.path (looped.searchRound looped.head rest key valueSize) 1 looped.root =
      some looped.root := by
    rw [Iteration.path_succ (looped_round rest key valueSize), Iteration.path]
  exact Iteration.never_of_cycle start Nat.one_pos back n

/-- One key of four bytes in the root, with a record of two bytes in the second block. -/
def oneKeyByte (i : Nat) : UInt8 :=
  match i with
  | 4 => 1 | 8 => 4 | 16 => 32 | 24 => 254 | 32 => 1 | 40 => 1 | 48 => 1 | 65 => 48
  | 4097 => 16 | 4104 => 1 | 4120 => 5 | 4128 => 32 | 4129 => 48
  | 4144 => 1 | 4145 => 2 | 4146 => 3 | 4147 => 4
  | 12289 => 48 | 12296 => 1 | 12312 => 131 | 12313 => 1 | 12320 => 2 | 12328 => 7 | 12329 => 8
  | _ => 0

def oneKey : Image := ⟨20480, oneKeyByte, by decide⟩

theorem dbSearch_returns_iff_sample : oneKey.dbOpen = some oneKey.head ∧
    (∃ n r, oneKey.dbSearch oneKey.head (fun _ => 0) [1, 2, 3, 4] 16 n = some (.ok r)) ∧
    oneKey.OffsetsDescend oneKey.head (fun _ => 0) [1, 2, 3, 4] 16 := by
  have opened : oneKey.dbOpen = some oneKey.head := by decide +kernel
  have ends : nextChild oneKey.head (fun _ => 0) [1, 2, 3, 4] (oneKey.blockAt headSize) = none := by
    decide +kernel
  have bytes : oneKey.head.keyType = .bytesKey := by decide +kernel
  have short : ¬ TooLong oneKey.head [1, 2, 3, 4] := by simp [TooLong, bytes]
  have uncut : oneKey.Uncut oneKey.head (fun _ => 0) [1, 2, 3, 4] := by
    intro x reach
    rcases ReflTransGen.cases_head reach with rfl | ⟨y, ⟨_, next⟩, _⟩
    · exact .inl (by decide)
    · exact absurd (next.symm.trans ends) (Option.some_ne_none _)
  have run : oneKey.dbSearch oneKey.head (fun _ => 0) [1, 2, 3, 4] 16 1 =
      some (.ok (.ok [7, 8])) := by
    decide +kernel
  obtain ⟨_, exact⟩ := dbSearch_returns_iff oneKey oneKey.head opened (fun _ => 0) [1, 2, 3, 4] 16
  have returns : ∃ n r, oneKey.dbSearch oneKey.head (fun _ => 0) [1, 2, 3, 4] 16 n = some (.ok r) :=
    ⟨1, .ok [7, 8], run⟩
  exact ⟨opened, returns, ((exact uncut).mp returns).resolve_left short⟩

/-! ### The files of databases -/

section Stands
open OrderedTree
variable {κ : Type} [LinearOrder κ] {p : Shape} {O : KeyOrder κ p.keyType p.keySize} {h a : Nat}
  {R V F : List Nat} {E : List Entry}

theorem view_seek {x : Nat} (mem : x ∈ offsets f.size) (b : Buffer) :
    readNode d (f.nodeSeek b x) = (f.view d).file.disk x :=
  congrArg (readNode d) (nodeSeek_whole (offsets_bounds mem).2 b _)

theorem record_block {o v : Nat} (mem : v ∈ offsets f.size) (block : blockOf o = v)
    (root : v ≠ headSize) :
    recordBlock o = v ∧ ((o : Int) - v).bmod sizeMod = (o - v : Nat) := by
  have bounds := offsets_bounds mem
  have size := f.bound
  simp only [blockOf, headSize, blockSize] at block root bounds
  constructor
  · simp only [recordBlock, headSize, blockSize, sizeMod]
    omega
  · rw [show (o : Int) - v = (o - v : Nat) by omega]
    apply Int.bmod_eq_of_le
    · simp only [sizeMod]
      omega
    · simp only [sizeMod]
      omega

theorem strncmpReads_le (a b : Bytes) (n : Nat) : strncmpReads a b n ≤ n := by
  induction n generalizing a b with
  | zero =>
    cases a with
    | nil => exact le_rfl
    | cons x as => cases b <;> exact le_rfl
  | succ n ih =>
    cases a with
    | nil => exact Nat.zero_le _
    | cons x as =>
      cases b with
      | nil => exact Nat.zero_le _
      | cons y bs =>
        simp only [strncmpReads]
        split
        · exact Nat.succ_le_succ (Nat.zero_le n)
        · exact Nat.succ_le_succ (ih as bs)

theorem keyReads_le (p : Shape) (target key : Bytes) :
    keyReads p.keyType target key p.keySize ≤ p.keyAlign - keyHead := by
  have bounds := p.size_bounds
  have align : p.keySize ≤ p.keyAlign - keyHead := by
    simp only [Shape.keyAlign, dbAlign, keyHead, alignment, sizeMod]
    omega
  refine le_trans ?_ align
  obtain ⟨t, n, valid⟩ := p
  cases t with
  | stringKey => exact strncmpReads_le target key n
  | bytesKey => exact le_rfl
  | int32Key =>
    simp [keySizeOk] at valid
    exact valid.ge
  | int64Key =>
    simp [keySizeOk] at valid
    exact valid.ge
  | other code => exact Nat.zero_le _

theorem align_room (has : d.Has p) : keyHead ≤ d.keyAlign := by
  have align := p.align_bounds.1
  rw [has.keyAlign]
  unfold keyHead
  omega

theorem slot_inside (has : d.Has p) {i : Nat} (fits : Fits d i) :
    slotPlace d i + keyHead + (d.keyAlign - keyHead) ≤ handleSize := by
  have align := align_room has
  have inside := block_inside (q := nodeHead + d.keyAlign * i) (n := d.keyAlign)
  unfold Fits at fits
  rw [Nat.mul_succ, ← Nat.add_assoc] at fits
  have inside := inside fits
  unfold slotPlace
  omega

theorem slot_key (has : d.Has p) {i : Nat} (fits : Fits d i) :
    bytesAt (memory rest b) (slotPlace d i + keyHead) (d.keyAlign - keyHead) =
      ((readNode d b).slot i).key := by
  have align := align_room has
  unfold Fits at fits
  rw [Nat.mul_succ] at fits
  unfold slotPlace
  rw [Nat.add_assoc headSize, Nat.add_assoc headSize, memory_block (by omega)]
  rfl

theorem search_block (has : d.Has p) (fuel : Nat) {low high : Int} (l0 : 0 ≤ low)
    (below : high < p.M) :
    keyBinarySearchLoop d (memory rest b) key fuel low high =
      FileDb.keyBinarySearchLoop d (readNode d b) key fuel low high := by
  induction fuel generalizing low high with
  | zero => rfl
  | succ fuel ih =>
    unfold keyBinarySearchLoop FileDb.keyBinarySearchLoop
    split
    · rename_i le
      obtain ⟨mid, middle⟩ : ∃ mid : Nat, low + (high - low) / 2 = mid :=
        ⟨(low + (high - low) / 2).toNat, by omega⟩
      have fits : Fits d mid := has.fits_slot (by omega)
      have same : bytesAt (memory rest b) _ _ = _ := slot_key has fits
      have reads : ¬ handleSize < slotPlace d mid + keyHead +
          keyReads d.keyType key ((readNode d b).slot mid).key d.keySize := by
        have few := keyReads_le p key ((readNode d b).slot mid).key
        rw [← has.keyType, ← has.keySize, ← has.keyAlign] at few
        have room := slot_inside has fits
        omega
      simp only [middle, Int.toNat_natCast, same, if_neg reads, slotAt_ok fits, bind, Except.bind,
        pure, Except.pure]
      split
      · rfl
      · split
        · exact ih (by omega) below
        · exact ih l0 (by omega)
    · rfl

theorem stop_block (has : d.Has p) (small : (readNode d b).num ≤ p.M) :
    stop d rest key b = FileDb.keyBinarySearch d (readNode d b) key := by
  have order := p.order.2
  have high : ((b.word 8 8 : Int) - 1).bmod (2 ^ 32) < p.M := by
    have small : b.word 8 8 ≤ p.M := small
    rw [Int.bmod_def]
    split
    · omega
    · omega
  exact search_block has _ le_rfl high

theorem seekRecord_block {o q : Nat} {node : BtreeNode}
    (block : readNode d (f.nodeSeek b (recordBlock o)) = node)
    (place : ((o : Int) - node.self).bmod sizeMod = q)
    (room : q + valueHead + readSize node q ≤ blockSize) :
    f.seekRecord rest valueSize b o =
      .ok (if valueSize < readSize node q then .error .E2BIG else .ok (readValue node q)) := by
  have size : leNat valueHead
      (bytesAt (memory rest (f.nodeSeek b (recordBlock o))) (headSize + q) valueHead) =
      readSize node q := by
    rw [memory_block (by omega), ← block]
    rfl
  have bytes : bytesAt (memory rest (f.nodeSeek b (recordBlock o))) (headSize + q + valueHead)
      (readSize node q) = readValue node q := by
    rw [Nat.add_assoc, memory_block (by omega), ← block]
    rfl
  have inside := block_inside room
  have at_q : recordPlace (f.nodeSeek b (recordBlock o)) o = (headSize + q : Nat) := by
    rw [recordPlace, show ((f.nodeSeek b (recordBlock o)).word 0 8) = node.self by rw [← block]; rfl,
      place]
    rfl
  have near : ¬ ((headSize + q : Nat) < (0 : Int) ∨
      (handleSize : Int) < (headSize + q : Nat) + valueHead) := by omega
  have whole : ¬ handleSize < headSize + q + valueHead + readSize node q := by omega
  rw [seekRecord, at_q, copyRecord, if_neg near, Int.toNat_natCast, size]
  simp only [bytes, if_neg whole]
  by_cases large : valueSize < readSize node q
  · rw [if_pos large, if_pos large]
  · rw [if_neg large, if_neg large]

theorem searchRound_record (t : TreeAt p (f.view d) h a R E V F) (root : headSize ∉ V) {i : Nat}
    (search : FileDb.keyBinarySearch d ((f.view d).file.disk a) key = .ok i)
    (hi : i < ((f.view d).file.disk a).num) (b : Buffer) {o : Nat}
    (value : (((f.view d).file.disk a).slot i).value = o) :
    f.searchRound d rest key valueSize (f.nodeSeek b a) =
      .ok (.inl (if valueSize < (valueAt (f.view d).file.disk o).length then .error .E2BIG
        else .ok (valueAt (f.view d).file.disk o))) := by
  have inTree : a ∈ blocks (f.view d).file.disk h a ++ R := by simp [blocks]
  have upper := t.num
  have has : d.Has p := t.part.has
  have fits : Fits d i := t.fits (show i ≤ p.M by omega)
  have mem : (((f.view d).file.disk a).slot i).entry ∈ flat (f.view d).file.disk h a ++ E :=
    List.mem_append_left E ((entries_sublist_flat h a).subset (mem_entries hi))
  have inV := t.values.block _ mem
  have inFile := t.part.value_mem inV
  have apart : blockOf (((f.view d).file.disk a).slot i).entry.2 ≠ headSize :=
    fun eq => root (eq ▸ inV)
  obtain ⟨_, self, room, size⟩ := readRecord t mem ((f.view d).file.disk a)
  obtain ⟨block, inside⟩ := record_block inFile rfl apart
  simp only [BtreeKey.entry, value] at self room size block inside inFile
  have node := view_seek (d := d) (t.block_mem inTree) b
  have here : stop d rest key (f.nodeSeek b a) = .ok (i : Int) := by
    rw [stop_block has (node ▸ upper), node]
    exact search
  have word : readWord (memory rest (f.nodeSeek b a)) _ = _ :=
    (readWord_slot fits (align_room has)).1
  rw [node, value] at word
  have seek : readNode d (f.nodeSeek (f.nodeSeek b a) (recordBlock o)) =
      (f.view d).file.disk (blockOf o) := by
    rw [block]
    exact view_seek inFile _
  have place : ((o : Int) - ((f.view d).file.disk (blockOf o)).self).bmod sizeMod =
      (o - blockOf o : Nat) := by
    rw [self]
    exact inside
  have record : f.seekRecord rest valueSize (f.nodeSeek b a) o = _ :=
    seekRecord_block seek place room
  rw [searchRound_found here (Int.natCast_nonneg i), Int.toNat_natCast, word, Except.bind, record,
    size]
  rfl

theorem searchRound_child (t : TreeAt p (f.view d) h a R E V F) {i : Nat}
    (search : FileDb.keyBinarySearch d ((f.view d).file.disk a) key = .ok (-(i : Int) - 1))
    (hi : i ≤ ((f.view d).file.disk a).num) (b : Buffer) {c : Nat}
    (child : (((f.view d).file.disk a).slot i).child = c) :
    f.searchRound d rest key valueSize (f.nodeSeek b a) =
      .ok (if c = 0 then .inl (.error .ENOMSG) else .inr (f.nodeSeek (f.nodeSeek b a) c)) := by
  have inTree : a ∈ blocks (f.view d).file.disk h a ++ R := by simp [blocks]
  have upper := t.num
  have has : d.Has p := t.part.has
  have fits : Fits d i := t.fits (show i ≤ p.M by omega)
  have node := view_seek (d := d) (t.block_mem inTree) b
  have here : stop d rest key (f.nodeSeek b a) = .ok (-(i : Int) - 1) := by
    rw [stop_block has (node ▸ upper), node]
    exact search
  have word : readWord (memory rest (f.nodeSeek b a)) _ = _ :=
    (readWord_slot fits (align_room has)).2
  rw [node, child] at word
  rw [searchRound_gap here (by omega), show (-(-(i : Int) - 1 + 1)).toNat = i by omega, word,
    Except.map]

theorem loop_view (h a : Nat) (R : List Nat) (E : List Entry) (t : TreeAt p (f.view d) h a R E V F)
    (root : headSize ∉ V) (sorted : Sorted O (flat (f.view d).file.disk h a)) (arg : O.arg key)
    (b : Buffer)
    (node : BtreeNode) :
    Iteration.loop (f.searchRound d rest key valueSize) (h + 1) (f.nodeSeek b a) =
      some (dbSearchLoop (f.view d) key valueSize (h + 1) node a) := by
  induction h generalizing a R E b node with
  | zero =>
    obtain ⟨r, search, ⟨i, hi, eq⟩ | ⟨i, hi, below, above⟩⟩ := t.search O sorted arg
    · rw [dbSearchLoop_record t 0 node search hi, Iteration.loop,
        searchRound_record t root search hi b rfl]
    · have zero : (((f.view d).file.disk a).slot i).child = 0 := t.children _ (mem_kids hi)
      rw [dbSearchLoop_gap t 0 node search hi, if_pos zero, Iteration.loop,
        searchRound_child t search hi b zero,
        if_pos rfl]
  | succ h ih =>
    obtain ⟨r, search, ⟨i, hi, eq⟩ | ⟨i, hi, below, above⟩⟩ := t.search O sorted arg
    · rw [dbSearchLoop_record t (h + 1) node search hi, Iteration.loop,
        searchRound_record t root search hi b rfl]
    · have t' := t.focus (.ofChild hi)
      rw [(Ctx.ofChild hi).flat] at sorted
      rw [dbSearchLoop_gap t (h + 1) node search hi, if_neg (t.child_ne hi), Iteration.loop,
        searchRound_child t search hi b rfl, if_neg (t.child_ne hi)]
      exact ih _ _ _ t' sorted.left.right (f.nodeSeek b a) ((f.view d).file.disk a)

theorem leNat_lt (n : Nat) (bytes : Bytes) : leNat n bytes < 256 ^ n := by
  induction n generalizing bytes with
  | zero => simp [leNat]
  | succ n ih =>
    cases bytes with
    | nil => simp [leNat]
    | cons c bytes =>
      have rest := ih bytes
      have first := c.toNat_lt
      simp only [leNat]
      omega

theorem dbChecker_view (ok : FileDb.dbChecker (f.view f.head) = 0) : f.dbChecker f.head = 0 := by
  have small : f.head.keyTotal < sizeMod := leNat_lt 8 _
  have file : (f.view f.head).file.size = f.size := rfl
  have db : (f.view f.head).db = f.head := rfl
  simp only [FileDb.dbChecker, file, db] at ok
  simp only [dbChecker]
  split at ok
  · exact absurd ok (by decide)
  next size =>
    rw [if_neg size]
    split at ok
    · exact absurd ok (by decide)
    next keySize =>
      rw [if_neg keySize]
      split at ok
      · exact absurd ok (by decide)
      next align =>
        rw [if_neg align]
        split at ok
        · exact absurd ok (by decide)
        next order =>
          rw [if_neg order]
          cases sums : checkBlocks (f.view f.head) (offsets f.size) {} with
          | none =>
            rw [sums] at ok
            exact absurd (show (-1 : Int) = 0 from ok) (by decide)
          | some t =>
            rw [sums] at ok
            simp only at ok ⊢
            split at ok
            · exact absurd ok (by decide)
            next totals =>
              simp only [not_or, not_not] at totals
              obtain ⟨values, total, keyUse, valueUse⟩ := totals
              rw [← values, total, Nat.mod_eq_of_lt small]
              simp [keyUse, valueUse]

/-- The file of a database that stands is opened, and its searches are those on the blocks. -/
theorem dbSearch_view (st : Stands O (f.view f.head) h [] V F) (arg : O.arg key) :
    f.dbOpen = some f.head ∧
      f.dbSearch f.head rest key valueSize (h + 1) =
          some (FileDb.dbSearch (f.view f.head) key valueSize) := by
  have root : headSize ∉ V := st.tree.value_block (List.mem_append_left _ List.mem_cons_self)
  have short : ¬ TooLong f.head key := O.not_long (s := f.view f.head) st.tree.part.has arg
  refine ⟨?_, ?_⟩
  · have accepted : f.dbChecker f.head = 0 := dbChecker_view st.checker
    simp [dbOpen, accepted]
  · have run : FileDb.dbSearch (f.view f.head) key valueSize =
        dbSearchLoop (f.view f.head) key valueSize (h + 1) (.zero f.head 0) headSize := by
      rw [dbSearch_spec st arg]
      exact (dbSearchLoop_spec h (h + 1) _ headSize valueSize [] [] V F
        (by omega) st.tree st.sorted arg).symm
    rw [run, dbSearch_short short]
    exact loop_view h headSize [] [] st.tree root st.sorted arg _ _

end Stands

end Image

end FileDb
