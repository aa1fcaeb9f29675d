import CommonLib.Restful.Callbacks
import Mathlib.Data.List.Induction

/- A response: its header lines, then its body chunk by chunk into one buffer. -/
namespace Restful

/-- What libcurl delivers for a request, and whether it ends with `CURLE_OK`. -/
structure Response where
  lines : List (List UInt8)
  chunks : List (List UInt8)
  ok : Bool

/-- What a request leaves: whether all that was stored lies inside the buffer, and what is returned
    through `out` and `outSize`, if anything is. -/
structure Returned where
  inside : Bool
  out : Option (Option (Nat → UInt8) × Int)

def writeChunk (fresh : Nat → UInt8) (header : HTTPHeader) (state : CurlWriteData × Bool)
    (chunk : List UInt8) : CurlWriteData × Bool :=
  let (data, inside) := writeFunc fresh header state.1 chunk
  (data, state.2 && inside)

def restfulGet (fresh : Nat → UInt8) (r : Response) : Returned :=
  let header := r.lines.foldl getHttpStatusFunc ⟨0, 0⟩
  let (data, inside) := r.chunks.foldl (writeChunk fresh header) (⟨none, 0, 0⟩, true)
  { inside := inside
    out := if r.ok = true ∧ 200 = header.status then some (data.ptr, data.size) else none }

/-! ### What the header lines announce -/

def said (literal : String) (line : List UInt8) : Option Int :=
  match scan (bytes literal) (line.takeWhile (· ≠ 0)) with
  | .eof => some 0
  | .mismatch => none
  | .value n => some n

def lengthOf (line : List UInt8) : Option Int := said "Content-Length:" line
def statusOf (line : List UInt8) : Option Int := (said "HTTP/1.1" line).or (said "HTTP/1.0" line)

/-- The last of the lines that say it decides; without any it is 0. -/
def announcedLength (lines : List (List UInt8)) : Int := (lines.filterMap lengthOf).getLast?.getD 0
def announcedStatus (lines : List (List UInt8)) : Int := (lines.filterMap statusOf).getLast?.getD 0

theorem scan_other (l : List UInt8) {a b : UInt8} (apart : b ≠ a) (s : List UInt8) :
    (∃ n, scan (l ++ [a]) s = .value n) → scan (l ++ [b]) s = .mismatch := by
  induction l generalizing s with
  | nil =>
    intro ⟨n, read⟩
    cases s with
    | nil => exact nomatch read
    | cons c s =>
      simp only [List.nil_append, scan] at read ⊢
      split at read
      · rename_i same
        rw [if_neg (by rw [← same]; exact apart)]
      · exact nomatch read
  | cons x l ih =>
    intro ⟨n, read⟩
    cases s with
    | nil => exact nomatch read
    | cons c s =>
      simp only [List.cons_append, scan] at read ⊢
      split at read
      · rename_i same
        rw [if_pos same]
        exact ih s ⟨n, read⟩
      · exact nomatch read

theorem scans_apart (s : List UInt8) :
    (∀ n, scan (bytes "HTTP/1.0") s = .value n → scan (bytes "HTTP/1.1") s = .mismatch) ∧
    (scan (bytes "Content-Length:") s = .mismatch ∨
      scan (bytes "HTTP/1.0") s = .mismatch ∧ scan (bytes "HTTP/1.1") s = .mismatch ∨
      s = []) := by
  constructor
  · intro n read
    have first : bytes "HTTP/1.0" = bytes "HTTP/1." ++ [48] := rfl
    have second : bytes "HTTP/1.1" = bytes "HTTP/1." ++ [49] := rfl
    rw [first] at read
    rw [second]
    exact scan_other _ (by decide) s ⟨n, read⟩
  · cases s with
    | nil => exact .inr (.inr rfl)
    | cons c s =>
      have content : bytes "Content-Length:" = 67 :: bytes "ontent-Length:" := rfl
      have first : bytes "HTTP/1.0" = 72 :: bytes "TTP/1.0" := rfl
      have second : bytes "HTTP/1.1" = 72 :: bytes "TTP/1.1" := rfl
      rw [content, first, second]
      simp only [scan]
      by_cases upper : (67 : UInt8) = c
      · have other : ¬ (72 : UInt8) = c := by
          rw [← upper]
          decide
        exact .inr (.inl ⟨if_neg other, if_neg other⟩)
      · exact .inl (if_neg upper)

/-- A header line sets the fields it speaks of, and no others. -/
theorem getHttpStatusFunc_spec (header : HTTPHeader) (line : List UInt8) :
    getHttpStatusFunc header line =
      ⟨(statusOf line).getD header.status, (lengthOf line).getD header.contentLength⟩ := by
  unfold getHttpStatusFunc sscanf statusOf lengthOf said
  generalize line.takeWhile (· ≠ 0) = s
  obtain ⟨one, apart⟩ := scans_apart s
  rcases apart with content | ⟨first, second⟩ | empty
  · rw [content]
    cases first : scan (bytes "HTTP/1.0") s with
    | value n =>
      rw [one n first]
      rfl
    | eof => cases second : scan (bytes "HTTP/1.1") s <;> rfl
    | mismatch => cases second : scan (bytes "HTTP/1.1") s <;> rfl
  · rw [first, second]
    cases content : scan (bytes "Content-Length:") s <;> rfl
  · rw [empty]
    rfl

theorem foldl_last {α β : Type} (f : α → Option β) (lines : List α) (x : β) :
    lines.foldl (fun x line => (f line).getD x) x = (lines.filterMap f).getLast?.getD x := by
  induction lines generalizing x with
  | nil => rfl
  | cons line lines ih =>
    rw [List.foldl_cons, ih]
    cases said_ : f line with
    | none => rw [List.filterMap_cons_none said_, Option.getD_none]
    | some y =>
      rw [List.filterMap_cons_some said_, List.getLast?_cons, Option.getD_some, Option.getD_some]

/-- The header after all lines: the last line that speaks of a field decides. -/
theorem header_announced (lines : List (List UInt8)) :
    lines.foldl getHttpStatusFunc ⟨0, 0⟩ = ⟨announcedStatus lines, announcedLength lines⟩ := by
  have both : ∀ (header : HTTPHeader), lines.foldl getHttpStatusFunc header =
      ⟨lines.foldl (fun x line => (statusOf line).getD x) header.status,
        lines.foldl (fun x line => (lengthOf line).getD x) header.contentLength⟩ := by
    induction lines with
    | nil =>
      intro header
      rfl
    | cons line lines ih =>
      intro header
      rw [List.foldl_cons, ih, getHttpStatusFunc_spec]
      rfl
  rw [both, foldl_last, foldl_last]
  rfl

theorem stored_range (negative : Bool) (n : Nat) :
    -2 ^ 31 ≤ stored negative n ∧ stored negative n < 2 ^ 31 := by
  unfold stored toInt
  generalize (if negative = true then _ else _ : Int) = value
  rw [Int.bmod_def]
  split
  · omega
  · omega

theorem scanNumber_range {s : List UInt8} {n : Int} (read : scanNumber s = .value n) :
    -2 ^ 31 ≤ n ∧ n < 2 ^ 31 := by
  unfold scanNumber at read
  cases rest : s.dropWhile isSpace with
  | nil =>
    rw [rest] at read
    exact nomatch read
  | cons c cs =>
    rw [rest] at read
    dsimp only at read
    generalize (if (c = 45 || c = 43) = true then cs else c :: cs).takeWhile isDigit =
      digits at read
    split at read
    · exact nomatch read
    · rw [← Scan.value.inj read]
      exact stored_range _ _

theorem scan_range {literal s : List UInt8} {n : Int} (read : scan literal s = .value n) :
    -2 ^ 31 ≤ n ∧ n < 2 ^ 31 := by
  induction literal generalizing s with
  | nil => exact scanNumber_range read
  | cons l literal ih =>
    cases s with
    | nil => exact nomatch read
    | cons c s =>
      simp only [scan] at read
      split at read
      · exact ih read
      · exact nomatch read

theorem announcedLength_range (lines : List (List UInt8)) :
    -2 ^ 31 ≤ announcedLength lines ∧ announcedLength lines < 2 ^ 31 := by
  unfold announcedLength
  cases last : (lines.filterMap lengthOf).getLast? with
  | none => decide
  | some n =>
    obtain ⟨line, _, read⟩ := List.mem_filterMap.mp (List.mem_of_getLast? last)
    unfold lengthOf said at read
    split at read
    · rw [← Option.some.inj read]
      decide
    · exact nomatch read
    · rename_i value
      rw [Option.getD_some, ← Option.some.inj read]
      exact scan_range value

/-! ### Chunks into the buffer -/

/-- The bytes that `WriteFunc` allocates for an announced length. -/
def capacity (n : Int) : Nat := if n < 2 ^ 31 - 1 then (n + 1).toNat else 0

theorem capacity_pos {k : Int} (open_ : capacity k ≠ 0) :
    ∃ n : Nat, k = n ∧ n < 2 ^ 31 - 1 ∧ capacity k = n + 1 := by
  unfold capacity at open_ ⊢
  split
  · rename_i small
    rw [if_pos small] at open_
    exact ⟨k.toNat, by omega, by omega, by omega⟩
  · rename_i large
    rw [if_neg large] at open_
    exact absurd rfl open_

/-- The data after the chunks `taken`, which fit the buffer of `n + 1` bytes: as many as were
    taken are held, and behind them lies what lay there before. -/
structure Stored (fresh : Nat → UInt8) (n : Nat) (taken : List UInt8)
    (data : CurlWriteData) : Prop where
  size : data.size = n + 1
  pos : data.pos = taken.length
  held : ∃ mem, data.ptr = some mem ∧ (∀ i < taken.length, mem i = taken.getD i 0) ∧
    (taken.length < n → ∀ i, taken.length ≤ i → i ≤ n → mem i = fresh i)

def Ended (n : Nat) (taken : List UInt8) (data : CurlWriteData) : Prop :=
  taken.length = n → ∃ mem, data.ptr = some mem ∧ mem n = 0

theorem memcpy_append {mem : Nat → UInt8} {taken : List UInt8}
    (bytes : ∀ i < taken.length, mem i = taken.getD i 0) (chunk : List UInt8) {i : Nat}
    (inside : i < (taken ++ chunk).length) :
    memcpy mem taken.length chunk i = (taken ++ chunk).getD i 0 := by
  rw [List.length_append] at inside
  unfold memcpy
  by_cases old : i < taken.length
  · rw [if_neg (by omega), bytes i old]
    simp only [List.getD_eq_getElem?_getD, List.getElem?_append_left old]
  · have behind : taken.length ≤ i := by omega
    rw [if_pos ⟨behind, inside⟩]
    simp only [List.getD_eq_getElem?_getD, List.getElem?_append_right behind]

theorem memcpy_behind (mem : Nat → UInt8) (at_ : Nat) (bytes : List UInt8) {i : Nat}
    (behind : at_ + bytes.length ≤ i) : memcpy mem at_ bytes i = mem i :=
  if_neg (by omega)

theorem memcpy_before (mem : Nat → UInt8) (at_ : Nat) (bytes : List UInt8) {i : Nat}
    (before : i < at_) : memcpy mem at_ bytes i = mem i :=
  if_neg (by omega)

theorem memcpy_nul (mem : Nat → UInt8) (n : Nat) : memcpy mem n [0] n = 0 := by
  unfold memcpy
  rw [if_pos ⟨Nat.le_refl n, Nat.lt_succ_self n⟩, Nat.sub_self]
  rfl

def Ready (fresh : Nat → UInt8) (n : Nat) (taken : List UInt8) (data : CurlWriteData) : Prop :=
  (taken = [] ∧ data.ptr = none) ∨ Stored fresh n taken data

theorem writeFunc_first {header : HTTPHeader} {n : Nat} (length : header.contentLength = n)
    (small : n < 2 ^ 31 - 1) (fresh : Nat → UInt8) (data : CurlWriteData) (none_ : data.ptr = none)
    (chunk : List UInt8) :
    writeFunc fresh header data chunk = writeFunc fresh header ⟨some fresh, n + 1, 0⟩ chunk := by
  have size : toInt (header.contentLength + 1) = ((n + 1 : Nat) : Int) := by
    rw [toInt_of (by omega) (by omega)]
    omega
  have given : malloc fresh (toSizeT (((n + 1 : Nat) : Int))) = some fresh := by
    rw [toSizeT_of (by omega), malloc, if_pos (by omega)]
  unfold writeFunc
  simp only [none_, Option.isNone_none, if_true, Option.isNone_some, Bool.false_eq_true, if_false,
    size, given]
  rfl

theorem Stored.toSizeT_pos {fresh : Nat → UInt8} {n : Nat} {taken : List UInt8}
    {data : CurlWriteData} (stored : Stored fresh n taken data) (small : n < 2 ^ 31 - 1)
    (within : taken.length ≤ n + 1) : toSizeT data.pos = taken.length := by
  rw [stored.pos, toSizeT_of (by omega)]

theorem Stored.toSizeT_size {fresh : Nat → UInt8} {n : Nat} {taken : List UInt8}
    {data : CurlWriteData} (stored : Stored fresh n taken data) (small : n < 2 ^ 31 - 1) :
    toSizeT data.size = n + 1 := by
  have size := toSizeT_of (show n + 1 < 2 ^ 64 by omega)
  rw [stored.size]
  exact size

theorem writeFunc_stored {header : HTTPHeader} {n : Nat} (length : header.contentLength = n)
    (small : n < 2 ^ 31 - 1) {fresh : Nat → UInt8} {taken chunk : List UInt8} {data : CurlWriteData}
    (stored : Stored fresh n taken data) (fits : taken.length + chunk.length ≤ n + 1) :
    ∃ data', writeFunc fresh header data chunk = (data', true) ∧
      Stored fresh n (taken ++ chunk) data' ∧ Ended n (taken ++ chunk) data' := by
  have pos_ := stored.toSizeT_pos small (by omega)
  have size_ := stored.toSizeT_size small
  obtain ⟨size, pos, mem, held, bytes, behind⟩ := stored
  have next : toInt (data.pos + chunk.length) = ((taken ++ chunk).length : Int) := by
    rw [pos, toInt_of (by omega) (by omega), List.length_append]
    omega
  have room : toSizeT (n : Int) = n := toSizeT_of (by omega)
  have inside : chunk = [] ∨ taken.length + chunk.length ≤ n + 1 := .inr fits
  have total : (taken ++ chunk).length = taken.length + chunk.length := List.length_append
  unfold writeFunc
  simp only [held, Option.isNone_some, Bool.false_eq_true, if_false, Option.isSome_some,
    Bool.true_and,
    Option.map_some, pos_, size_, next, room, length, Int.natCast_inj, Nat.le_refl,
      decide_true, inside,
    ← Bool.decide_or]
  split
  · rename_i full
    refine ⟨_, rfl, ⟨size, rfl, _, rfl, ?_, ?_⟩, ?_⟩
    · intro i low
      rw [memcpy_before _ _ _ (by omega)]
      exact memcpy_append bytes chunk low
    · intro short
      omega
    · intro _
      exact ⟨_, rfl, memcpy_nul _ n⟩
  · rename_i partial_
    refine ⟨_, rfl, ⟨size, rfl, _, rfl, ?_, ?_⟩, ?_⟩
    · intro i low
      exact memcpy_append bytes chunk low
    · intro short i low high
      rw [memcpy_behind _ _ _ (by omega)]
      exact behind (by omega) i (by omega) high
    · intro full
      exact absurd full partial_

theorem stored_first (fresh : Nat → UInt8) (n : Nat) : Stored fresh n [] ⟨some fresh, n + 1, 0⟩ :=
  ⟨rfl, rfl, fresh, rfl, fun i low => absurd low (Nat.not_lt_zero i), fun _ _ _ _ => rfl⟩

theorem ready_stored {header : HTTPHeader} {n : Nat} (length : header.contentLength = n)
    (small : n < 2 ^ 31 - 1) {fresh : Nat → UInt8} {taken : List UInt8} {data : CurlWriteData}
    (ready : Ready fresh n taken data) (chunk : List UInt8) :
    ∃ data', Stored fresh n taken data' ∧
      writeFunc fresh header data chunk = writeFunc fresh header data' chunk := by
  rcases ready with ⟨none_, unset⟩ | stored
  · rw [none_]
    exact ⟨_, stored_first fresh n, writeFunc_first length small fresh data unset chunk⟩
  · exact ⟨data, stored, rfl⟩

/-- A chunk that does not fit is stored behind the end of the buffer. -/
theorem writeFunc_overflow (header : HTTPHeader) {n : Nat} (small : n < 2 ^ 31 - 1)
    {fresh : Nat → UInt8} {taken chunk : List UInt8} {data : CurlWriteData}
    (stored : Stored fresh n taken data) (within : taken.length ≤ n + 1)
    (beyond : n + 1 < taken.length + chunk.length) :
    (writeFunc fresh header data chunk).2 = false := by
  have pos_ := stored.toSizeT_pos small within
  have size_ := stored.toSizeT_size small
  obtain ⟨_, _, mem, held, _, _⟩ := stored
  have some_ : chunk ≠ [] := by
    intro empty
    rw [empty, List.length_nil] at beyond
    omega
  unfold writeFunc
  simp only [held, Option.isNone_some, Bool.false_eq_true, if_false, Option.isSome_some,
    Bool.true_and,
    pos_, size_, some_, decide_false, Bool.false_or, Nat.not_le.mpr beyond]
  split
  · rfl
  · rfl

def Idle (data : CurlWriteData) : Prop := data.pos = 0 ∧ (data.ptr = none ∨ data.size = 0)

theorem writeFunc_idle {header : HTTPHeader} (low : -2 ^ 31 ≤ header.contentLength)
    (high : header.contentLength < 2 ^ 31) (closed : capacity header.contentLength = 0)
    (fresh : Nat → UInt8) {data : CurlWriteData} (idle : Idle data) (chunk : List UInt8) :
    (chunk = [] → (writeFunc fresh header data chunk).2 = true ∧
      Idle (writeFunc fresh header data chunk).1) ∧
    (chunk ≠ [] → (writeFunc fresh header data chunk).2 = false) := by
  have other : ¬ (0 : Int) = header.contentLength := by
    intro zero
    rw [← zero] at closed
    exact absurd closed (by decide)
  -- the data after the allocation holds nothing either
  obtain ⟨data', same, pos, none_⟩ : ∃ data', (if data.ptr.isNone then
      (⟨malloc fresh (toSizeT (toInt (header.contentLength + 1))),
      toInt (header.contentLength + 1), 0⟩ :
        CurlWriteData) else data) = data' ∧
            data'.pos = 0 ∧ (data'.ptr = none ∨ data'.size = 0) := by
    cases held : data.ptr with
    | some mem =>
      have empty : data.size = 0 := idle.2.resolve_left (by rw [held]; simp)
      exact ⟨data, if_neg (by simp), idle.1, .inr empty⟩
    | none =>
      refine ⟨_, if_pos rfl, rfl, ?_⟩
      unfold capacity at closed
      have size : toInt (header.contentLength + 1) ≤ 0 ∧
          -2 ^ 31 ≤ toInt (header.contentLength + 1) := by
        unfold toInt
        rw [Int.bmod_def]
        split at closed
        · split <;> omega
        · split <;> omega
      by_cases zero : toInt (header.contentLength + 1) = 0
      · exact .inr zero
      · left
        have huge : ¬ toSizeT (toInt (header.contentLength + 1)) < 2 ^ 63 := by
          unfold toSizeT
          omega
        exact if_neg huge
  have start : toSizeT (0 : Int) = 0 := rfl
  unfold writeFunc
  simp only [same, pos, start, Nat.zero_add, Int.zero_add]
  constructor
  · intro empty
    have still : toInt ((chunk.length : Nat) : Int) = 0 := by
      rw [empty]
      rfl
    rw [still, if_neg other]
    constructor
    · simp [empty]
    · exact ⟨rfl, none_.imp_left fun unset => by rw [unset]; rfl⟩
  · intro some_
    have long : 0 < chunk.length := List.length_pos_iff.mpr some_
    have outside : (decide (chunk = []) || data'.ptr.isSome &&
        decide (chunk.length ≤ toSizeT data'.size)) = false := by
      rcases none_ with unset | empty
      · simp [some_, unset]
      · have none_ : ¬ chunk.length ≤ toSizeT data'.size := by
          rw [empty, start]
          omega
        simp [some_, none_]
    rw [outside]
    split
    · rfl
    · rfl

/-! ### The whole body -/

def received (fresh : Nat → UInt8) (header : HTTPHeader) (chunks : List (List UInt8)) :
    CurlWriteData × Bool :=
  chunks.foldl (writeChunk fresh header) (⟨none, 0, 0⟩, true)

theorem received_snoc (fresh : Nat → UInt8) (header : HTTPHeader) (chunks : List (List UInt8))
    (chunk : List UInt8) :
    received fresh header (chunks ++ [chunk]) =
      writeChunk fresh header (received fresh header chunks) chunk := by
  unfold received
  rw [List.foldl_append]
  rfl

theorem flatten_snoc (chunks : List (List UInt8)) (chunk : List UInt8) :
    (chunks ++ [chunk]).flatten = chunks.flatten ++ chunk := by
  rw [List.flatten_append, List.flatten_singleton]

theorem received_fits (header : HTTPHeader) {n : Nat} (length : header.contentLength = n)
    (small : n < 2 ^ 31 - 1) (fresh : Nat → UInt8) (chunks : List (List UInt8))
    (fits : chunks.flatten.length ≤ n + 1) :
    (received fresh header chunks).2 = true ∧
      Ready fresh n chunks.flatten (received fresh header chunks).1 ∧
      (chunks ≠ [] → Stored fresh n chunks.flatten (received fresh header chunks).1 ∧
        Ended n chunks.flatten (received fresh header chunks).1) := by
  induction chunks using List.reverseRecOn with
  | nil => exact ⟨rfl, .inl ⟨rfl, rfl⟩, fun some_ => absurd rfl some_⟩
  | append_singleton chunks chunk ih =>
    rw [flatten_snoc, List.length_append] at fits
    obtain ⟨inside, ready, _⟩ := ih (by omega)
    obtain ⟨data, stored, same⟩ := ready_stored length small ready chunk
    obtain ⟨data', made, stored, ended⟩ := writeFunc_stored length small stored fits
    rw [received_snoc, flatten_snoc, writeChunk, same, made, inside]
    exact ⟨rfl, .inr stored, fun _ => ⟨stored, ended⟩⟩

theorem received_overflow (header : HTTPHeader) {n : Nat} (length : header.contentLength = n)
    (small : n < 2 ^ 31 - 1) (fresh : Nat → UInt8) (chunks : List (List UInt8))
    (beyond : n + 1 < chunks.flatten.length) : (received fresh header chunks).2 = false := by
  induction chunks using List.reverseRecOn with
  | nil => exact absurd beyond (Nat.not_lt_zero _)
  | append_singleton chunks chunk ih =>
    rw [flatten_snoc, List.length_append] at beyond
    rw [received_snoc, writeChunk]
    by_cases before : n + 1 < chunks.flatten.length
    · rw [ih before]
      rfl
    · obtain ⟨_, ready, _⟩ := received_fits header length small fresh chunks (by omega)
      obtain ⟨data, stored, same⟩ := ready_stored length small ready chunk
      rw [same]
      have outside := writeFunc_overflow header small stored (by omega) beyond
      dsimp only
      rw [outside, Bool.and_false]

theorem received_idle (header : HTTPHeader) (low : -2 ^ 31 ≤ header.contentLength)
    (high : header.contentLength < 2 ^ 31) (closed : capacity header.contentLength = 0)
    (fresh : Nat → UInt8) (chunks : List (List UInt8)) :
    (chunks.flatten = [] → (received fresh header chunks).2 = true ∧
      Idle (received fresh header chunks).1) ∧
    (chunks.flatten ≠ [] → (received fresh header chunks).2 = false) := by
  induction chunks using List.reverseRecOn with
  | nil => exact ⟨fun _ => ⟨rfl, rfl, .inl rfl⟩, fun some_ => absurd rfl some_⟩
  | append_singleton chunks chunk ih =>
    rw [received_snoc, flatten_snoc, writeChunk]
    constructor
    · intro empty
      obtain ⟨first, last⟩ := List.append_eq_nil_iff.mp empty
      obtain ⟨inside, idle⟩ := ih.1 first
      obtain ⟨inside', idle'⟩ := (writeFunc_idle low high closed fresh idle chunk).1 last
      dsimp only
      rw [inside, inside']
      exact ⟨rfl, idle'⟩
    · intro some_
      by_cases first : chunks.flatten = []
      · obtain ⟨_, idle⟩ := ih.1 first
        have last : chunk ≠ [] := by
          intro last
          exact some_ (by rw [first, last]; rfl)
        dsimp only
        rw [(writeFunc_idle low high closed fresh idle chunk).2 last, Bool.and_false]
      · dsimp only
        rw [ih.2 first, Bool.false_and]

/-- What is stored lies inside the buffer exactly if the whole body does. -/
theorem received_inside_iff (header : HTTPHeader) (low : -2 ^ 31 ≤ header.contentLength)
    (high : header.contentLength < 2 ^ 31) (fresh : Nat → UInt8) (chunks : List (List UInt8)) :
    (received fresh header chunks).2 = true ↔
      chunks.flatten.length ≤ capacity header.contentLength := by
  by_cases closed : capacity header.contentLength = 0
  · rw [closed, Nat.le_zero, List.length_eq_zero_iff]
    obtain ⟨empty, some_⟩ := received_idle header low high closed fresh chunks
    constructor
    · intro inside
      by_contra body
      rw [some_ body] at inside
      exact nomatch inside
    · intro body
      exact (empty body).1
  · obtain ⟨n, length, small, room⟩ := capacity_pos closed
    rw [room]
    constructor
    · intro inside
      by_contra beyond
      rw [received_overflow header length small fresh chunks (by omega)] at inside
      exact nomatch inside
    · intro fits
      exact (received_fits header length small fresh chunks fits).1

/-- Nothing is stored outside of the buffer, and after `CURLE_OK` and status 200 the buffer
    returned holds the body and a NUL, whatever it held when it was allocated. -/
def Delivered (r : Response) : Prop :=
  ∀ fresh, (restfulGet fresh r).inside = true ∧
    (r.ok = true ∧ announcedStatus r.lines = 200 →
      ∃ mem size, (restfulGet fresh r).out = some (some mem, size) ∧
        (r.chunks.flatten.length : Int) + 1 ≤ size ∧
        (∀ i < r.chunks.flatten.length, mem i = r.chunks.flatten.getD i 0) ∧
        mem r.chunks.flatten.length = 0)

theorem restfulGet_eq (fresh : Nat → UInt8) (r : Response) :
    restfulGet fresh r =
      let data := received fresh ⟨announcedStatus r.lines, announcedLength r.lines⟩ r.chunks
      { inside := data.2
        out := if r.ok = true ∧ 200 = announcedStatus r.lines then some (data.1.ptr, data.1.size)
          else none } := by
  unfold restfulGet
  rw [header_announced]
  rfl

/-- A response is delivered exactly if what is stored of it fits, and, where the buffer is
    returned, the body is as long as announced, and `WriteFunc` was called at all. -/
theorem response_delivered_iff (r : Response) :
    Delivered r ↔
      if r.ok = true ∧ announcedStatus r.lines = 200 then
        r.chunks ≠ [] ∧ r.chunks.flatten.length + 1 = capacity (announcedLength r.lines)
      else r.chunks.flatten.length ≤ capacity (announcedLength r.lines) := by
  obtain ⟨low, high⟩ := announcedLength_range r.lines
  have inside_iff := fun fresh =>
    received_inside_iff ⟨announcedStatus r.lines, announcedLength r.lines⟩ low high fresh r.chunks
  unfold Delivered
  simp only [restfulGet_eq, inside_iff]
  by_cases good : r.ok = true ∧ announcedStatus r.lines = 200
  · have returned : r.ok = true ∧ 200 = announcedStatus r.lines := ⟨good.1, good.2.symm⟩
    simp only [if_pos good, if_pos returned]
    constructor
    · intro delivered
      -- a fresh buffer without a NUL
      obtain ⟨fits, held⟩ := delivered fun _ => 1
      obtain ⟨mem, size, out, room, bytes, nul⟩ := held good
      obtain ⟨ptr, size_⟩ := Prod.mk.inj (Option.some.inj out)
      rw [← size_] at room
      constructor
      · intro empty
        rw [empty] at ptr
        exact nomatch ptr
      · by_cases closed : capacity (announcedLength r.lines) = 0
        · rw [closed, Nat.le_zero, List.length_eq_zero_iff] at fits
          obtain ⟨empty, _⟩ := received_idle ⟨announcedStatus r.lines,
            announcedLength r.lines⟩ low high
            closed (fun _ => 1) r.chunks
          obtain ⟨_, unset | none_⟩ := (empty fits).2
          · rw [ptr] at unset
            exact nomatch unset
          · rw [none_] at room
            omega
        · obtain ⟨n, length, small, capacity_⟩ := capacity_pos closed
          rw [capacity_] at fits ⊢
          obtain ⟨_, ⟨_, unset⟩ | ⟨size', _, mem', held, _, behind⟩, _⟩ :=
            received_fits ⟨announcedStatus r.lines, announcedLength r.lines⟩ length small
              (fun _ => 1) r.chunks fits
          · rw [ptr] at unset
            exact nomatch unset
          · rw [size'] at room
            by_contra short
            have rest := behind (by omega) _ (Nat.le_refl _) (by omega)
            rw [ptr] at held
            rw [← Option.some.inj held, nul] at rest
            exact absurd rest (by decide)
    · intro ⟨some_, exact_⟩ fresh
      obtain ⟨n, length, small, capacity_⟩ := capacity_pos (k := announcedLength r.lines) (by omega)
      rw [capacity_] at exact_ ⊢
      obtain ⟨_, _, kept⟩ :=
        received_fits ⟨announcedStatus r.lines, announcedLength r.lines⟩ length small
          fresh r.chunks (by omega)
      obtain ⟨⟨size, _, mem, held, bytes, _⟩, ended⟩ := kept some_
      obtain ⟨mem', held', nul⟩ := ended (by omega)
      rw [held] at held'
      refine ⟨by omega, fun _ => ⟨mem, _, by rw [held], by omega, bytes, ?_⟩⟩
      rw [Option.some.inj held', Nat.succ_injective exact_]
      exact nul
  · simp only [if_neg good]
    constructor
    · intro delivered
      exact (delivered fun _ => 0).1
    · intro fits fresh
      exact ⟨fits, fun returned => absurd returned good⟩

/-- A length announced in lower case is not seen: one byte is allocated for two. -/
theorem lowerCase_sample :
    ¬ Delivered ⟨[bytes "HTTP/1.1 200 OK\r\n", bytes "content-length: 2\r\n"], [[1, 2]], true⟩ := by
  intro delivered
  have inside := (delivered fun _ => 0).1
  revert inside
  decide +kernel

end Restful
