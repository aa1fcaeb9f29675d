import CommonLib.Restful.Callbacks

/- The body of a request, as `ReadFunc` hands it to libcurl buffer by buffer. Whether libcurl asks
   for a body at all is up to the options that the request sets. -/
namespace Restful

abbrev Body := { bytes : List UInt8 // bytes.length < 2 ^ 31 }

def readData (body : List UInt8) (pos : Nat) : CurlReadData :=
  { ptr := fun i => body.getD i 0, size := body.length, pos := pos }

/-- libcurl's calls of `ReadFunc`, the next one with buffer `k`, until one returns 0: the bytes
    sent, and whether all writes lie inside the buffers. -/
def upload (buffers : Nat → Nat → UInt8) (sizes : Nat → Nat) :
    Nat → Nat → CurlReadData → Option (List UInt8 × Bool)
  | 0, _, _ => none
  | fuel + 1, k, data =>
    let r := readFunc data (buffers k) (sizes k)
    if r.ret = 0 then some ([], r.inside)
    else (upload buffers sizes fuel (k + 1) r.data).map fun (sent, inside) =>
      ((List.range r.ret).map r.buf ++ sent, r.inside && inside)

/-- The options that decide on what is sent. -/
structure CurlOptions where
  put : Bool := false
  post : Bool := false
  customRequest : Option String := none
  infileSize : Option Int := none
  postFieldSize : Option Int := none
  readData : CurlReadData

def restfulPut (body : List UInt8) : CurlOptions :=
  { put := true, readData := readData body 0, infileSize := some body.length }

def restfulPost (body : List UInt8) : CurlOptions :=
  { post := true, readData := readData body 0, postFieldSize := some body.length }

def restfulDelete (body : List UInt8) : CurlOptions :=
  { customRequest := some "DELETE", readData := readData body 0, postFieldSize := some body.length }

/-- `curl_easy_perform`, as far as the body goes: `reads` says whether libcurl asks for one. A call
    of `ReadFunc` that does not return 0 advances by a byte or more. -/
def perform (reads : CurlOptions → Bool) (buffers : Nat → Nat → UInt8) (sizes : Nat → Nat)
    (options : CurlOptions) : Option (List UInt8 × Bool) :=
  if reads options then
    upload buffers sizes (options.readData.size.toNat + 1) 0 options.readData
  else some ([], true)

/-- The read callback is called for a PUT and for a POST. The word of a custom request takes the
    place of the request's own word and changes nothing else. -/
def ReadsForPutAndPost (reads : CurlOptions → Bool) : Prop :=
  ∀ options, reads options = (options.put || options.post)

/-- The calls end, the bytes sent are the body's, and none is written outside of its buffer,
    whatever the buffers held before. -/
def Sends (reads : CurlOptions → Bool) (restful : List UInt8 → CurlOptions) (sizes : Nat → Nat)
    (body : List UInt8) : Prop :=
  ∀ buffers, perform reads buffers sizes (restful body) = some (body, true)

/-! ### One call -/

def slice (body : List UInt8) (pos n : Nat) : List UInt8 :=
  (List.range n).map fun i => body.getD (pos + i) 0

theorem slice_length (body : List UInt8) (pos n : Nat) : (slice body pos n).length = n := by
  rw [slice, List.length_map, List.length_range]

theorem slice_full {body : List UInt8} {pos n : Nat} (within : pos + n ≤ body.length) :
    slice body pos n = (body.drop pos).take n := by
  apply List.ext_getElem
  · rw [slice_length, List.length_take, List.length_drop]
    omega
  · intro i low high
    rw [slice_length] at low
    simp only [slice, List.getElem_map, List.getElem_range, List.getElem_take, List.getElem_drop,
      List.getD_eq_getElem?_getD]
    rw [List.getElem?_eq_getElem (by omega), Option.getD_some]

theorem readFunc_spec {body : List UInt8} (small : body.length < 2 ^ 31) {pos n bytes : Nat}
    (within : pos ≤ body.length) (size : n = min (body.length - pos) bytes) (buf : Nat → UInt8) :
    readFunc (readData body pos) buf bytes =
      { data := readData body (pos + n)
        buf := memcpy buf pos (slice body pos n)
        ret := n
        inside := n = 0 || pos + n ≤ bytes } := by
  have left : toInt ((body.length : Int) - pos) = ((body.length - pos : Nat) : Int) := by
    rw [toInt_of (by omega) (by omega)]
    omega
  have copyLen : (if toSizeT ((body.length - pos : Nat) : Int) ≥ bytes then toInt bytes
      else ((body.length - pos : Nat) : Int)) = n := by
    rw [toSizeT_of (by omega)]
    split
    · rw [toInt_of (by omega) (by omega)]
      omega
    · omega
  have empty : slice body pos n = [] ↔ n = 0 := by
    rw [← List.length_eq_zero_iff, slice_length]
  have source : (List.range n).map (fun i => body.getD (pos + i) 0) = slice body pos n := rfl
  simp only [readFunc, readData, left, copyLen, toSizeT_of (show n < 2 ^ 64 by omega),
    toSizeT_of (show pos < 2 ^ 64 by omega), source, slice_length, empty]
  rw [toInt_of (by omega) (by omega)]
  rfl

theorem sent_first (body : List UInt8) (n : Nat) (buf : Nat → UInt8) :
    (List.range n).map (memcpy buf 0 (slice body 0 n)) = slice body 0 n := by
  apply List.ext_getElem
  · rw [slice_length, List.length_map, List.length_range]
  · intro i low high
    rw [slice_length] at high
    have inside : 0 ≤ i ∧ i < 0 + (slice body 0 n).length := by
      rw [slice_length]
      omega
    rw [List.getElem_map, List.getElem_range, memcpy, if_pos inside, Nat.sub_zero,
      List.getD_eq_getElem?_getD, List.getElem?_eq_getElem (by omega), Option.getD_some]

/-! ### All calls -/

theorem upload_end {body : List UInt8} (small : body.length < 2 ^ 31) (buffers : Nat → Nat → UInt8)
    (sizes : Nat → Nat) (fuel k : Nat) :
    upload buffers sizes (fuel + 1) k (readData body body.length) = some ([], true) := by
  have size : 0 = min (body.length - body.length) (sizes k) := by omega
  rw [upload, readFunc_spec small (Nat.le_refl _) size]
  rfl

/-- libcurl's calls come to an end: each that does not return 0 advances the position. -/
theorem upload_ends {body : List UInt8} (small : body.length < 2 ^ 31) (buffers : Nat → Nat → UInt8)
    (sizes : Nat → Nat) {fuel k pos : Nat} (within : pos ≤ body.length)
    (enough : body.length - pos < fuel) :
    (upload buffers sizes fuel k (readData body pos)).isSome := by
  induction fuel generalizing k pos with
  | zero => exact absurd enough (Nat.not_lt_zero _)
  | succ fuel ih =>
    rw [upload, readFunc_spec small within rfl]
    dsimp only
    split
    · rfl
    · rename_i some_
      rw [Option.isSome_map]
      exact ih (by omega) (by omega)

/-- From the second buffer on, the bytes land behind the place they belong to: either they leave
    the buffer, or what was in the buffer before is sent. -/
theorem upload_later {body : List UInt8} (small : body.length < 2 ^ 31) (sizes : Nat → Nat)
    {fuel k pos : Nat} (later : 0 < pos) (within : pos < body.length) :
    upload (fun _ _ => body.getD pos 0 + 1) sizes fuel k (readData body pos) ≠
      some (body.drop pos, true) := by
  intro sent
  have rest : body.drop pos ≠ [] := by
    intro none_
    have := List.drop_eq_nil_iff.mp none_
    omega
  cases fuel with
  | zero => exact nomatch sent
  | succ fuel =>
    rw [upload, readFunc_spec small (Nat.le_of_lt within) rfl] at sent
    dsimp only at sent
    split at sent
    · have := congrArg Prod.fst (Option.some.inj sent)
      exact rest this.symm
    · rename_i some_
      obtain ⟨⟨tail, inside⟩, _, same⟩ := Option.map_eq_some_iff.mp sent
      have bytes := congrArg Prod.fst same
      -- the first byte sent lies before the place written to
      have first := congrArg (fun l => l.getD 0 0) bytes
      have before : ¬ (pos ≤ 0 ∧ 0 < pos + (slice body pos (min (body.length - pos) (sizes k))).length) := by
        omega
      obtain ⟨n, size⟩ := Nat.exists_eq_succ_of_ne_zero some_
      rw [size] at first before
      simp only [List.range_succ_eq_map, List.map_cons, List.cons_append, memcpy,
        if_neg before, List.getD_eq_getElem?_getD, List.getElem?_drop, Nat.add_zero] at first
      have one : (1 : UInt8) = 0 := UInt8.add_eq_left.mp first
      exact absurd one (by decide)

theorem perform_ends (reads : CurlOptions → Bool) (body : Body) (buffers : Nat → Nat → UInt8)
    (sizes : Nat → Nat) {options : CurlOptions} (data : options.readData = readData body.val 0) :
    (perform reads buffers sizes options).isSome := by
  unfold perform
  split
  · rw [data]
    exact upload_ends body.property buffers sizes (Nat.zero_le _) (Nat.lt_succ_self _)
  · rfl

/-- A body that libcurl asks for is sent exactly if the first buffer takes all of it. -/
theorem upload_sends_iff {body : List UInt8} (small : body.length < 2 ^ 31) (sizes : Nat → Nat) :
    (∀ buffers, upload buffers sizes (body.length + 1) 0 (readData body 0) = some (body, true)) ↔
      body.length ≤ sizes 0 := by
  constructor
  · intro sent
    by_contra short
    have sent := sent fun _ _ => body.getD (sizes 0) 0 + 1
    rw [upload, readFunc_spec small (Nat.zero_le _) rfl] at sent
    have size : min (body.length - 0) (sizes 0) = sizes 0 := by omega
    simp only [size, sent_first, Nat.zero_add] at sent
    split at sent
    · have empty := congrArg Prod.fst (Option.some.inj sent)
      have length : body.length = 0 := congrArg List.length empty.symm
      omega
    · rename_i some_
      obtain ⟨⟨tail, inside⟩, later, same⟩ := Option.map_eq_some_iff.mp sent
      obtain ⟨bytes, all⟩ := Prod.mk.inj same
      rw [Bool.and_eq_true] at all
      have tail_ : tail = body.drop (sizes 0) := by
        rw [slice_full (by omega), List.drop_zero] at bytes
        exact List.append_cancel_left (bytes.trans (List.take_append_drop _ _).symm)
      have all : inside = true := all.2
      rw [tail_, all] at later
      exact upload_later small sizes (by omega) (by omega) later
  · intro fits buffers
    have size : body.length = min (body.length - 0) (sizes 0) := by omega
    rw [upload, readFunc_spec small (Nat.zero_le _) size]
    simp only [sent_first, Nat.zero_add]
    simp only [slice_full (Nat.le_of_eq (Nat.zero_add body.length)), List.drop_zero,
      List.take_length]
    split
    · rename_i none_
      rw [List.eq_nil_of_length_eq_zero none_]
      rfl
    · rename_i some_
      obtain ⟨n, length⟩ := Nat.exists_eq_succ_of_ne_zero some_
      have last := upload_end small buffers sizes n 1
      rw [← Nat.succ_eq_add_one, ← length] at last
      rw [last]
      simp [fits]

theorem asked_sends_iff {reads : CurlOptions → Bool} {restful : List UInt8 → CurlOptions}
    {body : List UInt8} (small : body.length < 2 ^ 31) (sizes : Nat → Nat)
    (asked : reads (restful body) = true) (data : (restful body).readData = readData body 0) :
    Sends reads restful sizes body ↔ body.length ≤ sizes 0 := by
  unfold Sends perform
  simp only [asked, if_true, data]
  exact upload_sends_iff small sizes

theorem unasked_sends_iff {reads : CurlOptions → Bool} {restful : List UInt8 → CurlOptions}
    {body : List UInt8} (sizes : Nat → Nat) (unasked : reads (restful body) = false) :
    Sends reads restful sizes body ↔ body = [] := by
  unfold Sends perform
  rw [unasked]
  constructor
  · intro sent
    exact (congrArg Prod.fst (Option.some.inj (sent fun _ _ => 0))).symm
  · rintro rfl _
    rfl

/-- A PUT and a POST send their body exactly if the first buffer takes all of it. A DELETE never
    asks for its body, so that it sends it only if there is none. -/
theorem body_sent_iff (reads : CurlOptions → Bool) (documented : ReadsForPutAndPost reads)
    (body : Body) (sizes : Nat → Nat) :
    (Sends reads restfulPut sizes body.val ↔ body.val.length ≤ sizes 0) ∧
    (Sends reads restfulPost sizes body.val ↔ body.val.length ≤ sizes 0) ∧
    (Sends reads restfulDelete sizes body.val ↔ body.val = []) := by
  refine ⟨?_, ?_, ?_⟩
  · exact asked_sends_iff body.property sizes (documented (restfulPut body.val)) rfl
  · exact asked_sends_iff body.property sizes (documented (restfulPost body.val)) rfl
  · exact unasked_sends_iff sizes (documented (restfulDelete body.val))

theorem body_sent_iff_sample :
    let reads : CurlOptions → Bool := fun options => options.put || options.post
    Sends reads restfulPut (fun _ => 16) [1, 2, 3] ∧ Sends reads restfulPost (fun _ => 16) [1, 2, 3] ∧
      ¬ Sends reads restfulDelete (fun _ => 16) [1, 2, 3] := by
  obtain ⟨put, post, delete⟩ := body_sent_iff (fun options => options.put || options.post)
    (fun _ => rfl) ⟨[1, 2, 3], by decide⟩ (fun _ => 16)
  exact ⟨put.mpr (by decide), post.mpr (by decide), fun sent => nomatch delete.mp sent⟩

/-- Three bytes through buffers of two: the last one is written outside of the second buffer. -/
theorem body_cut_sample :
    ¬ Sends (fun options => options.put || options.post) restfulPut (fun _ => 2) [1, 2, 3] := by
  intro sent
  have bytes := sent fun _ _ => 0
  revert bytes
  decide +kernel

end Restful
