import CommonLib.Adts.Walk

/- The payload lengths that the loop of `aac_parse` derives, whatever the file holds. -/
namespace Adts
open BitFields

structure Iteration where
  position : Nat
  variableHeader : AdtsVariableHeader
  size : BitVec 64
  next : Nat
  deriving DecidableEq, Repr

def iterations (malloc : BitVec 64 → Bool) (position : Nat) : List Byte → List Iteration
  | b0 :: b1 :: b2 :: b3 :: b4 :: b5 :: b6 :: rest =>
    let variableHeader := getVariableHeader #v[b0, b1, b2, b3, b4, b5, b6]
    let size := dataSize variableHeader
    let read := min size.toNat rest.length
    ⟨position, variableHeader, size, position + 7 + read⟩ ::
      if malloc size = false ∧ 0 < read then []
      else iterations malloc (position + 7 + read) (rest.drop read)
  | _ => []
termination_by file => file.length
decreasing_by simp only [List.length_drop, List.length_cons]; omega

def payloadLength (variableHeader : AdtsVariableHeader) : Int :=
  variableHeader.aacFrameLength.toNat - 7

structure Iteration.Right (it : Iteration) (fileLength : Nat) : Prop where
  sign : 0 ≤ payloadLength it.variableHeader
  size : (it.size.toNat : Int) = payloadLength it.variableHeader
  next : it.next = min (it.position + it.variableHeader.aacFrameLength.toNat) fileLength

def LengthsRight (malloc : BitVec 64 → Bool) (file : List Byte) : Prop :=
  ∀ it ∈ iterations malloc 0 file, it.Right file.length

def lengthField (b3 b4 b5 : Byte) : Nat := b3.toNat % 4 * 2048 + b4.toNat * 8 + b5.toNat / 32

/-- From header to header, each length field counts at least the header. A payload that gets no memory
    is the last that matters. -/
def LongEnough (malloc : BitVec 64 → Bool) : List Byte → Prop
  | _ :: _ :: _ :: b3 :: b4 :: b5 :: _ :: rest =>
    let payload := lengthField b3 b4 b5 - 7
    7 ≤ lengthField b3 b4 b5 ∧
      (malloc (BitVec.ofNat 64 payload) = false ∧ 0 < min payload rest.length ∨
        LongEnough malloc (rest.drop payload))
  | _ => True
termination_by file => file.length
decreasing_by simp only [List.length_drop, List.length_cons]; omega

theorem iterations_header (malloc : BitVec 64 → Bool) (position : Nat)
    (b0 b1 b2 b3 b4 b5 b6 : Byte) (rest : List Byte) (header : AdtsVariableHeader)
    (read : Nat) (decodes : getVariableHeader #v[b0, b1, b2, b3, b4, b5, b6] = header)
    (reads : min (dataSize header).toNat rest.length = read) :
    iterations malloc position (b0 :: b1 :: b2 :: b3 :: b4 :: b5 :: b6 :: rest) =
      ⟨position, header, dataSize header, position + 7 + read⟩ ::
        if malloc (dataSize header) = false ∧ 0 < read then []
        else iterations malloc (position + 7 + read) (rest.drop read) := by
  rw [iterations]
  simp only [decodes, reads]

theorem iterations_decoded {malloc : BitVec 64 → Bool} {position stop : Nat} {file : List Byte}
    {decoded : List Decoded} (run : mainLoop malloc position file = some (decoded, stop)) :
    (iterations malloc position file).map (fun it => (it.position, it.variableHeader)) =
      decoded.map fun d => (d.offset, d.variableHeader) := by
  fun_induction mainLoop malloc position file generalizing decoded stop with
  | case1 => cases run
  | case2 position b0 b1 b2 b3 b4 b5 b6 rest =>
    rename_i header size read given ih
    simp only [Option.bind_eq_bind, Option.bind_eq_some_iff, Option.pure_def] at run
    obtain ⟨⟨later, stop'⟩, behind, same⟩ := run
    cases same
    rw [iterations_header malloc position b0 b1 b2 b3 b4 b5 b6 rest header read rfl rfl,
      if_neg given, List.map_cons, List.map_cons, ih behind]
  | case3 position short few =>
    cases run
    rw [iterations]
    · rfl
    · exact few

/-! ### The length field -/

theorem header_length (b0 b1 b2 b3 b4 b5 b6 : Byte) :
    (getVariableHeader #v[b0, b1, b2, b3, b4, b5, b6]).aacFrameLength.toNat =
      lengthField b3 b4 b5 := by
  have word : (readAdts #v[b0, b1, b2, b3, b4, b5, b6]).toNat =
      pack byteWidths [b0.toNat, b1.toNat, b2.toNat, b3.toNat, b4.toNat, b5.toNat, b6.toNat] :=
    (readAdts_holds #v[b0, b1, b2, b3, b4, b5, b6]).value
  have field : (getVariableHeader #v[b0, b1, b2, b3, b4, b5, b6]).aacFrameLength.toNat =
      (readAdts #v[b0, b1, b2, b3, b4, b5, b6]).toNat / 2 ^ 13 % 2 ^ 13 :=
    field_toNat _ 13 14 13 (by decide) _ rfl
  have h4 := b4.isLt
  have h5 := b5.isLt
  have h6 := b6.isLt
  rw [field, word]
  simp only [pack, byteWidths, List.replicate, List.sum_cons, List.sum_nil, lengthField]
  omega

theorem dataSize_long {header : AdtsVariableHeader} (long : 7 ≤ header.aacFrameLength.toNat) :
    dataSize header = BitVec.ofNat 64 (header.aacFrameLength.toNat - 7) ∧
      (dataSize header).toNat = header.aacFrameLength.toNat - 7 := by
  have bound := header.aacFrameLength.isLt
  have size : (dataSize header).toNat = header.aacFrameLength.toNat - 7 := by
    simp only [dataSize, BitVec.toNat_sub, BitVec.toNat_setWidth]
    simp
    omega
  refine ⟨?_, size⟩
  rw [← size, BitVec.ofNat_toNat, BitVec.setWidth_eq]

theorem right_iff (header : AdtsVariableHeader) (position : Nat) (rest : List Byte) :
    Iteration.Right
        ⟨position, header, dataSize header, position + 7 + min (dataSize header).toNat rest.length⟩
        (position + (rest.length + 7)) ↔
      7 ≤ header.aacFrameLength.toNat := by
  constructor
  · intro right
    have sign := right.sign
    unfold payloadLength at sign
    dsimp only at sign
    omega
  · intro long
    obtain ⟨_, size⟩ := dataSize_long long
    constructor
    · simp only [payloadLength]
      omega
    · simp only [payloadLength, size]
      omega
    · simp only [size]
      omega

theorem iterations_right_iff (malloc : BitVec 64 → Bool) (position : Nat) (file : List Byte) :
    (∀ it ∈ iterations malloc position file, it.Right (position + file.length)) ↔
      LongEnough malloc file := by
  fun_induction LongEnough malloc file generalizing position with
  | case1 b0 b1 b2 b3 b4 b5 b6 rest =>
    rename_i payload ih
    have field := header_length b0 b1 b2 b3 b4 b5 b6
    rw [iterations_header malloc position b0 b1 b2 b3 b4 b5 b6 rest _ _ rfl rfl]
    generalize getVariableHeader #v[b0, b1, b2, b3, b4, b5, b6] = header at field
    have length : position + (b0 :: b1 :: b2 :: b3 :: b4 :: b5 :: b6 :: rest).length =
        position + (rest.length + 7) := rfl
    rw [length, List.forall_mem_cons, right_iff, field]
    refine and_congr_right fun long => ?_
    obtain ⟨asked, size⟩ := dataSize_long (field ▸ long)
    rw [field] at asked size
    rw [size, asked]
    have dropped : rest.drop (min payload rest.length) = rest.drop payload := by
      by_cases inside : payload ≤ rest.length
      · rw [Nat.min_eq_left inside]
      · rw [Nat.min_eq_right (by omega), List.drop_length, List.drop_eq_nil_of_le (by omega)]
    by_cases refused : malloc (BitVec.ofNat 64 payload) = false ∧ 0 < min payload rest.length
    · rw [if_pos refused]
      simp [refused]
    · rw [if_neg refused, dropped]
      have later := ih (position + 7 + min payload rest.length)
      have same : position + 7 + min payload rest.length + (rest.drop payload).length =
          position + (rest.length + 7) := by
        rw [List.length_drop]
        omega
      rw [same] at later
      exact later.trans (or_iff_right refused).symm
  | case2 short few =>
    rw [iterations]
    · simp
    · exact few

/-- Every payload length is right if and only if every frame that is reached counts its header. -/
theorem lengthsRight_iff (malloc : BitVec 64 → Bool) (file : List Byte) :
    LengthsRight malloc file ↔ LongEnough malloc file := by
  have whole := iterations_right_iff malloc 0 file
  rw [Nat.zero_add] at whole
  exact whole

/-- A header with the frame length 0 asks for 2^64 - 7 bytes. -/
theorem zero_length_wrong :
    ¬ LengthsRight (fun size => decide (size.toNat < 2 ^ 31))
      [0xff, 0xf1, 0x50, 0x80, 0, 0x1f, 0xfc] := by
  intro right
  have first := right _ (by rw [iterations]; exact List.mem_cons_self)
  exact absurd first.sign (by decide)

end Adts
