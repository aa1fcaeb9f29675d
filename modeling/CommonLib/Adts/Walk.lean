import CommonLib.Adts.RoundTrip

/- A file of frames, and the loop of `aac_parse` that walks it. -/
namespace Adts

abbrev Byte := BitVec 8

def frame (payload : List Byte) : List Byte :=
  (convertAdtsHeader2char setFixedHeader
  (setVariableHeader (BitVec.ofNat 32 payload.length))).toList ++
    payload

def adtsFile (payloads : List (List Byte)) : List Byte := payloads.flatMap frame

structure Decoded where
  offset : Nat
  fixedHeader : AdtsFixedHeader
  variableHeader : AdtsVariableHeader
  deriving DecidableEq, Repr

/-- `variable_header.aac_frame_length - 7`: an `int`, converted to `size_t`. -/
def dataSize (variableHeader : AdtsVariableHeader) : BitVec 64 :=
  variableHeader.aacFrameLength.setWidth 64 - 7

/-- The `while` loop of `main`, on what is left of the file behind a position.
    The loop does not check `malloc`: it is `none` when `fread` stores through a null pointer. -/
def mainLoop (malloc : BitVec 64 → Bool) (position : Nat) : List Byte → Option (List Decoded × Nat)
  | b0 :: b1 :: b2 :: b3 :: b4 :: b5 :: b6 :: rest =>
    let buf : Buff := #v[b0, b1, b2, b3, b4, b5, b6]
    let fixedHeader := getFixedHeader buf
    let variableHeader := getVariableHeader buf
    let size := dataSize variableHeader
    let read := min size.toNat rest.length
    if malloc size = false ∧ 0 < read then none
    else do
      let (decoded, stop) ← mainLoop malloc (position + 7 + read) (rest.drop read)
      return (⟨position, fixedHeader, variableHeader⟩ :: decoded, stop)
  | short => some ([], position + short.length)
termination_by file => file.length
decreasing_by simp; omega

def places (position : Nat) : List (List Byte) → List (Nat × Nat)
  | [] => []
  | payload :: payloads =>
    (position, payload.length + 7) :: places (position + payload.length + 7) payloads

/-- The loop decodes one header for each payload, at its place and with its length, up to the end. -/
def WalksFrames (malloc : BitVec 64 → Bool) (payloads : List (List Byte)) : Prop :=
  ∃ decoded, mainLoop malloc 0 (adtsFile payloads) = some (decoded, (adtsFile payloads).length) ∧
    decoded.map (fun d => (d.offset, d.variableHeader.aacFrameLength.toNat)) = places 0 payloads

theorem frame_length (payload : List Byte) : (frame payload).length = payload.length + 7 := by
  simp [frame, Nat.add_comm]

theorem written_length (payload : List Byte) (short : payload.length + 7 < 2 ^ 13) :
    (setVariableHeader (BitVec.ofNat 32 payload.length)).aacFrameLength.toNat =
        payload.length + 7 := by
  have seven : (7 : BitVec 32).toNat = 7 := rfl
  simp only [setVariableHeader, BitVec.toNat_setWidth, BitVec.toNat_add, BitVec.toNat_ofNat, seven]
  omega

theorem written_dataSize (payload : List Byte) (short : payload.length + 7 < 2 ^ 13) :
    (dataSize (setVariableHeader (BitVec.ofNat 32 payload.length))).toNat = payload.length := by
  simp only [dataSize, BitVec.toNat_sub, BitVec.toNat_setWidth, written_length payload short]
  simp
  omega

def decodedFrame (position : Nat) (payload : List Byte) : Decoded :=
  ⟨position, setFixedHeader, setVariableHeader (BitVec.ofNat 32 payload.length)⟩

def decodedFrames (position : Nat) : List (List Byte) → List Decoded
  | [] => []
  | payload :: payloads =>
    decodedFrame position payload :: decodedFrames (position + payload.length + 7) payloads

section Walk
variable {malloc : BitVec 64 → Bool}
  (memory : ∀ size : BitVec 64, size.toNat < 2 ^ 13 → malloc size = true)
include memory

theorem mainLoop_frame {payload : List Byte} (short : payload.length + 7 < 2 ^ 13) (position : Nat)
    (rest : List Byte) :
    mainLoop malloc position (frame payload ++ rest) =
      (mainLoop malloc (position + payload.length + 7) rest).map fun walked =>
        (decodedFrame position payload :: walked.1, walked.2) := by
  have back := headers_read_back setFixedHeader (setVariableHeader (BitVec.ofNat 32 payload.length))
  have size := written_dataSize payload short
  have given := memory _ (show _ < 2 ^ 13 by rw [size]; omega)
  have whole : min payload.length (payload ++ rest).length = payload.length := by simp
  have next : position + 7 + payload.length = position + payload.length + 7 := by omega
  rw [frame, buff_toList, List.append_assoc]
  simp only [List.cons_append, List.nil_append]
  rw [mainLoop]
  simp only [buff_eta, back, given, size, whole, next, List.drop_left, Bool.true_eq_false,
    false_and, if_false]
  cases mainLoop malloc (position + payload.length + 7) rest with
  | none => rfl
  | some walked => rfl

/-- The whole file: its frames one after the other. -/
theorem mainLoop_adtsFile {payloads : List (List Byte)}
    (short : ∀ payload ∈ payloads, payload.length + 7 < 2 ^ 13) (position : Nat) :
    mainLoop malloc position (adtsFile payloads) =
      some (decodedFrames position payloads, position + (adtsFile payloads).length) := by
  induction payloads generalizing position with
  | nil => simp [adtsFile, mainLoop, decodedFrames]
  | cons payload payloads ih =>
    have first := short payload (by simp)
    have later := ih (fun p member => short p (by simp [member])) (position + payload.length + 7)
    have split : adtsFile (payload :: payloads) = frame payload ++ adtsFile payloads := by
      simp [adtsFile]
    rw [split, mainLoop_frame memory first, later]
    simp [decodedFrames, frame_length]
    omega

end Walk

theorem decodedFrames_places {payloads : List (List Byte)}
    (short : ∀ payload ∈ payloads, payload.length + 7 < 2 ^ 13) (position : Nat) :
    (decodedFrames position payloads).map
        (fun d => (d.offset, d.variableHeader.aacFrameLength.toNat)) =
            places position payloads := by
  induction payloads generalizing position with
  | nil => rfl
  | cons payload payloads ih =>
    have first := written_length payload (short payload (by simp))
    have later := ih (fun p member => short p (by simp [member])) (position + payload.length + 7)
    simp only [decodedFrames, List.map_cons, places, later, decodedFrame, first]

theorem places_bound {decoded : List Decoded} {payloads : List (List Byte)} {position : Nat}
    (same : decoded.map (fun d => (d.offset, d.variableHeader.aacFrameLength.toNat)) =
      places position payloads) :
    ∀ payload ∈ payloads, payload.length + 7 < 2 ^ 13 := by
  induction payloads generalizing decoded position with
  | nil => simp
  | cons payload payloads ih =>
    cases decoded with
    | nil => simp [places] at same
    | cons d decoded =>
      simp only [List.map_cons, places, List.cons.injEq, Prod.mk.injEq] at same
      intro p member
      rcases List.mem_cons.mp member with here | later
      · have bound := d.variableHeader.aacFrameLength.isLt
        rw [here]
        omega
      · exact ih same.2 p later

/-- The loop walks the file frame by frame if and only if each length fits into its field. -/
theorem walksFrames_iff (malloc : BitVec 64 → Bool)
    (memory : ∀ size : BitVec 64, size.toNat < 2 ^ 13 → malloc size = true)
    (payloads : List (List Byte)) :
    WalksFrames malloc payloads ↔ ∀ payload ∈ payloads, payload.length ≤ 8184 := by
  constructor
  · rintro ⟨decoded, _, same⟩ payload member
    have bound := places_bound same payload member
    omega
  · intro fits
    have short : ∀ payload ∈ payloads, payload.length + 7 < 2 ^ 13 := by
      intro payload member
      have bound := fits payload member
      omega
    have run := mainLoop_adtsFile memory short 0
    rw [Nat.zero_add] at run
    exact ⟨decodedFrames 0 payloads, run, decodedFrames_places short 0⟩

theorem three_walked : WalksFrames (fun size => decide (size.toNat < 2 ^ 31))
    [[0x21, 0x10], [], [0x05]] := by
  refine (walksFrames_iff _ ?_ _).mpr (by simp)
  intro size small
  exact decide_eq_true (by omega)

/-- The frame length of 8185 bytes is written as zero. -/
theorem long_not_walked :
    ¬ WalksFrames (fun size => decide (size.toNat < 2 ^ 31)) [List.replicate 8185 0] := by
  rintro ⟨decoded, _, same⟩
  have bound := places_bound same (List.replicate 8185 0) (List.mem_singleton_self _)
  rw [List.length_replicate] at bound
  omega

end Adts
