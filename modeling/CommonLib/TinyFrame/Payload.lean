import CommonLib.TinyFrame.Soundness

/- The payload state: its index stays below the declared length, and its stores inside the
   data array. -/
namespace TinyFrame
open Stream
variable {tf : TinyFrame} {p : Phase}

theorem Reads.after (reads : Reads tf p) (early : tf.parserTimeoutTicks < parserTimeout)
    (bytes : List UInt8) : Reads (after acceptChar tf bytes) (after Phase.next p bytes) := by
  induction bytes generalizing tf p with
  | nil => exact reads
  | cons c bytes ih =>
    have cleared := clearTimeout_early reads early
    refine ih (follows c cleared).1 ?_
    unfold acceptChar
    rw [parseChar_ticks]
    exact (by decide : (0 : UInt16) < parserTimeout)

/-- A parser in `TFState_DATA` that can store the next byte and will come to the last one. -/
structure PayloadBound (tf : TinyFrame) : Prop where
  short : tf.rxi < tf.len
  fits : tf.discardData = false → tf.len ≤ maxPayloadRx
  store : tf.discardData = false → tf.rxi.toNat < maxPayloadRx.toNat
  /-- The increment does not wrap. -/
  count : (tf.rxi + 1).toNat = tf.rxi.toNat + 1
  /-- So many bytes that come in time make `rxi == len`. -/
  ends : tf.parserTimeoutTicks < parserTimeout → ∀ bytes : List UInt8,
    bytes.length = tf.len.toNat - tf.rxi.toNat → (after acceptChar tf bytes).state = .DATA_CKSUM

theorem Reads.payloadBound (reads : Reads tf p) (state : tf.state = .DATA) : PayloadBound tf := by
  cases reads with
  | idle other => exact nomatch state.symm.trans other
  | header got short other rxi cksum keep id len type =>
    rw [state] at other
    split at other
    · exact nomatch other
    · split at other
      · exact nomatch other
      · exact nomatch other
  | check head other rxi cksum keep fields some => exact nomatch state.symm.trans other
  | tail head ck body other rxi filled full discard stored fields =>
    exact nomatch state.symm.trans other
  | payload head ck body state rxi short discard stored fields =>
    have length : tf.len = head.len := congrArg Head.len fields
    have wide := head.len.toNat_lt
    have fits : tf.discardData = false → tf.len ≤ maxPayloadRx := by
      intro off
      rw [off] at discard
      rw [length]
      exact UInt16.not_lt.mp (of_decide_eq_false discard.symm)
    constructor
    · rw [UInt16.lt_iff_toNat_lt, rxi, length]
      exact short
    · exact fits
    · intro off
      have small := UInt16.le_iff_toNat_le.mp (fits off)
      rw [length] at small
      omega
    · rw [UInt16.toNat_add, rxi]
      simp only [UInt16.toNat_one]
      omega
    · intro early bytes left
      rw [length, rxi] at left
      have some : bytes ≠ [] := by
        rintro rfl
        rw [List.length_nil] at left
        omega
      have run := (Reads.payload head ck body state rxi short discard stored fields).after early bytes
      rw [(body_run 0 ck some (by omega)).1] at run
      cases run with
      | tail _ _ _ state => exact state

/-- Only a payload byte that is not discarded is stored. -/
theorem parseChar_data (tf : TinyFrame) (c : UInt8) : (tf.parseChar c).1.data =
    if tf.state = .DATA ∧ tf.discardData =
        false then Function.update tf.data tf.rxi.toNat c else tf.data := by
  by_cases state : tf.state = .DATA
  · rw [parseChar_payload c state]
    cases tf.discardData with
    | true => simp
    | false => simp [state]
  · rw [if_neg fun both => state both.1]
    unfold parseChar
    cases at_ : tf.state with
    | DATA => exact absurd at_ state
    | SOF =>
      simp only
      split
      · rfl
      · rfl
    | ID =>
      simp only
      split
      · rfl
      · rfl
    | LEN =>
      simp only
      split
      · rfl
      · rfl
    | TYPE =>
      simp only
      split
      · split
        · rfl
        · rfl
      · rfl
    | HEAD_CKSUM =>
      simp only
      split
      · split
        · split
          · rfl
          · rfl
        · split
          · rfl
          · rfl
      · rfl
    | DATA_CKSUM =>
      simp only
      split
      · rfl
      · rfl

theorem clearTimeout_data (tf : TinyFrame) : tf.clearTimeout.data = tf.data := by
  unfold clearTimeout
  split
  · split
    · rfl
    · rfl
  · rfl

theorem Reads.acceptChar_data (reads : Reads tf p) (c : UInt8) {i : Nat}
    (outside : maxPayloadRx.toNat ≤ i) :
    (tf.acceptChar c).1.data i = tf.data i := by
  unfold acceptChar
  rw [parseChar_data, clearTimeout_data]
  split
  · rename_i stores
    have bound : PayloadBound tf.clearTimeout := by
      rcases clearTimeout_reads reads with same | given
      · exact same.payloadBound stores.1
      · exact given.payloadBound stores.1
    have inside := bound.store stores.2
    exact Function.update_of_ne (by omega) _ _
  · rfl

/-- Over any bytes, ticks and resets: the payload state is within its bounds, and no byte is
    stored past the data array. -/
theorem payload_stays_inside (peerBit : Bool) (events : List Event) :
    ((Watch.run peerBit events).tf.state = .DATA → PayloadBound (Watch.run peerBit events).tf) ∧
      ∀ c i, maxPayloadRx.toNat ≤ i →
        ((Watch.run peerBit events).tf.acceptChar c).1.data i =
            (Watch.run peerBit events).tf.data i := by
  obtain ⟨p, tracks⟩ := Watch.run_tracks peerBit events
  exact ⟨tracks.reads.payloadBound, fun c i outside => tracks.reads.acceptChar_data c outside⟩

theorem payload_stays_inside_sample :
    PayloadBound (Watch.run false ([1, 0, 7, 255, 255, 1, 2, 3, 9].map .byte)).tf :=
  (payload_stays_inside false _).1 (by decide +kernel)

end TinyFrame
