import CommonLib.UsbPipe.Calls
import Mathlib.Data.List.GetD
import Mathlib.Algebra.Group.Int.Defs

/- The lengths that the listening thread works with when it handles what a `read` on the pipe
   returned. -/
namespace UsbPipe

/-- What `read` gives `as_usbpipe_recv`: -1, or at most as many bytes as the buffer has. -/
inductive ReadResult where
  | failed
  | got (bytes : List UInt8) (fits : bytes.length ≤ maxSize)

def asInt (w : UInt32) : Int := if w.toNat < 2 ^ 31 then w.toNat else w.toNat - 2 ^ 32

inductive Use where
  /-- `memcpy` over the struct -/
  | copy (len : Int)
  /-- the terminator stored in the data array -/
  | terminate (place : Int)
  /-- the string printed from the data array -/
  | print (len : Int)
  /-- the node's `malloc` and `memcpy` -/
  | queue (len : Int)
  /-- the callback's argument -/
  | handle (len : Int)
  deriving DecidableEq, Repr

/-- What is done with a response: nothing after a terminator that leaves the struct. -/
def responseUses (msg : Message) : List Use :=
  let len := asInt msg.dateLen
  .terminate len ::
    if 0 ≤ len ∧ len < maxSize then [.print (msg.payload.takeWhile (· ≠ 0)).length,
      .queue len] else []

def listenUses (bound : Bool) : ReadResult → List Use
  -- The length -1 is converted for `memcpy`.
  | .failed => [.copy (-1)]
  | .got bytes _ =>
    let msg := zwUptpRecive bytes .zero
    .copy bytes.length ::
      if MSG_TYPE_RESPONSE = msg.msgType then responseUses msg
      else if MSG_TYPE_REQUEST = msg.msgType then
        if bound then [.handle (asInt msg.dateLen)] else []
      else []

def ReadResult.received : ReadResult → Nat
  | .failed => 0
  | .got bytes _ => bytes.length

/-- Only what was received is used: all of it by the copy, the bytes after the header by the
    rest, whose lengths fit the data array. -/
def Use.Within (received : Nat) : Use → Prop
  | .copy len => 0 ≤ len ∧ len ≤ received ∧ len ≤ 16 + maxSize
  | .terminate place => 0 ≤ place ∧ place ≤ (received - 16 : Nat) ∧ place < maxSize
  | .print len => 0 ≤ len ∧ len ≤ (received - 16 : Nat) ∧ len ≤ maxSize
  | .queue len => 0 ≤ len ∧ len ≤ (received - 16 : Nat) ∧ len ≤ maxSize
  | .handle len => 0 ≤ len ∧ len ≤ (received - 16 : Nat) ∧ len ≤ maxSize

def headerWord (bytes : List UInt8) (place : Nat) : UInt32 := wordAt (fun i => bytes.getD i 0) place

/-- The read has not failed, and a message whose data is used claims no more of it than came. -/
def ReadResult.Honest (bound : Bool) : ReadResult → Prop
  | .failed => False
  | .got bytes _ =>
    headerWord bytes 4 = MSG_TYPE_RESPONSE ∨ headerWord bytes 4 = MSG_TYPE_REQUEST ∧ bound = true →
      0 ≤ asInt (headerWord bytes 12) ∧ asInt (headerWord bytes 12) ≤ (bytes.length - 16 : Nat)

theorem recive_memory (bytes : List UInt8) (i : Nat) :
    (if i < bytes.length then bytes.getD i 0 else Message.zero.memory i) = bytes.getD i 0 := by
  split
  · rfl
  · rename_i past
    rw [memory_zero, List.getD_eq_default _ _ (not_lt.mp past)]

theorem recive_words (bytes : List UInt8) :
    (zwUptpRecive bytes .zero).msgType = headerWord bytes 4 ∧
      (zwUptpRecive bytes .zero).dateLen = headerWord bytes 12 := by
  unfold zwUptpRecive Message.ofMemory headerWord
  simp only [recive_memory, and_self]

theorem asInt_toNat {w : UInt32} (pos : 0 ≤ asInt w) : asInt w = w.toNat := by
  have wide := w.toNat_lt
  unfold asInt at pos ⊢
  split
  · rfl
  · rename_i negative
    rw [if_neg negative] at pos
    omega

/-- A message that claims no more than came keeps to it in everything done with its data. -/
theorem data_within {received : Nat} (fits : received ≤ maxSize) {len : Int}
    (high : len ≤ (received - 16 : Nat)) : len < maxSize ∧ len ≤ maxSize := by
  have room : 16 < maxSize := by decide
  omega

theorem payload_length (msg : Message) : msg.payload.length = msg.dateLen.toNat := by
  unfold Message.payload
  rw [List.length_map, List.length_range]

theorem print_within {msg : Message} (low : 0 ≤ asInt msg.dateLen) :
    ((msg.payload.takeWhile (· ≠ 0)).length : Int) ≤ asInt msg.dateLen := by
  have short := (List.takeWhile_prefix (· ≠ (0 : UInt8)) : _ <+: msg.payload).length_le
  rw [payload_length] at short
  have same := asInt_toNat low
  omega

theorem responseUses_of_inside {msg : Message} (low : 0 ≤ asInt msg.dateLen)
    (below : asInt msg.dateLen < maxSize) :
    responseUses msg =
      [.terminate (asInt msg.dateLen), .print (msg.payload.takeWhile (· ≠ 0)).length,
          .queue (asInt msg.dateLen)] := by
  simp only [responseUses]
  rw [if_pos ⟨low, below⟩]

theorem response_within {bytes : List UInt8} (fits : bytes.length ≤ maxSize) {msg : Message} :
    (∀ use ∈ responseUses msg, use.Within bytes.length) ↔
      0 ≤ asInt msg.dateLen ∧ asInt msg.dateLen ≤ (bytes.length - 16 : Nat) := by
  constructor
  · intro within
    have ended := within _ List.mem_cons_self
    exact ⟨ended.1, ended.2.1⟩
  · intro claimed
    obtain ⟨low, high⟩ := claimed
    obtain ⟨below, atMost⟩ := data_within fits high
    have printed := print_within low
    rw [responseUses_of_inside low below, List.forall_mem_cons, List.forall_mem_cons,
      List.forall_mem_singleton]
    refine ⟨⟨low, high, below⟩, ⟨Int.natCast_nonneg _, ?_, ?_⟩, ⟨low, high, atMost⟩⟩
    · exact Int.le_trans printed high
    · exact Int.le_trans printed atMost

/-- The listening thread keeps to what it received just when the read is honest. -/
theorem listen_within_iff (bound : Bool) (read : ReadResult) :
    (∀ use ∈ listenUses bound read, use.Within read.received) ↔ read.Honest bound := by
  cases read with
  | failed =>
    refine iff_of_false (fun within => ?_) id
    exact absurd (within (.copy (-1)) List.mem_cons_self).1 (by decide)
  | got bytes fits =>
    obtain ⟨type, dateLen⟩ := recive_words bytes
    have copied : (Use.copy bytes.length).Within bytes.length := by
      unfold Use.Within
      omega
    simp only [listenUses, ReadResult.Honest, ReadResult.received]
    rw [List.forall_mem_cons, and_iff_right copied, ← type, ← dateLen]
    generalize zwUptpRecive bytes .zero = msg
    by_cases response : MSG_TYPE_RESPONSE = msg.msgType
    · rw [if_pos response, response_within fits]
      simp only [response, true_or, forall_const]
    · by_cases request : MSG_TYPE_REQUEST = msg.msgType
      · rw [if_neg response, if_pos request]
        cases bound with
        | false => simp [Ne.symm response]
        | true =>
          rw [if_pos rfl, List.forall_mem_singleton]
          constructor
          · intro within _
            exact ⟨within.1, within.2.1⟩
          · intro claimed
            obtain ⟨low, high⟩ := claimed (.inr ⟨request.symm, rfl⟩)
            exact ⟨low, high, (data_within fits high).2⟩
      · rw [if_neg response, if_neg request]
        simp [Ne.symm response, Ne.symm request]

/-- A response of a header alone that claims 16777215 bytes, and a read that fails. -/
theorem listen_strays :
    (¬ ∀ use ∈ listenUses true
        (.got [0x50, 0x49, 0x50, 0x45, 1, 0, 0, 0, 0, 0, 0, 0, 0xFF, 0xFF, 0xFF,
        0] (by decide)), use.Within 16) ∧
      ¬ ∀ use ∈ listenUses true .failed, use.Within 0 := by
  constructor
  · intro within
    exact absurd (within (.terminate 16777215) (by decide)).2.1 (by decide)
  · intro within
    exact absurd (within (.copy (-1)) (by decide)).1 (by decide)

def Outcome.use : Outcome → Option Use
  | .queued _ data => some (.queue data.length)
  | .handled _ len => some (.handle (asInt len))
  | .dropped => none

theorem outcome_used {bound : Bool} {bytes : List UInt8} {fits : bytes.length ≤ maxSize}
    (honest : (ReadResult.got bytes fits).Honest bound) {use : Use}
    (used : (fxnListenThread bound (zwUptpRecive bytes .zero)).use = some use) :
    use ∈ listenUses bound (.got bytes fits) := by
  obtain ⟨type, dateLen⟩ := recive_words bytes
  simp only [ReadResult.Honest, ← type, ← dateLen] at honest
  simp only [listenUses]
  apply List.mem_cons_of_mem
  generalize zwUptpRecive bytes .zero = msg at honest used ⊢
  unfold fxnListenThread at used
  by_cases response : MSG_TYPE_RESPONSE = msg.msgType
  · obtain ⟨low, high⟩ := honest (.inl response.symm)
    have below := (data_within fits high).1
    rw [if_pos response] at used
    obtain rfl := Option.some.inj used
    rw [if_pos response, payload_length, ← asInt_toNat low]
    rw [responseUses_of_inside low below]
    exact List.mem_cons_of_mem _ (List.mem_cons_of_mem _ (List.mem_singleton_self _))
  · rw [if_neg response] at used ⊢
    by_cases request : MSG_TYPE_REQUEST = msg.msgType
    · rw [if_pos request] at used ⊢
      cases bound with
      | false => exact nomatch used
      | true =>
        obtain rfl := Option.some.inj used
        exact List.mem_singleton_self _
    · rw [if_neg request] at used
      exact nomatch used

end UsbPipe
