import CommonLib.TinyFrame.Send
import CommonLib.TinyFrame.Receive

/- The bytes that reach `TF_WriteImpl`: the chunks are put together to one frame, wherever the
   send buffer is flushed. -/
namespace TinyFrame

def memory (buff : Nat → UInt8) (n : Nat) : List UInt8 := (List.range n).map buff

def Port.output (p : Port) : List UInt8 := p.written.flatten ++ memory p.tf.sendbuf p.tf.txPos

@[simp] theorem memory_length (buff : Nat → UInt8) (n : Nat) : (memory buff n).length = n := by
  simp [memory]

theorem memory_add (buff : Nat → UInt8) (n m : Nat) :
    memory buff (n + m) = memory buff n ++ memory (fun i => buff (n + i)) m := by
  simp [memory, List.range_add]

theorem memory_update {buff : Nat → UInt8} {n i : Nat} (b : UInt8) (outside : n ≤ i) :
    memory (Function.update buff i b) n = memory buff n := by
  apply List.map_congr_left
  intro j hj
  have := List.mem_range.mp hj
  rw [Function.update_of_ne (by omega)]

theorem memory_putBytes (bytes : List UInt8) (buf : Nat → UInt8) (pos : Nat) :
    memory (putBytes buf pos bytes) (pos + bytes.length) = memory buf pos ++ bytes := by
  induction bytes generalizing buf pos with
  | nil => simp [putBytes]
  | cons b bytes ih =>
    have place : pos + (b :: bytes).length = pos + 1 + bytes.length := by
      rw [List.length_cons]
      omega
    have one : memory (Function.update buf pos b) (pos + 1) = memory buf pos ++ [b] := by
      rw [memory_add, memory_update b (Nat.le_refl pos)]
      simp [memory]
    rw [putBytes, place, ih, one, List.append_assoc, List.singleton_append]

/-! ### Chunks -/

structure Chunked (p q : Port) (bytes : List UInt8) : Prop where
  output : q.output = p.output ++ bytes
  room : q.tf.txPos < sendbufLen
  cksum : q.tf.txCksum = bytes.foldl cksumAdd p.tf.txCksum
  frame : ∃ buf pos ck, q.tf = { p.tf with sendbuf := buf, txPos := pos, txCksum := ck }

theorem Chunked.refl {p : Port} (room : p.tf.txPos < sendbufLen) : Chunked p p [] :=
  ⟨(List.append_nil _).symm, room, rfl, _, _, _, rfl⟩

theorem Chunked.trans {p q r : Port} {a b : List UInt8} (first : Chunked p q a)
    (second : Chunked q r b) : Chunked p r (a ++ b) := by
  obtain ⟨buf, pos, ck, left⟩ := first.frame
  obtain ⟨buf', pos', ck', right⟩ := second.frame
  constructor
  · rw [second.output, first.output, List.append_assoc]
  · exact second.room
  · rw [second.cksum, first.cksum, List.foldl_append]
  · exact ⟨buf', pos', ck', by rw [right, left]⟩

theorem chunkTurn_chunked {p : Port} (buff : Nat → UInt8) {chunk : Nat}
    (fits : p.tf.txPos + chunk ≤ sendbufLen) : Chunked p (chunkTurn p buff chunk)
        (memory buff chunk) := by
  have small : chunk % 2 ^ 16 = chunk := by
    unfold sendbufLen at fits
    omega
  have stored : memory (putBytes p.tf.sendbuf p.tf.txPos (memory buff chunk)) (p.tf.txPos + chunk) =
      memory p.tf.sendbuf p.tf.txPos ++ memory buff chunk := by
    have := memory_putBytes (memory buff chunk) p.tf.sendbuf p.tf.txPos
    rwa [memory_length] at this
  have bytes : (List.range chunk).map buff = memory buff chunk := rfl
  unfold chunkTurn composeBody
  simp only [small, bytes, memory_length]
  split
  · rename_i full
    constructor
    · have flushed : (List.range (p.tf.txPos + chunk)).map
          (putBytes p.tf.sendbuf p.tf.txPos (memory buff chunk)) = _ := stored
      simp [Port.output, writeImpl, flushed]
      simp [memory]
    · simp [sendbufLen]
    · rfl
    · exact ⟨_, _, _, rfl⟩
  · rename_i more
    constructor
    · simp [Port.output, stored]
    · have : p.tf.txPos + chunk ≠ sendbufLen := more
      simp only
      omega
    · rfl
    · exact ⟨_, _, _, rfl⟩

theorem chunkLoop_chunked (buff : Nat → UInt8) (fuel : Nat) (p : Port) (remain sent : Nat)
    (enough : remain ≤ fuel) (room : p.tf.txPos < sendbufLen) :
    ∃ q, chunkLoop buff fuel p remain sent = some q ∧
      Chunked p q (memory (fun i => buff (sent + i)) remain) := by
  induction fuel generalizing p remain sent with
  | zero =>
    obtain rfl : remain = 0 := by omega
    exact ⟨p, rfl, Chunked.refl room⟩
  | succ fuel ih =>
    cases remain with
    | zero => exact ⟨p, rfl, Chunked.refl room⟩
    | succ left =>
      have some : 0 < min (sendbufLen - p.tf.txPos) (left + 1) := by omega
      have step : ∀ n, min (sendbufLen - p.tf.txPos) (left + 1) = n →
          chunkLoop buff (fuel + 1) p (left + 1) sent =
            chunkLoop buff fuel (chunkTurn p (fun i => buff (sent + i)) n) (left + 1 - n) (sent + n) := by
        intro n cut
        subst cut
        rfl
      generalize cut : min (sendbufLen - p.tf.txPos) (left + 1) = chunk at some
      have fits : p.tf.txPos + chunk ≤ sendbufLen := by omega
      have turn := chunkTurn_chunked (fun i => buff (sent + i)) fits
      obtain ⟨q, loop, rest⟩ := ih (chunkTurn p (fun i => buff (sent + i)) chunk) (left + 1 - chunk)
        (sent + chunk) (by omega) turn.room
      have whole : left + 1 = chunk + (left + 1 - chunk) := by omega
      refine ⟨q, (step chunk cut).trans loop, ?_⟩
      rw [whole, memory_add]
      simp only [← Nat.add_assoc]
      exact turn.trans rest

theorem sendFrameChunk_chunked {p : Port} (buff : Nat → UInt8) (length : Nat)
    (room : p.tf.txPos < sendbufLen) :
    ∃ q, sendFrameChunk p buff length = some q ∧ Chunked p q (memory buff length) := by
  obtain ⟨q, loop, chunked⟩ := chunkLoop_chunked buff length p length 0 (Nat.le_refl length) room
  simp only [Nat.zero_add] at chunked
  exact ⟨q, loop, chunked⟩

/-! ### The ends of a frame -/

theorem sendFrameBegin_locked {tf : TinyFrame} (locked : tf.softLock = true) (msg : Msg)
    (listener : Option Nat) (timeout : UInt16) :
    tf.sendFrameBegin msg listener timeout = (tf, msg, false) := by
  simp [sendFrameBegin, claimTx, locked]

theorem sendFrame_locked {p : Port} (locked : p.tf.softLock = true) (msg : Msg)
    (listener : Option Nat) (timeout : UInt16) :
    sendFrame p msg listener timeout = some ⟨p, msg, false⟩ := by
  simp [sendFrame, sendFrameBegin_locked locked]

def headOf (tf : TinyFrame) (msg : Msg) : Head := ⟨(tf.genId msg).2, msg.len, msg.type⟩

def SlotFree (tf : TinyFrame) : Prop := ∃ i < maxIdLst, (tf.idListeners i).fn = none

instance (tf : TinyFrame) : Decidable tf.SlotFree := by
  unfold SlotFree
  infer_instance

theorem addIdListener_full {tf : TinyFrame} (full : ¬ tf.SlotFree) (msg : Msg) (cb : Option Nat)
    (timeout : UInt16) : tf.addIdListener msg cb timeout = (tf, false) := by
  unfold addIdListener
  split
  · rfl
  · rename_i i found
    obtain ⟨small, empty⟩ := firstIndex_some found
    exact absurd ⟨i, small, Option.isNone_iff_eq_none.mp empty⟩ full

theorem addIdListener_added {tf : TinyFrame} (free : tf.SlotFree) (msg : Msg) (cb : Option Nat)
    (timeout : UInt16) : ∃ table count, tf.addIdListener msg cb timeout =
      ({ tf with idListeners := table, countIdLst := count }, true) := by
  unfold addIdListener
  split
  · rename_i none
    obtain ⟨i, small, empty⟩ := free
    have taken := firstIndex_none.mp none i small
    rw [empty] at taken
    exact absurd taken (by decide)
  · exact ⟨_, _, rfl⟩

def headed (tf : TinyFrame) (msg : Msg) : TinyFrame :=
  { tf with
    softLock := true
    nextId := (tf.genId msg).1.nextId
    sendbuf := putBytes tf.sendbuf 0 ((headOf tf msg).bytes ++ [(headOf tf msg).cksum])
    txPos := 8
    txLen := msg.len.toNat }

def resolved (tf : TinyFrame) (msg : Msg) : Msg := { msg with frameId := (headOf tf msg).id }

theorem sendFrameBegin_free {tf : TinyFrame} (free : tf.softLock = false) (msg : Msg)
    (listener : Option Nat) (timeout : UInt16) :
    tf.sendFrameBegin msg listener timeout =
      match listener with
      | none => ({ tf.headed msg with txCksum := cksumStart }, tf.resolved msg, true)
      | some cb =>
        match (tf.headed msg).addIdListener (tf.resolved msg) (some cb) timeout with
        | (tf', false) => (tf', tf.resolved msg, false)
        | (tf', true) => ({ tf' with txCksum := cksumStart }, tf.resolved msg, true) := by
  have claim : tf.claimTx = ({ tf with softLock := true }, true) := by simp [claimTx, free]
  unfold sendFrameBegin
  rw [claim]
  unfold composeHead
  cases response : msg.isResponse with
  | true =>
    simp only [headed, resolved, headOf, genId, response, ↓reduceIte]
    rfl
  | false =>
    simp only [headed, resolved, headOf, genId, response, Bool.false_eq_true, ↓reduceIte]
    rfl

/-- A frame is open: its head, which may have been flushed already, and `body` of its payload. -/
structure Open (p q : Port) (h : Head) (body : List UInt8) : Prop where
  output : q.output = p.written.flatten ++ (h.bytes ++ h.cksum :: body)
  room : q.tf.txPos < sendbufLen
  cksum : q.tf.txCksum = body.foldl cksumAdd cksumStart
  length : q.tf.txLen = h.len.toNat
  lock : q.tf.softLock = true

theorem sendFrameBegin_open {p : Port} (msg : Msg) (listener : Option Nat) (timeout : UInt16)
    (free : p.tf.softLock = false) (slot : listener = none ∨ p.tf.SlotFree) :
    ∃ tf, p.tf.sendFrameBegin msg listener timeout = (tf, p.tf.resolved msg, true) ∧
      Open p { p with tf := tf } (headOf p.tf msg) [] := by
  have stored := memory_putBytes ((headOf p.tf msg).bytes ++
    [(headOf p.tf msg).cksum]) p.tf.sendbuf 0
  have opened : ∀ table count, Open p
      { p with tf := { p.tf.headed msg with
          txCksum := cksumStart, idListeners := table, countIdLst := count } }
              (headOf p.tf msg) [] := by
    intro table count
    constructor
    · exact congrArg (p.written.flatten ++ ·) stored
    · show 8 < sendbufLen
      decide
    · rfl
    · rfl
    · rfl
  rw [sendFrameBegin_free free]
  cases listener with
  | none => exact ⟨_, rfl, opened _ _⟩
  | some cb =>
    have free : p.tf.SlotFree := by simpa using slot
    have free : (p.tf.headed msg).SlotFree := free
    obtain ⟨table, count, added⟩ := addIdListener_added free (p.tf.resolved msg) (some cb) timeout
    simp only [added]
    exact ⟨_, rfl, opened table count⟩

/-- A full table: the frame is given up, and the lock stays taken. -/
theorem sendFrameBegin_full {tf : TinyFrame} (free : tf.softLock = false) (full : ¬ tf.SlotFree)
    (msg : Msg) (cb : Nat) (timeout : UInt16) :
    tf.sendFrameBegin msg (some cb) timeout = (tf.headed msg, tf.resolved msg, false) := by
  have full : ¬ (tf.headed msg).SlotFree := full
  rw [sendFrameBegin_free free]
  simp only [addIdListener_full full]

theorem Open.chunk {p q r : Port} {h : Head} {body bytes : List UInt8} (opened : Open p q h body)
    (chunked : Chunked q r bytes) : Open p r h (body ++ bytes) := by
  obtain ⟨buf, pos, ck, same⟩ := chunked.frame
  constructor
  · rw [chunked.output, opened.output]
    simp
  · exact chunked.room
  · rw [chunked.cksum, opened.cksum, List.foldl_append]
  · rw [same]
    exact opened.length
  · rw [same]
    exact opened.lock

theorem Open.close {p q : Port} {h : Head} {body : List UInt8} (opened : Open p q h body)
    (full : body.length = h.len.toNat) :
    (sendFrameEnd q).written.flatten = p.written.flatten ++ frameBytes h body ∧
      (sendFrameEnd q).tf.softLock = false := by
  have room := opened.room
  have waiting : q.written.flatten ++ memory q.tf.sendbuf q.tf.txPos =
      p.written.flatten ++ (h.bytes ++ h.cksum :: body) := opened.output
  constructor
  · unfold sendFrameEnd frameBytes
    by_cases empty : body = []
    · have none : q.tf.txLen = 0 := by
        rw [opened.length, ← full, empty]
        rfl
      rw [empty] at waiting
      have flushed : q.written.flatten ++ (List.range q.tf.txPos).map q.tf.sendbuf =
          p.written.flatten ++ (h.bytes ++ [h.cksum]) := waiting
      simp [none, writeImpl, empty, flushed]
    · have some : 0 < q.tf.txLen := by
        rw [opened.length, ← full]
        exact List.length_pos_iff.mpr empty
      have fits : ¬ sendbufLen - q.tf.txPos < 1 := by omega
      have stored := memory_putBytes [cksumEnd q.tf.txCksum] q.tf.sendbuf q.tf.txPos
      have flushed : q.written.flatten ++ (List.range (q.tf.txPos + 1)).map
          (putBytes q.tf.sendbuf q.tf.txPos [cksumEnd q.tf.txCksum]) =
          p.written.flatten ++ (h.bytes ++ h.cksum :: (body ++ [cksumOf body])) := by
        have cksum : cksumEnd q.tf.txCksum = cksumOf body := congrArg cksumEnd opened.cksum
        rw [cksum] at stored ⊢
        have whole := congrArg (q.written.flatten ++ ·) stored
        rw [← List.append_assoc, waiting] at whole
        apply whole.trans
        simp
      simp [some, fits, composeTail, writeImpl, empty, flushed]
  · rfl

/-! ### Whole frames -/

theorem sendFrame_sent {p : Port} {msg : Msg} (listener : Option Nat) (timeout : UInt16)
    (data : Nat → UInt8) (piece : msg.data = some data) (free : p.tf.softLock = false)
    (slot : listener = none ∨ p.tf.SlotFree) :
    ∃ q, sendFrame p msg listener timeout = some ⟨q, p.tf.resolved msg, true⟩ ∧
      q.written.flatten = p.written.flatten ++
        frameBytes (headOf p.tf msg) (memory data msg.len.toNat) ∧ q.tf.softLock = false := by
  obtain ⟨tf, begun, opened⟩ := sendFrameBegin_open msg listener timeout free slot
  have room : tf.txPos < sendbufLen := opened.room
  obtain ⟨r, chunk, chunked⟩ := sendFrameChunk_chunked
    (p := ⟨tf, p.written⟩) data msg.len.toNat room
  have body := opened.chunk chunked
  rw [List.nil_append] at body
  obtain ⟨written, lock⟩ := body.close (memory_length data msg.len.toNat)
  refine ⟨sendFrameEnd r, ?_, written, lock⟩
  unfold sendFrame
  have carried : (p.tf.resolved msg).data = some data := piece
  have length : (p.tf.resolved msg).len = msg.len := rfl
  simp only [begun, carried, length, chunk]

theorem sendFrame_empty {p : Port} {msg : Msg} (listener : Option Nat) (timeout : UInt16)
    (empty : msg.len = 0) (free : p.tf.softLock = false) (slot : listener = none ∨ p.tf.SlotFree) :
    ∃ q, sendFrame p msg listener timeout = some ⟨q, p.tf.resolved msg, true⟩ ∧
      q.written.flatten = p.written.flatten ++ frameBytes (headOf p.tf msg) [] ∧
        q.tf.softLock = false := by
  cases piece : msg.data with
  | some data =>
    obtain ⟨q, sent, written, lock⟩ := sendFrame_sent listener timeout data piece free slot
    rw [empty] at written
    exact ⟨q, sent, written, lock⟩
  | none =>
    obtain ⟨tf, begun, opened⟩ := sendFrameBegin_open msg listener timeout free slot
    have none : (headOf p.tf msg).len = 0 := empty
    obtain ⟨written, lock⟩ := opened.close (by rw [none]; rfl)
    refine ⟨sendFrameEnd ⟨tf, p.written⟩, ?_, written, lock⟩
    unfold sendFrame
    have carried : (p.tf.resolved msg).data = Option.none := piece
    have length : (p.tf.resolved msg).len = 0 := empty
    simp only [begun, carried, length, ↓reduceIte]

/-- A null pointer with a length opens a frame and leaves it open. -/
theorem sendFrame_opened {p : Port} {msg : Msg} (listener : Option Nat) (timeout : UInt16)
    (piece : msg.data = none) (long : msg.len ≠ 0) (free : p.tf.softLock = false)
    (slot : listener = none ∨ p.tf.SlotFree) :
    ∃ q, sendFrame p msg listener timeout = some ⟨q, p.tf.resolved msg, true⟩ ∧
      Open p q (headOf p.tf msg) [] := by
  obtain ⟨tf, begun, opened⟩ := sendFrameBegin_open msg listener timeout free slot
  refine ⟨⟨tf, p.written⟩, ?_, opened⟩
  unfold sendFrame
  have carried : (p.tf.resolved msg).data = none := piece
  have length : (p.tf.resolved msg).len ≠ 0 := long
  simp only [begun, carried, length, ↓reduceIte]

end TinyFrame
