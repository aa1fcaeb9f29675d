import CommonLib.TinyFrame.Wire
import CommonLib.TinyFrame.Parser

/- The transmit lock over whole programs: who holds it, and when a refused send gives it back. -/
namespace TinyFrame
open Stream

inductive Call where
  | send (msg : Msg) (listener : Option Nat) (timeout : UInt16)
  | payload (buff : Nat → UInt8) (length : Nat)
  | close
  | addIdListener (msg : Msg) (cb : Option Nat) (timeout : UInt16)
  | addTypeListener (frameType : UInt16) (cb : Option Nat)
  | addGenericListener (cb : Option Nat)
  | removeIdListener (frameId : UInt16)
  | removeTypeListener (type : UInt16)
  | removeGenericListener (cb : Option Nat)
  | renewIdListener (id : UInt16)
  | tick
  | acceptChar (c : UInt8)
  | resetParser

structure Session where
  port : Port
  frameOpen : Bool

def Session.withTf (s : Session) (tf : TinyFrame) : Session :=
  { s with port := { s.port with tf := tf } }

def Session.start (peerBit : Bool) : Session := ⟨⟨initStatic peerBit, []⟩, false⟩

/-- One call; `none` when it does not return. A send call that succeeds without data but with a
    length leaves its frame open. -/
def Session.call (s : Session) : Call → Option Session
  | .send msg listener timeout =>
    (sendFrame s.port msg listener timeout).map fun sent =>
      ⟨sent.port, s.frameOpen || (sent.result && msg.data.isNone && msg.len != 0)⟩
  | .payload buff length => (multipartPayload s.port buff length).map fun p => { s with port := p }
  | .close => some ⟨multipartClose s.port, false⟩
  | .addIdListener msg cb timeout => some (s.withTf (s.port.tf.addIdListener msg cb timeout).1)
  | .addTypeListener frameType cb => some (s.withTf (s.port.tf.addTypeListener frameType cb).1)
  | .addGenericListener cb => some (s.withTf (s.port.tf.addGenericListener cb).1)
  | .removeIdListener frameId => some (s.withTf (s.port.tf.removeIdListener frameId).1)
  | .removeTypeListener type => some (s.withTf (s.port.tf.removeTypeListener type).1)
  | .removeGenericListener cb => some (s.withTf (s.port.tf.removeGenericListener cb).1)
  | .renewIdListener id => some (s.withTf (s.port.tf.renewIdListener id).1)
  | .tick => some (s.withTf s.port.tf.tick)
  | .acceptChar c => some (s.withTf (s.port.tf.acceptChar c).1)
  | .resetParser => some (s.withTf s.port.tf.resetParser)

/-- A send call without a frame open has a slot for its listener, if it brings one. -/
def Call.Fits (s : Session) : Call → Prop
  | .send _ listener _ => s.frameOpen = true ∨ listener = none ∨ s.port.tf.SlotFree
  | _ => True

inductive Reached (peerBit : Bool) : Session → Prop where
  | start : Reached peerBit (.start peerBit)
  | call {s s' : Session} (c : Call) (before : Reached peerBit s) (fits : c.Fits s)
      (made : s.call c = some s') : Reached peerBit s'

/-- A refused call gives the lock back: it is free, and the next plain send goes through. -/
def Released (sent : Sent) : Prop :=
  sent.result = false → sent.port.tf.softLock = false ∧
    ∀ msg, ∃ later, send sent.port msg = some later ∧ later.result = true

/-! ### The calls beside the frames -/

def steady (tf : TinyFrame) : (Bool × UInt16) × Bool := ((tf.peerBit, tf.nextId), tf.softLock)

section Frames
variable (tf : TinyFrame)

theorem addIdListener_steady (msg : Msg) (cb : Option Nat) (timeout : UInt16) :
    (tf.addIdListener msg cb timeout).1.steady = tf.steady := by
  unfold addIdListener
  split
  · rfl
  · rfl

theorem addTypeListener_steady (frameType : UInt16) (cb : Option Nat) :
    (tf.addTypeListener frameType cb).1.steady = tf.steady := by
  unfold addTypeListener
  split
  · rfl
  · rfl

theorem addGenericListener_steady (cb : Option Nat) :
    (tf.addGenericListener cb).1.steady = tf.steady := by
  unfold addGenericListener
  split
  · rfl
  · rfl

theorem removeIdListener_steady (frameId : UInt16) :
    (tf.removeIdListener frameId).1.steady = tf.steady := by
  unfold removeIdListener
  split
  · rfl
  · rename_i i found
    obtain ⟨table, count, frame⟩ := cleanupIdListener_frame tf i
    rw [frame]
    rfl

theorem removeTypeListener_steady (type : UInt16) :
    (tf.removeTypeListener type).1.steady = tf.steady := by
  unfold removeTypeListener
  split
  · rfl
  · rfl

theorem removeGenericListener_steady (cb : Option Nat) :
    (tf.removeGenericListener cb).1.steady = tf.steady := by
  unfold removeGenericListener
  split
  · rfl
  · rfl

theorem renewIdListener_steady (id : UInt16) : (tf.renewIdListener id).1.steady = tf.steady := by
  unfold renewIdListener
  split
  · rfl
  · rfl

theorem tick_steady : tf.tick.steady = tf.steady := by
  obtain ⟨ticks, table, count, frame⟩ := tick_frame tf
  rw [frame]
  rfl

theorem acceptChar_steady (c : UInt8) : (tf.acceptChar c).1.steady = tf.steady := by
  obtain ⟨state, id, len, data, rxi, cksum, refCksum, type, discard, frame⟩ :=
    parseChar_frame tf.clearTimeout c
  unfold acceptChar
  rw [frame]
  unfold clearTimeout
  split
  · split
    · rfl
    · rfl
  · rfl

end Frames

theorem chunkTurn_frame (p : Port) (buff : Nat → UInt8) (chunk : Nat) : ∃ buf pos cksum,
    (chunkTurn p buff chunk).tf = { p.tf with sendbuf := buf, txPos := pos, txCksum := cksum } := by
  unfold chunkTurn
  simp only
  split
  · exact ⟨_, _, _, rfl⟩
  · exact ⟨_, _, _, rfl⟩

theorem chunkLoop_frame {buff : Nat → UInt8} {fuel : Nat} {p q : Port} {remain sent : Nat}
    (loop : chunkLoop buff fuel p remain sent = some q) : ∃ buf pos cksum,
    q.tf = { p.tf with sendbuf := buf, txPos := pos, txCksum := cksum } := by
  induction fuel generalizing p remain sent with
  | zero =>
    cases remain with
    | zero =>
      rw [← Option.some.inj loop]
      exact ⟨_, _, _, rfl⟩
    | succ left => exact nomatch loop
  | succ fuel ih =>
    cases remain with
    | zero =>
      rw [← Option.some.inj loop]
      exact ⟨_, _, _, rfl⟩
    | succ left =>
      obtain ⟨buf, pos, cksum, rest⟩ := ih loop
      obtain ⟨_, _, _, turn⟩ := chunkTurn_frame p (fun i => buff (sent + i))
        (min (sendbufLen - p.tf.txPos) (left + 1))
      rw [rest, turn]
      exact ⟨buf, pos, cksum, rfl⟩

def Call.Beside : Call → Prop
  | .send .. => False
  | .close => False
  | _ => True

theorem Session.call_beside {s s' : Session} {c : Call} (made : s.call c = some s')
    (beside : c.Beside) :
    s'.port.tf.steady = s.port.tf.steady ∧ s'.frameOpen = s.frameOpen := by
  cases c with
  | send msg listener timeout => exact nomatch beside
  | close => exact nomatch beside
  | payload buff length =>
    obtain ⟨p, chunk, rfl⟩ := Option.map_eq_some_iff.mp made
    obtain ⟨_, _, _, frame⟩ := chunkLoop_frame chunk
    refine ⟨?_, rfl⟩
    simp only [frame, steady]
  | addIdListener msg cb timeout =>
    obtain rfl := Option.some.inj made
    exact ⟨addIdListener_steady s.port.tf msg cb timeout, rfl⟩
  | addTypeListener frameType cb =>
    obtain rfl := Option.some.inj made
    exact ⟨addTypeListener_steady s.port.tf frameType cb, rfl⟩
  | addGenericListener cb =>
    obtain rfl := Option.some.inj made
    exact ⟨addGenericListener_steady s.port.tf cb, rfl⟩
  | removeIdListener frameId =>
    obtain rfl := Option.some.inj made
    exact ⟨removeIdListener_steady s.port.tf frameId, rfl⟩
  | removeTypeListener type =>
    obtain rfl := Option.some.inj made
    exact ⟨removeTypeListener_steady s.port.tf type, rfl⟩
  | removeGenericListener cb =>
    obtain rfl := Option.some.inj made
    exact ⟨removeGenericListener_steady s.port.tf cb, rfl⟩
  | renewIdListener id =>
    obtain rfl := Option.some.inj made
    exact ⟨renewIdListener_steady s.port.tf id, rfl⟩
  | tick =>
    obtain rfl := Option.some.inj made
    exact ⟨tick_steady s.port.tf, rfl⟩
  | acceptChar c =>
    obtain rfl := Option.some.inj made
    exact ⟨acceptChar_steady s.port.tf c, rfl⟩
  | resetParser =>
    obtain rfl := Option.some.inj made
    exact ⟨rfl, rfl⟩

/-! ### Who holds the lock -/

/-- A send call that fits succeeds, and keeps the lock just when it opens a frame. -/
theorem sendFrame_fits {p : Port} (msg : Msg) (listener : Option Nat) (timeout : UInt16)
    (free : p.tf.softLock = false) (slot : listener = none ∨ p.tf.SlotFree) :
    ∃ sent, sendFrame p msg listener timeout = some sent ∧ sent.result = true ∧
      sent.port.tf.softLock = (msg.data.isNone && msg.len != 0) := by
  cases piece : msg.data with
  | some data =>
    obtain ⟨q, sent, _, lock⟩ := sendFrame_sent listener timeout data piece free slot
    exact ⟨_, sent, rfl, lock⟩
  | none =>
    by_cases empty : msg.len = 0
    · obtain ⟨q, sent, _, lock⟩ := sendFrame_empty listener timeout empty free slot
      exact ⟨_, sent, rfl, lock.trans (by simp [empty])⟩
    · obtain ⟨q, sent, opened⟩ := sendFrame_opened listener timeout piece empty free slot
      exact ⟨_, sent, rfl, opened.lock.trans (by simp [empty])⟩

/-- With no slot left a query fails and keeps the lock. -/
theorem sendFrame_full {p : Port} (msg : Msg) (cb : Nat) (timeout : UInt16)
    (free : p.tf.softLock = false) (full : ¬ p.tf.SlotFree) :
    ∃ sent, sendFrame p msg (some cb) timeout = some sent ∧ sent.result = false ∧
      sent.port.tf.softLock = true := by
  refine ⟨⟨{ p with tf := p.tf.headed msg }, p.tf.resolved msg, false⟩, ?_, rfl, rfl⟩
  simp [sendFrame, sendFrameBegin_full free full]

theorem Session.call_lock {s s' : Session} {c : Call} (holds : s.port.tf.softLock = s.frameOpen)
    (fits : c.Fits s) (made : s.call c = some s') : s'.port.tf.softLock = s'.frameOpen := by
  cases c with
  | send msg listener timeout =>
    cases opened : s.frameOpen with
    | true =>
      rw [opened] at holds
      rw [Session.call, sendFrame_locked holds] at made
      obtain rfl := Option.some.inj made
      simp [holds, opened]
    | false =>
      rw [opened] at holds
      have slot : listener = none ∨ s.port.tf.SlotFree := by
        rcases fits with other | slot
        · rw [opened] at other
          exact nomatch other
        · exact slot
      obtain ⟨sent, done, result, lock⟩ := sendFrame_fits msg listener timeout holds slot
      rw [Session.call, done] at made
      obtain rfl := Option.some.inj made
      simp [opened, result, lock]
  | close =>
    obtain rfl := Option.some.inj made
    rfl
  | _ =>
    obtain ⟨same, opened⟩ := Session.call_beside made trivial
    rw [opened, ← holds]
    exact congrArg Prod.snd same

/-- In programs whose send calls fit, the lock is taken exactly while a frame is open. -/
theorem Reached.lock {peerBit : Bool} {s : Session} (reached : Reached peerBit s) :
    s.port.tf.softLock = s.frameOpen := by
  induction reached with
  | start => rfl
  | call c before fits made ih => exact Session.call_lock ih fits made

/-- With no frame open, the next send call gives the lock back if it fails, exactly when it
    brings no listener or a slot is free. -/
theorem released_iff {peerBit : Bool} {s : Session} (reached : Reached peerBit s)
    (closed : s.frameOpen = false) (msg : Msg) (listener : Option Nat) (timeout : UInt16) :
    ∃ sent, sendFrame s.port msg listener timeout = some sent ∧
      (Released sent ↔ listener = none ∨ s.port.tf.SlotFree) := by
  have free : s.port.tf.softLock = false := reached.lock.trans closed
  by_cases slot : listener = none ∨ s.port.tf.SlotFree
  · obtain ⟨sent, done, result, _⟩ := sendFrame_fits msg listener timeout free slot
    refine ⟨sent, done, iff_of_true ?_ slot⟩
    intro refused
    rw [result] at refused
    exact nomatch refused
  · rw [not_or] at slot
    obtain ⟨cb, some⟩ := Option.ne_none_iff_exists'.mp slot.1
    obtain ⟨sent, done, result, lock⟩ := sendFrame_full msg cb timeout free slot.2
    rw [some]
    refine ⟨sent, done, iff_of_false ?_ ?_⟩
    · intro released
      have unlocked := (released result).1
      rw [lock] at unlocked
      exact nomatch unlocked
    · rintro (none | slots)
      · exact nomatch none
      · exact slot.2 slots

theorem released_iff_sample :
    ∃ sent, sendFrame (Session.start true).port { clearMsg with type := 0x77 } (some 3) 0 =
      some sent ∧
      (Released sent ↔ some 3 = none ∨ (Session.start true).port.tf.SlotFree) :=
  @released_iff true (.start true) .start rfl { clearMsg with type := 0x77 } (some 3) 0

def queries (s : Session) : Nat → Option Session
  | 0 => some s
  | n + 1 =>
    if s.port.tf.SlotFree then
      (s.call (.send { clearMsg with type := 0x77 } (some 3) 0)).bind fun s => queries s n
    else none

theorem queries_reached {peerBit : Bool} {s s' : Session} {n : Nat} (reached : Reached peerBit s)
    (made : queries s n = some s') : Reached peerBit s' := by
  induction n generalizing s with
  | zero =>
    rw [← Option.some.inj made]
    exact reached
  | succ n ih =>
    unfold queries at made
    split at made
    · rename_i slot
      obtain ⟨next, call, rest⟩ := Option.bind_eq_some_iff.mp made
      have fits : Call.Fits s (.send { clearMsg with type := 0x77 } (some 3) 0) :=
        Or.inr (Or.inr slot)
      exact ih (.call _ reached fits call) rest
    · exact nomatch made

/-- After ten unanswered queries the eleventh fails and takes the lock with it. -/
theorem lock_lost : ∃ s sent, Reached true s ∧ s.frameOpen = false ∧
    sendFrame s.port { clearMsg with type := 0x77 } (some 3) 0 = some sent ∧
    sent.result = false ∧ sent.port.tf.softLock = true ∧ ¬ Released sent := by
  have filled : (queries (.start true) 10).map (fun s => (s.frameOpen, decide s.port.tf.SlotFree)) =
      some (false, false) := by decide +kernel
  obtain ⟨s, run, look⟩ := Option.map_eq_some_iff.mp filled
  have reached := queries_reached .start run
  have closed : s.frameOpen = false := congrArg Prod.fst look
  have full : ¬ s.port.tf.SlotFree := of_decide_eq_false (congrArg Prod.snd look)
  obtain ⟨sent, done, result, lock⟩ :=
    sendFrame_full { clearMsg with type := 0x77 } 3 0 (reached.lock.trans closed) full
  refine ⟨s, sent, reached, closed, done, result, lock, ?_⟩
  intro released
  have unlocked := (released result).1
  rw [lock] at unlocked
  exact nomatch unlocked

end TinyFrame
