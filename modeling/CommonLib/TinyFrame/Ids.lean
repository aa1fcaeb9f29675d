import CommonLib.TinyFrame.Locking
import CommonLib.TinyFrame.Multipart

/- The frame IDs of a master and a slave over whole programs, and the ID that the listener of a
   query waits for. -/
namespace TinyFrame
variable {tf : TinyFrame} {p q : Port}

def idAt (peerBit : Bool) (k : Nat) : UInt16 :=
  if peerBit then (UInt16.ofNat k &&& idMask) ||| idPeerbit else UInt16.ofNat k &&& idMask

theorem idAt_toNat (peerBit : Bool) (k : Nat) :
    (idAt peerBit k).toNat = k % 32768 + if peerBit then 32768 else 0 := by
  have mask : idMask.toNat = 2 ^ 15 - 1 := by decide
  have low : (UInt16.ofNat k &&& idMask).toNat = k % 32768 := by
    rw [UInt16.toNat_and, mask, Nat.and_two_pow_sub_one_eq_mod, UInt16.toNat_ofNat']
    omega
  cases peerBit with
  | false => exact low
  | true =>
    have bit : idPeerbit.toNat = 2 ^ 15 * 1 := by decide
    have small : k % 32768 < 2 ^ 15 := Nat.mod_lt _ (by decide)
    change ((UInt16.ofNat k &&& idMask) ||| idPeerbit).toNat = _
    rw [UInt16.toNat_or, low, bit, Nat.or_comm, ← Nat.two_pow_add_eq_or_of_lt small]
    simp [Nat.add_comm]

theorem idAt_eq_iff (peerBit : Bool) {i j : Nat} (le : i ≤ j) :
    idAt peerBit i = idAt peerBit j ↔ 32768 ∣ j - i := by
  rw [← UInt16.toNat_inj, idAt_toNat, idAt_toNat]
  omega

theorem idAt_ne (i j : Nat) : idAt true i ≠ idAt false j := by
  intro same
  have numbers := congrArg UInt16.toNat same
  rw [idAt_toNat, idAt_toNat] at numbers
  simp at numbers
  omega

/-! ### The counter -/

def counter (tf : TinyFrame) : Bool × UInt16 := (tf.peerBit, tf.nextId)

def sendFixed (tf : TinyFrame) : (Bool × UInt16) × (Nat → IdListener) :=
  (tf.counter, tf.idListeners)

theorem chunkLoop_fixed {buff : Nat → UInt8} {fuel remain sent : Nat}
    (loop : chunkLoop buff fuel p remain sent = some q) : q.tf.sendFixed = p.tf.sendFixed := by
  obtain ⟨buf, pos, cksum, frame⟩ := chunkLoop_frame loop
  rw [frame]
  rfl

theorem sendFrameEnd_fixed (p : Port) : (sendFrameEnd p).tf.sendFixed = p.tf.sendFixed := by
  unfold sendFrameEnd
  split
  · split
    · rfl
    · rfl
  · rfl

/-! ### The calls that do -/

def Awaits (before tf : TinyFrame) (msg : Msg) (cb : Nat) (timeout : UInt16) : Prop :=
  ∃ i < maxIdLst, (before.idListeners i).fn = none ∧
    tf.idListeners i = ⟨msg.frameId, some cb, timeout, timeout, msg.userdata, msg.userdata2⟩

theorem headed_counter (tf : TinyFrame) (msg : Msg) :
    (tf.headed msg).counter = (tf.genId msg).1.counter := by
  unfold headed genId
  split
  · rfl
  · rfl

theorem addIdListener_awaits {tf' : TinyFrame} {msg : Msg} {cb : Nat} {timeout : UInt16}
    (added : tf.addIdListener msg (some cb) timeout = (tf', true)) :
        Awaits tf tf' msg cb timeout := by
  unfold addIdListener at added
  split at added
  · exact nomatch congrArg Prod.snd added
  · rename_i i found
    obtain ⟨rfl, _⟩ := Prod.mk.inj added
    obtain ⟨small, free⟩ := firstIndex_some found
    exact ⟨i, small, Option.isNone_iff_eq_none.mp free, by simp⟩

theorem sendFrameBegin_id {tf' : TinyFrame} {msg msg' : Msg} {listener : Option Nat}
    {timeout : UInt16}
    {ok : Bool} (free : tf.softLock = false)
    (begun : tf.sendFrameBegin msg listener timeout = (tf', msg', ok)) :
    msg' = tf.resolved msg ∧ tf'.counter = (tf.genId msg).1.counter ∧
      ∀ cb, listener = some cb → ok = true → Awaits tf tf' msg' cb timeout := by
  have head := tf.headed_counter msg
  rw [sendFrameBegin_free free] at begun
  cases listener with
  | none =>
    obtain ⟨rfl, same⟩ := Prod.mk.inj begun
    obtain ⟨rfl, _⟩ := Prod.mk.inj same
    exact ⟨rfl, head, by rintro cb ⟨⟩⟩
  | some cb =>
    have kept := congrArg Prod.fst (addIdListener_steady (tf.headed msg) (tf.resolved msg)
      (some cb) timeout)
    cases added : (tf.headed msg).addIdListener (tf.resolved msg) (some cb) timeout with
    | mk tf1 done =>
      rw [added] at kept
      cases done with
      | false =>
        simp only [added] at begun
        obtain ⟨rfl, same⟩ := Prod.mk.inj begun
        obtain ⟨rfl, rfl⟩ := Prod.mk.inj same
        exact ⟨rfl, kept.trans head, by rintro cb _ ⟨⟩⟩
      | true =>
        simp only [added] at begun
        obtain ⟨rfl, same⟩ := Prod.mk.inj begun
        obtain ⟨rfl, rfl⟩ := Prod.mk.inj same
        refine ⟨rfl, kept.trans head, fun cb' same _ => ?_⟩
        obtain rfl := Option.some.inj same
        have waits := addIdListener_awaits added
        exact waits

theorem Awaits.congr {before tf' : TinyFrame} {msg : Msg} {cb : Nat} {timeout : UInt16}
    (awaits : Awaits before tf msg cb timeout) (same : tf'.sendFixed = tf.sendFixed) :
    Awaits before tf' msg cb timeout := by
  have table : tf'.idListeners = tf.idListeners := congrArg Prod.snd same
  unfold Awaits
  rw [table]
  exact awaits

/-- A send call that got past the lock: whatever its answer, its message has the new ID. -/
theorem sendFrame_id {msg : Msg} {listener : Option Nat} {timeout : UInt16} {sent : Sent}
    (free : p.tf.softLock = false) (done : sendFrame p msg listener timeout = some sent) :
    sent.msg = p.tf.resolved msg ∧ sent.port.tf.counter = (p.tf.genId msg).1.counter ∧
      ∀ cb, listener = some cb → sent.result = true →
          Awaits p.tf sent.port.tf sent.msg cb timeout := by
  unfold sendFrame at done
  cases begun : p.tf.sendFrameBegin msg listener timeout with
  | mk tf' rest =>
    obtain ⟨msg', ok⟩ := rest
    obtain ⟨same, count, awaits⟩ := sendFrameBegin_id free begun
    -- what follows the head leaves the counter and the listeners alone
    have later : ∀ q : Port, q.tf.sendFixed = tf'.sendFixed →
      q.tf.counter = (p.tf.genId msg).1.counter ∧
        ∀ cb, listener = some cb → ok = true → Awaits p.tf q.tf msg' cb timeout := fun q fixed =>
      ⟨(congrArg Prod.fst fixed).trans count,
        fun cb wants ended => (awaits cb wants ended).congr fixed⟩
    cases ok with
    | false =>
      simp only [begun] at done
      obtain rfl := Option.some.inj done
      exact ⟨same, later _ rfl⟩
    | true =>
      simp only [begun] at done
      cases carried : msg'.data with
      | none =>
        simp only [carried] at done
        split at done
        · obtain rfl := Option.some.inj done
          exact ⟨same, later _ (sendFrameEnd_fixed _)⟩
        · obtain rfl := Option.some.inj done
          exact ⟨same, later _ rfl⟩
      | some data =>
        simp only [carried] at done
        cases chunk : sendFrameChunk { p with tf := tf' } data msg'.len.toNat with
        | none =>
          rw [chunk] at done
          exact nomatch done
        | some q =>
          rw [chunk] at done
          obtain rfl := Option.some.inj done
          exact ⟨same, later _ ((sendFrameEnd_fixed q).trans (chunkLoop_fixed chunk))⟩

/-! ### Two instances -/

/-- The ID that a call of the interface makes: one for every send of a message that is not a
    response, if it gets past the lock. -/
def Session.generated (s : Session) : Call → Option UInt16
  | .send msg listener timeout =>
    if msg.isResponse || s.port.tf.softLock then none
    else (sendFrame s.port msg listener timeout).map fun sent => sent.msg.frameId
  | _ => none

structure Session.Counted (s : Session) (peerBit : Bool) (ids : List UInt16) : Prop where
  counter : s.port.tf.counter = (peerBit, UInt16.ofNat ids.length)
  ids : ids = (List.range ids.length).map (idAt peerBit)

theorem Session.call_counter {s s' : Session} {c : Call} (none_ : s.generated c = none)
    (made : s.call c = some s') : s'.port.tf.counter = s.port.tf.counter := by
  cases c with
  | send msg listener timeout =>
    obtain ⟨sent, done, rfl⟩ := Option.map_eq_some_iff.mp made
    cases free : s.port.tf.softLock with
    | true =>
      rw [sendFrame_locked free] at done
      obtain rfl := Option.some.inj done
      rfl
    | false =>
      have kept := (sendFrame_id free done).2.1
      cases response : msg.isResponse with
      | true =>
        have same : s.port.tf.genId msg = (s.port.tf, msg.frameId) := if_pos response
        rw [same] at kept
        exact kept
      | false =>
        unfold generated at none_
        simp [response, free, done] at none_
  | close =>
    obtain rfl := Option.some.inj made
    exact congrArg Prod.fst (sendFrameEnd_fixed s.port)
  | _ => exact congrArg Prod.fst (Session.call_beside made trivial).1

theorem Session.call_generated {s s' : Session} {c : Call} {id : UInt16}
    (some_ : s.generated c = some id)
    (made : s.call c = some s') :
    id = idAt s.port.tf.peerBit s.port.tf.nextId.toNat ∧
      s'.port.tf.counter = (s.port.tf.peerBit, s.port.tf.nextId + 1) := by
  cases c with
  | send msg listener timeout =>
    obtain ⟨sent, done, rfl⟩ := Option.map_eq_some_iff.mp made
    simp only [generated] at some_
    by_cases old : (msg.isResponse || s.port.tf.softLock) = true
    · rw [if_pos old] at some_
      cases some_
    · rw [if_neg old, done] at some_
      have fresh := old
      rw [Bool.or_eq_true, not_or, Bool.not_eq_true, Bool.not_eq_true] at fresh
      obtain rfl := Option.some.inj some_
      obtain ⟨same, kept, _⟩ := sendFrame_id fresh.2 done
      have new : s.port.tf.genId msg = ({ s.port.tf with nextId := s.port.tf.nextId + 1 },
          if s.port.tf.peerBit then (s.port.tf.nextId &&& idMask)
              ||| idPeerbit else s.port.tf.nextId &&& idMask) := by
        unfold genId
        rw [fresh.1]
        rfl
      constructor
      · change sent.msg.frameId = _
        rw [same, resolved, headOf, new, idAt, UInt16.ofNat_toNat]
      · rw [kept, new]
        rfl
  | _ => cases some_

theorem Session.Counted.call {s s' : Session} {peerBit : Bool} {ids : List UInt16} {c : Call}
    (counted : s.Counted peerBit ids) (made : s.call c = some s') :
    s'.Counted peerBit (ids ++ (s.generated c).toList) := by
  obtain ⟨peer, next⟩ := Prod.mk.inj counted.counter
  cases new : s.generated c with
  | none =>
    rw [Option.toList_none, List.append_nil]
    exact ⟨(Session.call_counter new made).trans counted.counter, counted.ids⟩
  | some id =>
    obtain ⟨made_, after_⟩ := Session.call_generated new made
    rw [peer, next] at made_ after_
    rw [Option.toList_some]
    constructor
    · rw [after_, List.length_append, List.length_singleton, UInt16.ofNat_add]
      rfl
    · have value : id = idAt peerBit ids.length := by
        rw [made_, ← UInt16.toNat_inj, idAt_toNat, idAt_toNat, UInt16.toNat_ofNat']
        omega
      rw [List.length_append, List.length_singleton, List.range_succ, List.map_append,
        ← counted.ids, value]
      rfl

structure Peers where
  master : Session
  slave : Session
  masterIds : List UInt16
  slaveIds : List UInt16

inductive Exchanged : Peers → Prop where
  | start : Exchanged ⟨.start true, .start false, [], []⟩
  | master {p : Peers} {s : Session} (c : Call) (before : Exchanged p)
    (made : p.master.call c = some s) :
    Exchanged { p with master := s, masterIds := p.masterIds ++ (p.master.generated c).toList }
  | slave {p : Peers} {s : Session} (c : Call) (before : Exchanged p)
    (made : p.slave.call c = some s) :
    Exchanged { p with slave := s, slaveIds := p.slaveIds ++ (p.slave.generated c).toList }

theorem Exchanged.counted {p : Peers} (run : Exchanged p) :
    p.master.Counted true p.masterIds ∧ p.slave.Counted false p.slaveIds := by
  induction run with
  | start => exact ⟨⟨rfl, rfl⟩, ⟨rfl, rfl⟩⟩
  | master c before made ih => exact ⟨ih.1.call made, ih.2⟩
  | slave c before made ih => exact ⟨ih.1, ih.2.call made⟩

/-! ### The listener of a query -/

/-- The frame of a query is written with this header: at once, or when the pieces of its payload
    have been sent and it is closed. -/
def OnWire (p : Port) (sent : Sent) (h : Head) : Prop :=
  if sent.msg.data.isNone && sent.msg.len != 0 then
    ∀ as q, attempts sent.port as = some q → (as.flatMap Attempt.bytes).length = h.len.toNat →
      (multipartClose q).written.flatten = p.written.flatten ++ frameBytes h
      (as.flatMap Attempt.bytes)
  else ∃ body, sent.port.written.flatten = p.written.flatten ++ frameBytes h body

theorem query_on_wire {msg : Msg} {cb : Nat} {timeout : UInt16} {sent : Sent}
    (done : query p msg (some cb) timeout = some sent) (ok : sent.result = true) :
    Awaits p.tf sent.port.tf sent.msg cb timeout ∧
        OnWire p sent ⟨sent.msg.frameId, msg.len, msg.type⟩ := by
  unfold query at done
  obtain ⟨free, slot⟩ := sendFrame_began done ok
  obtain ⟨same, _, awaits⟩ := sendFrame_id free done
  refine ⟨awaits cb rfl ok, ?_⟩
  have head : (⟨sent.msg.frameId, msg.len, msg.type⟩ : Head) = headOf p.tf msg := by
    rw [same]
    rfl
  rw [head]
  unfold OnWire
  rw [same]
  change if msg.data.isNone && msg.len != 0 then _ else _
  cases piece : msg.data with
  | some data =>
    obtain ⟨q, sent', written, _⟩ := sendFrame_sent (some cb) timeout data piece free slot
    obtain rfl := Option.some.inj (sent'.symm.trans done)
    exact ⟨_, written⟩
  | none =>
    by_cases empty : msg.len = 0
    · obtain ⟨q, sent', written, _⟩ := sendFrame_empty (some cb) timeout empty free slot
      obtain rfl := Option.some.inj (sent'.symm.trans done)
      rw [if_neg (by simp [empty])]
      exact ⟨_, written⟩
    · obtain ⟨q, sent', opened⟩ := sendFrame_opened (some cb) timeout piece empty free slot
      obtain rfl := Option.some.inj (sent'.symm.trans done)
      rw [if_pos (by simp [empty])]
      intro as r run full
      obtain ⟨r', run', whole⟩ := attempts_open opened as
      obtain rfl := Option.some.inj (run.symm.trans run')
      rw [List.nil_append] at whole
      exact (whole.close full).1

/-- Two IDs made by one instance agree just when a multiple of 32768 others lies between them. -/
def Spaced (ids : List UInt16) : Prop :=
  ∀ i j, i ≤ j → j < ids.length → (ids[i]? = ids[j]? ↔ 32768 ∣ j - i)

theorem Session.Counted.spaced {s : Session} {peerBit : Bool} {ids : List UInt16}
    (counted : s.Counted peerBit ids) : Spaced ids := by
  intro i j le short
  have value : ∀ k, k < ids.length → ids[k]? = some (idAt peerBit k) := by
    intro k small
    rw [counted.ids, List.getElem?_map, List.getElem?_range small]
    rfl
  rw [value i (by omega), value j short, Option.some_inj]
  exact idAt_eq_iff peerBit le

theorem ids_of_peers {p : Peers} (run : Exchanged p) :
    (∀ a ∈ p.masterIds, ∀ b ∈ p.slaveIds, a ≠ b) ∧ Spaced p.masterIds ∧ Spaced p.slaveIds ∧
      ∀ s, s = p.master ∨ s = p.slave → ∀ msg cb timeout sent,
        query s.port msg (some cb) timeout = some sent →
        sent.result = true → Awaits s.port.tf sent.port.tf sent.msg cb timeout ∧
          OnWire s.port sent ⟨sent.msg.frameId, msg.len, msg.type⟩ := by
  obtain ⟨master, slave⟩ := run.counted
  refine ⟨?_, master.spaced, slave.spaced,
    fun s _ msg cb timeout sent done ok => query_on_wire done ok⟩
  intro a ha b hb
  rw [master.ids] at ha
  rw [slave.ids] at hb
  obtain ⟨i, _, rfl⟩ := List.mem_map.mp ha
  obtain ⟨j, _, rfl⟩ := List.mem_map.mp hb
  exact idAt_ne i j

def hello : Call := .send { clearMsg with type := 0x77 } none 0

theorem hello_twice (peerBit : Bool) : ∃ s1 s2, (Session.start peerBit).call hello = some s1 ∧
    s1.call hello = some s2 ∧ (Session.start peerBit).generated hello = some (idAt peerBit 0) ∧
    s1.generated hello = some (idAt peerBit 1) ∧ s2.port.tf.softLock = false ∧
    s2.port.tf.SlotFree := by
  have eval : ((Session.start peerBit).call hello).any (fun s1 => (s1.call hello).any fun s2 =>
      decide ((Session.start peerBit).generated hello = some (idAt peerBit 0) ∧
        s1.generated hello = some (idAt peerBit 1) ∧ s2.port.tf.softLock = false ∧
        s2.port.tf.SlotFree)) = true := by
    cases peerBit with
    | false => decide +kernel
    | true => decide +kernel
  obtain ⟨s1, call1, eval⟩ := (Option.any_eq_true _ _).mp eval
  obtain ⟨s2, call2, eval⟩ := (Option.any_eq_true _ _).mp eval
  exact ⟨s1, s2, call1, call2, of_decide_eq_true eval⟩

theorem ids_of_peers_sample : ∃ p sent, Exchanged p ∧
    p.masterIds = [0x8000, 0x8001] ∧ p.slaveIds = [0, 1] ∧
    (∀ a ∈ p.masterIds, ∀ b ∈ p.slaveIds, a ≠ b) ∧ Spaced p.masterIds ∧ Spaced p.slaveIds ∧
    query p.master.port { clearMsg with type := 0x77 } (some 5) 10 = some sent ∧
    sent.result = true ∧ Awaits p.master.port.tf sent.port.tf sent.msg 5 10 ∧
    OnWire p.master.port sent ⟨sent.msg.frameId, 0, 0x77⟩ := by
  obtain ⟨m1, m2, call1, call2, new1, new2, free, slot⟩ := hello_twice true
  obtain ⟨s1, s2, call3, call4, new3, new4, _⟩ := hello_twice false
  have run := (((Exchanged.start.master _ call1).slave _ call3).master _ call2).slave _ call4
  obtain ⟨apart, spacedM, spacedS, queries⟩ := ids_of_peers run
  obtain ⟨sent, done, ok, _⟩ := sendFrame_fits { clearMsg with type := 0x77 } (some 5) 10 free
    (.inr slot)
  obtain ⟨awaits, wire⟩ := queries m2 (.inl rfl) _ 5 10 sent done ok
  refine ⟨_, sent, run, ?_, ?_, apart, spacedM, spacedS, done, ok, awaits, wire⟩
  · change [] ++ ((Session.start true).generated hello).toList ++ (m1.generated hello).toList = _
    rw [new1, new2]
    decide
  · change [] ++ ((Session.start false).generated hello).toList ++ (s1.generated hello).toList = _
    rw [new3, new4]
    decide

end TinyFrame
