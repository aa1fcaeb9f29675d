import CommonLib.UsbPipe.Message
import CommonLib.Stream.Cuts

/- Messages through the pipe: written record after record, read by one bounded `read` each. -/
namespace UsbPipe
open Stream

structure Pipe where
  bytes : List UInt8
  sent : List Message
  got : List Message
  sizes : List Nat

inductive Event where
  | send (msg : Message)
  | read (n : Nat)

def Pipe.empty : Pipe := ⟨[], [], [], []⟩

/-- One event; `none` for a payload that does not fit a message or a size that `read` does not
    return. A read returns at least one of the bytes there are, and at most the buffer's size. -/
def Pipe.step (p : Pipe) : Event → Option Pipe
  | .send msg =>
    if msg.dateLen.toNat ≤ maxSize then
      let (msg, bytes) := zwUptpSend msg
      some { p with bytes := p.bytes ++ bytes, sent := p.sent ++ [msg] }
    else none
  | .read n =>
    if 0 < n ∧ n ≤ p.bytes.length ∧ n ≤ maxSize then
      some { p with
        bytes := p.bytes.drop n
        got := p.got ++ [zwUptpRecive (p.bytes.take n) .zero]
        sizes := p.sizes ++ [n] }
    else none

def Pipe.run : Pipe → List Event → Option Pipe
  | p, [] => some p
  | p, e :: es =>
    match p.step e with
    | none => none
    | some q => q.run es

def record (msg : Message) : List UInt8 := (List.range (msg.dateLen.toNat + 16)).map msg.memory

/-- What the reads returned, chunk by chunk. -/
structure Pipe.Cut (p : Pipe) (chunks : List (List UInt8)) : Prop where
  stream : chunks.flatten ++ p.bytes = (p.sent.map record).flatten
  got : p.got = chunks.map fun c => zwUptpRecive c .zero
  sizes : p.sizes = chunks.map List.length
  tagged : ∀ m ∈ p.sent, m.identify = pipeTag

theorem Pipe.Cut.step {p q : Pipe} {chunks : List (List UInt8)} (cut : p.Cut chunks) {e : Event}
    (made : p.step e = some q) : ∃ chunks', q.Cut chunks' := by
  obtain ⟨stream, got, sizes, tagged⟩ := cut
  cases e with
  | send msg =>
    simp only [Pipe.step] at made
    split at made
    · obtain rfl := Option.some.inj made
      refine ⟨chunks, ?_, got, sizes, ?_⟩
      · simp only [← List.append_assoc, stream, List.map_append, List.flatten_append, List.map_cons,
          List.map_nil, List.flatten_cons, List.flatten_nil, List.append_nil]
        rfl
      · intro m hm
        rcases List.mem_append.mp hm with old | new
        · exact tagged m old
        · rw [List.mem_singleton.mp new]
          rfl
    · exact nomatch made
  | read n =>
    simp only [Pipe.step] at made
    split at made
    · rename_i bounds
      obtain rfl := Option.some.inj made
      refine ⟨chunks ++ [p.bytes.take n], ?_, ?_, ?_, tagged⟩
      · simp only [List.flatten_append, List.flatten_cons, List.flatten_nil, List.append_nil,
          List.append_assoc, List.take_append_drop]
        exact stream
      · simp [got]
      · simp [sizes, bounds.2.1]
    · exact nomatch made

theorem Pipe.run_cut {p q : Pipe} {chunks : List (List UInt8)} (cut : p.Cut chunks)
    {events : List Event} (made : p.run events = some q) : ∃ chunks', q.Cut chunks' := by
  induction events generalizing p chunks with
  | nil =>
    obtain rfl := Option.some.inj made
    exact ⟨chunks, cut⟩
  | cons e es ih =>
    unfold Pipe.run at made
    split at made
    · exact nomatch made
    · rename_i r step
      obtain ⟨chunks', next⟩ := cut.step step
      exact ih next made

theorem record_length (msg : Message) : (record msg).length = msg.dateLen.toNat + 16 := by
  simp [record]

theorem record_getD (msg : Message) {j : Nat} (inside : j < msg.dateLen.toNat + 16) :
    (record msg).getD j 0 = msg.memory j := by
  simp [record, List.getD_eq_getElem?_getD, inside]

/-- A read is received as a message exactly if it is taken for its record. -/
theorem received_iff (chunk : List UInt8) (msg : Message) :
    (zwUptpRecive chunk .zero).content = msg.content ↔ TakenFor 0 chunk (record msg) := by
  have memory : ∀ j, (if j < chunk.length then chunk.getD j 0 else Message.zero.memory j) =
      chunk.getD j 0 := by
    intro j
    split
    · rfl
    · rename_i past
      rw [memory_zero, List.getD_eq_default _ _ (not_lt.mp past)]
  unfold zwUptpRecive TakenFor
  rw [content_ofMemory, record_length]
  constructor
  · intro same j inside
    rw [record_getD msg inside, ← same j inside, memory j]
  · intro same j inside
    rw [memory j, same j inside, record_getD msg inside]

/-- When all that was sent has been read, the messages received are the messages sent exactly if
    each read returned one record, in order. -/
theorem delivered_iff (events : List Event) (p : Pipe) (made : Pipe.empty.run events = some p)
    (drained : p.bytes = []) :
    p.got.map Message.content = p.sent.map Message.content ↔
      p.sizes = p.sent.map fun m => m.dateLen.toNat + 16 := by
  have start : Pipe.empty.Cut [] := ⟨rfl, rfl, rfl, nofun⟩
  obtain ⟨chunks, stream, got, sizes, tagged⟩ := Pipe.run_cut start made
  rw [drained, List.append_nil] at stream
  have heads : ∀ r ∈ p.sent.map record, r.getD 0 0 ≠ 0 := by
    intro r hr
    obtain ⟨m, hm, rfl⟩ := List.mem_map.mp hr
    rw [record_getD m (Nat.succ_pos _), memory_identify m (by decide), tagged m hm]
    decide
  have lengths : p.sent.map (fun m => m.dateLen.toNat + 16) =
      (p.sent.map record).map List.length := by
    rw [List.map_map]
    apply List.map_congr_left
    intro m _
    exact (record_length m).symm
  rw [got, sizes, lengths, List.map_map]
  constructor
  · intro same
    have pairs : List.Forall₂ (TakenFor 0) chunks (p.sent.map record) := by
      rw [← List.forall₂_eq_eq_eq, List.forall₂_map_left_iff, List.forall₂_map_right_iff] at same
      rw [List.forall₂_map_right_iff]
      exact same.imp fun c m => (received_iff c m).mp
    rw [cuts_exact heads stream pairs]
  · intro same
    have exact : chunks = p.sent.map record := List.eq_iff_flatten_eq.mpr ⟨stream, same⟩
    rw [exact, List.map_map]
    apply List.map_congr_left
    intro m _
    exact (received_iff (record m) m).mpr fun j _ => rfl

def oneByte (seq : UInt32) (b : UInt8) : Message :=
  ⟨fun _ => 0, MSG_TYPE_REQUEST, seq, 1, fun _ => b⟩

def threeMessages : List Event :=
  [.send (oneByte 1 7), .read 17, .send (oneByte 2 8), .send (oneByte 3 9), .read 17, .read 17]

theorem delivered_iff_sample :
    ∃ p, Pipe.empty.run threeMessages = some p ∧ p.bytes = [] ∧
      p.got.map Message.content = p.sent.map Message.content ∧
      p.sent.map (fun m => m.seq) = [1, 2, 3] := by
  have look : (Pipe.empty.run threeMessages).map
      (fun p => (p.bytes, p.sizes, p.sent.map (fun m => m.dateLen.toNat + 16),
        p.sent.map (fun m => m.seq))) = some ([], [17, 17, 17], [17, 17, 17], [1, 2, 3]) := by
    decide +kernel
  obtain ⟨p, run, values⟩ := Option.map_eq_some_iff.mp look
  obtain ⟨drained, sizes, records, seqs⟩ :=
    Prod.mk.inj values |>.imp_right (Prod.mk.inj · |>.imp_right Prod.mk.inj)
  exact ⟨p, run, drained, (delivered_iff threeMessages p run drained).mpr (sizes.trans records.symm),
    seqs⟩

/-- Two messages read at once: the second is lost. -/
theorem merged_sample :
    ∃ p, Pipe.empty.run [.send (oneByte 1 7), .send (oneByte 2 8), .read 34] = some p ∧
      p.bytes = [] ∧
      p.sent.map (fun m => m.seq) = [1, 2] ∧ p.got.map (fun m => m.seq) = [1] ∧
      p.got.map Message.content ≠ p.sent.map Message.content := by
  have look : (Pipe.empty.run [.send (oneByte 1 7), .send (oneByte 2 8), .read 34]).map
      (fun p => (p.bytes, p.sent.map (fun m => m.seq), p.got.map (fun m => m.seq))) =
        some ([], [1, 2], [1]) := by
    decide +kernel
  obtain ⟨p, run, values⟩ := Option.map_eq_some_iff.mp look
  obtain ⟨drained, sent, got⟩ := Prod.mk.inj values |>.imp_right Prod.mk.inj
  refine ⟨p, run, drained, sent, got, ?_⟩
  intro same
  have lengths := congrArg List.length same
  have two := congrArg List.length sent
  have one := congrArg List.length got
  simp only [List.length_map, List.length_cons, List.length_nil] at lengths two one
  omega

end UsbPipe
