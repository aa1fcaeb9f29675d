import CommonLib.TinyFrame.Wire

/- A frame sent in pieces is the frame sent at once, whatever else is tried while it is open. -/
namespace TinyFrame

inductive Attempt where
  | payload (buff : Nat → UInt8) (length : Nat)
  | send (msg : Msg)
  | query (msg : Msg) (listener : Option Nat) (timeout : UInt16)
  | respond (msg : Msg)

def Attempt.bytes : Attempt → List UInt8
  | .payload buff length => memory buff length
  | _ => []

def Attempt.call (p : Port) : Attempt → Option (Port × Option Bool)
  | .payload buff length => (multipartPayload p buff length).map fun q => (q, none)
  | .send msg => (TinyFrame.send p msg).map fun sent => (sent.port, some sent.result)
  | .query msg listener timeout =>
    (TinyFrame.query p msg listener timeout).map fun sent => (sent.port, some sent.result)
  | .respond msg => (TinyFrame.respond p msg).map fun sent => (sent.port, some sent.result)

def Attempt.isPiece : Attempt → Bool
  | .payload _ _ => true
  | _ => false

def attempts : Port → List Attempt → Option Port
  | p, [] => some p
  | p, a :: as =>
    match a.call p with
    | none => none
    | some done => attempts done.1 as

theorem Attempt.refused {p : Port} {a : Attempt} (other : a.isPiece = false)
    (locked : p.tf.softLock = true) : a.call p = some (p, some false) := by
  cases a with
  | payload buff length => exact nomatch other
  | send msg => simp [call, TinyFrame.send, sendFrame_locked locked]
  | query msg listener timeout => simp [call, TinyFrame.query, sendFrame_locked locked]
  | respond msg => simp [call, TinyFrame.respond, TinyFrame.send, sendFrame_locked locked]

theorem Attempt.bytes_other {a : Attempt} (other : a.isPiece = false) : a.bytes = [] := by
  cases a with
  | payload buff length => exact nomatch other
  | send msg => rfl
  | query msg listener timeout => rfl
  | respond msg => rfl

theorem Attempt.progress {p q : Port} {h : Head} {body : List UInt8} (opened : Open p q h body)
    (a : Attempt) : ∃ done, a.call q = some done ∧ Open p done.1 h (body ++ a.bytes) := by
  cases piece : a.isPiece with
  | false =>
    refine ⟨(q, some false), refused piece opened.lock, ?_⟩
    rw [bytes_other piece, List.append_nil]
    exact opened
  | true =>
    cases a with
    | payload buff length =>
      obtain ⟨r, chunk, chunked⟩ := sendFrameChunk_chunked buff length opened.room
      refine ⟨(r, none), ?_, opened.chunk chunked⟩
      simp [call, multipartPayload, chunk]
    | send msg => exact nomatch piece
    | query msg listener timeout => exact nomatch piece
    | respond msg => exact nomatch piece

theorem attempts_open {p q : Port} {h : Head} {body : List UInt8} (opened : Open p q h body)
    (as : List Attempt) :
    ∃ r, attempts q as = some r ∧ Open p r h (body ++ as.flatMap Attempt.bytes) := by
  induction as generalizing q body with
  | nil =>
    refine ⟨q, rfl, ?_⟩
    rw [List.flatMap_nil, List.append_nil]
    exact opened
  | cons a as ih =>
    obtain ⟨done, call, longer⟩ := Attempt.progress opened a
    obtain ⟨r, rest, whole⟩ := ih longer
    refine ⟨r, ?_, ?_⟩
    · rw [attempts, call]
      exact rest
    · rw [List.flatMap_cons, ← List.append_assoc]
      exact whole

theorem sendFrame_began {p : Port} {msg : Msg} {listener : Option Nat} {timeout : UInt16} {o : Sent}
    (done : sendFrame p msg listener timeout = some o) (began : o.result = true) :
    p.tf.softLock = false ∧ (listener = none ∨ p.tf.SlotFree) := by
  have free : p.tf.softLock = false := by
    by_contra locked
    rw [sendFrame_locked (Bool.not_eq_false _ ▸ locked)] at done
    obtain rfl := Option.some.inj done
    exact Bool.false_ne_true began
  refine ⟨free, ?_⟩
  cases listener with
  | none => exact .inl rfl
  | some cb =>
    refine .inr (by_contra fun full => ?_)
    simp only [sendFrame, sendFrameBegin_full free full] at done
    obtain rfl := Option.some.inj done
    exact Bool.false_ne_true began

/-- A frame opened without its data and filled with pieces of any sizes is the frame sent at once;
    meanwhile the buffer keeps room and no other send gets through. -/
theorem sendFrame_pieces {p : Port} {msg : Msg} {listener : Option Nat} {timeout : UInt16} {o : Sent}
    (data : Nat → UInt8) (as : List Attempt) (nonzero : msg.len ≠ 0)
    (opening : sendFrame p { msg with data := none } listener timeout = some o)
    (began : o.result = true) (pieces : as.flatMap Attempt.bytes = memory data msg.len.toNat) :
    (∃ q single bytes, attempts o.port as = some q ∧
      sendFrame p { msg with data := some data } listener timeout = some single ∧
      single.result = true ∧
      (multipartClose q).written.flatten = p.written.flatten ++ bytes ∧
      single.port.written.flatten = p.written.flatten ++ bytes) ∧
    (∀ before after, as = before ++ after →
      ∃ r, attempts o.port before = some r ∧ r.tf.txPos < sendbufLen) ∧
    (∀ before a after, as = before ++ a :: after → a.isPiece = false →
      ∃ r, attempts o.port before = some r ∧ a.call r = some (r, some false)) := by
  obtain ⟨free, slot⟩ := sendFrame_began opening began
  have opens := @sendFrame_opened p { msg with data := none } listener timeout rfl nonzero free slot
  obtain ⟨q, begun, opened⟩ := opens
  rw [begun] at opening
  obtain rfl := Option.some.inj opening
  refine ⟨?_, ?_, ?_⟩
  · obtain ⟨r, run, whole⟩ := attempts_open opened as
    rw [List.nil_append, pieces] at whole
    obtain ⟨written, _⟩ := whole.close (memory_length data msg.len.toNat)
    have sends := @sendFrame_sent p { msg with data := some data } listener timeout data rfl free slot
    obtain ⟨single, sent, once, _⟩ := sends
    exact ⟨r, _, _, run, sent, rfl, written, once⟩
  · intro before after _
    obtain ⟨r, run, whole⟩ := attempts_open opened before
    exact ⟨r, run, whole.room⟩
  · intro before a after _ other
    obtain ⟨r, run, whole⟩ := attempts_open opened before
    exact ⟨r, run, Attempt.refused other whole.lock⟩

/-- A frame opened with `TF_Send_Multipart`, filled with pieces of any sizes and closed, writes
    what one `TF_Send` writes; meanwhile the buffer keeps room and no other send gets through. -/
theorem multipart_written (p : Port) (msg : Msg) (data : Nat → UInt8) (as : List Attempt) (o : Sent)
    (long : 1 ≤ msg.len) (opening : sendMultipart p msg = some o) (began : o.result = true)
    (pieces : as.flatMap Attempt.bytes = memory data msg.len.toNat) :
    (∃ q single bytes, attempts o.port as = some q ∧
      send p { msg with data := some data } = some single ∧ single.result = true ∧
      (multipartClose q).written.flatten = p.written.flatten ++ bytes ∧
      single.port.written.flatten = p.written.flatten ++ bytes) ∧
    (∀ before after, as = before ++ after →
      ∃ r, attempts o.port before = some r ∧ r.tf.txPos < sendbufLen) ∧
    (∀ before a after, as = before ++ a :: after → a.isPiece = false →
      ∃ r, attempts o.port before = some r ∧ a.call r = some (r, some false)) := by
  have nonzero : msg.len ≠ 0 := by
    intro zero
    rw [zero] at long
    exact absurd long (by decide)
  exact sendFrame_pieces data as nonzero opening began pieces

def sampleAttempts : List Attempt :=
  [.payload UInt8.ofNat 2000, .send { clearMsg with type := 0x33 }, .payload (fun _ => 9) 0,
    .payload (fun i => UInt8.ofNat (2000 + i)) 1000]

theorem multipart_written_sample :
    ∃ o q r single bytes,
      sendMultipart ⟨initStatic false, []⟩ { clearMsg with type := 0x22, len := 3000 } = some o ∧
      attempts o.port sampleAttempts = some q ∧ q.tf.txPos < sendbufLen ∧
      send ⟨initStatic false, []⟩
        { clearMsg with type := 0x22, len := 3000, data := some UInt8.ofNat } = some single ∧
      (multipartClose q).written.flatten = bytes ∧ single.port.written.flatten = bytes ∧
      attempts o.port [.payload UInt8.ofNat 2000] = some r ∧
      (Attempt.send { clearMsg with type := 0x33 }).call r = some (r, some false) := by
  have opens := @sendFrame_opened ⟨initStatic false, []⟩ { clearMsg with type := 0x22, len := 3000 }
    none 0 rfl (by decide) rfl (.inl rfl)
  obtain ⟨o, begun, _⟩ := opens
  have pieces : sampleAttempts.flatMap Attempt.bytes = memory UInt8.ofNat (3000 : UInt16).toNat := by
    have cut : (3000 : UInt16).toNat = 2000 + 1000 := by decide
    have nothing : memory (fun _ => 9) 0 = [] := rfl
    rw [cut, memory_add]
    simp only [sampleAttempts, List.flatMap_cons, List.flatMap_nil, Attempt.bytes, nothing,
      List.nil_append, List.append_nil]
  obtain ⟨⟨q, single, bytes, run, sent, _, written, once⟩, room, refused⟩ :=
    multipart_written ⟨initStatic false, []⟩ { clearMsg with type := 0x22, len := 3000 }
      UInt8.ofNat sampleAttempts _ (by decide) begun rfl pieces
  obtain ⟨q', run', small⟩ := room sampleAttempts [] (List.append_nil _).symm
  obtain rfl := Option.some.inj (run.symm.trans run')
  obtain ⟨r, first, locked⟩ := refused [.payload UInt8.ofNat 2000] _ _ rfl rfl
  exact ⟨_, q, r, single, bytes, begun, run, small, sent, written, once, first, locked⟩

/-! ### The other ways to open a frame -/

inductive Opening where
  | send (msg : Msg)
  | sendSimple (type len : UInt16)
  | querySimple (type len : UInt16) (listener : Option Nat) (timeout : UInt16)
  | query (msg : Msg) (listener : Option Nat) (timeout : UInt16)
  | respond (msg : Msg)

def Opening.len : Opening → UInt16
  | .send msg | .query msg _ _ | .respond msg => msg.len
  | .sendSimple _ len | .querySimple _ len _ _ => len

def Opening.call (p : Port) : Opening → Option Sent
  | .send msg => sendMultipart p msg
  | .sendSimple type len => sendSimpleMultipart p type len
  | .querySimple type len listener timeout => querySimpleMultipart p type len listener timeout
  | .query msg listener timeout => queryMultipart p msg listener timeout
  | .respond msg => respondMultipart p msg

def Opening.atOnce (p : Port) (data : Nat → UInt8) : Opening → Option Sent
  | .send msg => TinyFrame.send p { msg with data := some data }
  | .sendSimple type len => TinyFrame.sendSimple p type (some data) len
  | .querySimple type len listener timeout =>
    TinyFrame.querySimple p type (some data) len listener timeout
  | .query msg listener timeout =>
    TinyFrame.query p { msg with data := some data } listener timeout
  | .respond msg => TinyFrame.respond p { msg with data := some data }

/-- Whichever call has opened a frame, once it is closed after all its pieces it has written what
    the call in one piece writes. -/
theorem opening_written {p : Port} {op : Opening} {o : Sent} (data : Nat → UInt8)
    (as : List Attempt) (long : op.len ≠ 0) (opening : op.call p = some o) (began : o.result = true)
    (pieces : as.flatMap Attempt.bytes = memory data op.len.toNat) :
    ∃ q single bytes, attempts o.port as = some q ∧ op.atOnce p data = some single ∧
      single.result = true ∧ (multipartClose q).written.flatten = p.written.flatten ++ bytes ∧
      single.port.written.flatten = p.written.flatten ++ bytes := by
  cases op with
  | send msg => exact (sendFrame_pieces data as long opening began pieces).1
  | sendSimple type len =>
    have simple : ({ clearMsg with type := type, len := len } : Msg).len ≠ 0 := long
    exact (sendFrame_pieces data as simple opening began pieces).1
  | querySimple type len listener timeout =>
    have simple : ({ clearMsg with type := type, len := len } : Msg).len ≠ 0 := long
    exact (sendFrame_pieces data as simple opening began pieces).1
  | query msg listener timeout => exact (sendFrame_pieces data as long opening began pieces).1
  | respond msg =>
    have response : ({ msg with isResponse := true } : Msg).len ≠ 0 := long
    exact (sendFrame_pieces data as response opening began pieces).1

end TinyFrame
