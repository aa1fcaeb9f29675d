import CommonLib.TinyFrame.Wire

/- Frames from the composer to the parser: what `TF_Send` writes is what `TF_AcceptChar` reports;
   and the two places where the parser loses the stream. -/
namespace TinyFrame
open Stream

/-! ### Streams of messages -/

def Msg.payload (msg : Msg) : List UInt8 := memory (msg.data.getD fun _ => 0) msg.len.toNat

/-- One message of a stream: bytes on the line before it, the message `TF_Send` leaves to its
    caller, the bytes `TF_Send` writes. -/
structure Sending where
  gap : List UInt8
  msg : Msg
  bytes : List UInt8

def transmit : TinyFrame → List (List UInt8 × Msg) → Option (List Sending)
  | _, [] => some []
  | tf, (gap, msg) :: rest =>
    match send ⟨tf, []⟩ msg with
    | none => none
    | some sent =>
      if sent.result then
        (transmit sent.port.tf rest).map (⟨gap, sent.msg, sent.port.written.flatten⟩ :: ·)
      else none

def lineBytes (sendings : List Sending) : List UInt8 := sendings.flatMap fun s => s.gap ++ s.bytes

def arrivals : Nat → List Sending → List (Nat × Report)
  | _, [] => []
  | n, s :: rest =>
    (n + s.gap.length + s.bytes.length - 1,
    ⟨⟨s.msg.frameId, s.msg.len, s.msg.type⟩, Msg.payload s.msg⟩) ::
      arrivals (n + s.gap.length + s.bytes.length) rest

def Sending.Of (s : Sending) (item : List UInt8 × Msg) : Prop :=
  s.gap = item.1 ∧ s.msg = { item.2 with frameId := s.msg.frameId } ∧
    (item.2.isResponse = true → s.msg.frameId = item.2.frameId)

theorem frame_heard (n : Nat) {h : Head} {body : List UInt8} (some : h.len ≠ 0)
    (short : h.len ≤ maxPayloadRx) (full : body.length = h.len.toNat) :
    after Phase.next .idle (frameBytes h body) = .idle ∧
      reported n .idle (frameBytes h body) = [(n + (frameBytes h body).length - 1, ⟨h, body⟩)] := by
  have filled : body ≠ [] := by
    intro empty
    rw [empty] at full
    exact some (UInt16.toNat_inj.mp full.symm)
  have bytes : frameBytes h body = h.bytes ++ h.cksum :: (body ++ [cksumOf body]) := by
    unfold frameBytes
    rw [if_neg filled]
  have size : (frameBytes h body).length = 9 + body.length := by
    rw [bytes]
    simp
    omega
  obtain ⟨back, told⟩ := frame_run n h.cksum (cksumOf body) some full
  have fits : ¬ h.len > maxPayloadRx := UInt16.not_lt.mpr short
  rw [if_neg fits, if_pos rfl] at told
  rw [size, bytes]
  constructor
  · exact back
  · rw [told]
    congr 2
    omega

theorem transmit_reported (n : Nat) (sender : TinyFrame) (items : List (List UInt8 × Msg))
    (free : sender.softLock = false)
    (plain : ∀ item ∈ items, sofByte ∉ item.1 ∧ item.2.data.isSome ∧ 1 ≤ item.2.len ∧
      item.2.len ≤ maxPayloadRx) :
    ∃ sendings, transmit sender items = some sendings ∧ List.Forall₂ Sending.Of sendings items ∧
      reported n .idle (lineBytes sendings) = arrivals n sendings := by
  induction items generalizing n sender with
  | nil => exact ⟨[], rfl, .nil, rfl⟩
  | cons item items ih =>
    obtain ⟨gap, msg⟩ := item
    obtain ⟨other, piece, some, short⟩ := plain (gap, msg) List.mem_cons_self
    obtain ⟨data, piece⟩ := Option.isSome_iff_exists.mp piece
    obtain ⟨q, sent, written, lock⟩ :=
      sendFrame_sent (p := ⟨sender, []⟩) none 0 data piece free (.inl rfl)
    rw [List.flatten_nil, List.nil_append] at written
    have nonzero : msg.len ≠ 0 := by
      intro zero
      rw [show msg.len = 0 from zero] at some
      exact absurd some (by decide)
    obtain ⟨skipped, quiet⟩ := gap_run n other
    obtain ⟨back, told⟩ := frame_heard (n + gap.length) (h := headOf sender msg) nonzero short
      (memory_length data msg.len.toNat)
    obtain ⟨sendings, rest, same, arrive⟩ := ih
      (n + gap.length + q.written.flatten.length) q.tf lock
      fun item mem => plain item (List.mem_cons_of_mem _ mem)
    have payload : Msg.payload (sender.resolved msg) = memory data msg.len.toNat := by
      have carried : (sender.resolved msg).data = Option.some data := piece
      rw [Msg.payload, carried]
      rfl
    refine ⟨⟨gap, sender.resolved msg, q.written.flatten⟩ :: sendings, ?_, ?_, ?_⟩
    · simp only [transmit, send, sent, ↓reduceIte, rest, Option.map_some]
    · constructor
      · refine ⟨rfl, rfl, ?_⟩
        intro response
        have kept : sender.genId msg = (sender, msg.frameId) := if_pos response
        exact congrArg Prod.snd kept
      · exact same
    · simp only [lineBytes, List.flatMap_cons, List.append_assoc]
      rw [reported_append, skipped, quiet, reported_append, written, back, told, ← written]
      simp only [List.nil_append, List.singleton_append, arrivals, payload]
      exact congrArg (_ :: ·) arrive

/-- Messages sent and parsed: each is reported once, at the last byte of its frame. -/
theorem transmit_heard (sender parser : TinyFrame) (items : List (List UInt8 × Msg))
    (free : sender.softLock = false) (idle : parser.state = .SOF)
    (plain : ∀ item ∈ items, sofByte ∉ item.1 ∧ item.2.data.isSome ∧ 1 ≤ item.2.len ∧
      item.2.len ≤ maxPayloadRx) :
    ∃ sendings, transmit sender items = some sendings ∧ List.Forall₂ Sending.Of sendings items ∧
      heard 0 parser (lineBytes sendings) = arrivals 0 sendings := by
  obtain ⟨sendings, sent, same, arrive⟩ := transmit_reported 0 sender items free plain
  refine ⟨sendings, sent, same, ?_⟩
  rw [heard_reported 0 (running_idle idle)]
  exact arrive

theorem transmit_heard_sample :
    ∃ sendings, transmit (initStatic true)
        [([5, 7], ⟨0, false, 0x22, some fun i => UInt8.ofNat i, 3, none, none⟩),
          ([], ⟨9, true, 0x33, some fun _ => 1, 128, none, none⟩)] = some sendings ∧
      List.Forall₂ Sending.Of sendings
        [([5, 7], ⟨0, false, 0x22, some fun i => UInt8.ofNat i, 3, none, none⟩),
          ([], ⟨9, true, 0x33, some fun _ => 1, 128, none, none⟩)] ∧
      heard 0 (initStatic false) (lineBytes sendings) = arrivals 0 sendings :=
  transmit_heard (initStatic true) (initStatic false) _ rfl rfl (by decide)

/-! ### Messages without a body -/

/-- The stream after some bytes is read as if they had not been there. -/
def Resynced (parser : TinyFrame) (bytes : List UInt8) : Prop :=
  (after acceptChar parser bytes).state = .SOF ∧
    ∀ rest n, heard n (after acceptChar parser bytes) rest = heard n parser rest

/-- What is expected of the frame of a message without a body: reported at its last byte, the
    header checksum, and gone from the stream after it. -/
def EmptyConsumed (parser : TinyFrame) (bytes : List UInt8) (h : Head) : Prop :=
  heard 0 parser bytes = [(bytes.length - 1, ⟨h, []⟩)] ∧ Resynced parser bytes

theorem resynced_iff {parser : TinyFrame} (idle : parser.state = .SOF) (bytes : List UInt8) :
    Resynced parser bytes ↔ after Phase.next .idle bytes = .idle := by
  have state := (after_running (running_idle idle) bytes).1.sof_iff
  constructor
  · intro resynced
    exact state.mp resynced.1
  · intro back
    exact ⟨state.mpr back, fun rest n => heard_idle n (state.mpr back) idle rest⟩

/-- The header checksum byte of a message without a body is read as the start of a frame. -/
theorem empty_after (h : Head) (ck : UInt8) (empty : h.len = 0) :
    after Phase.next .idle (h.bytes ++ [ck]) = (if ck = sofByte then .header [] else .idle) ∧
      ∀ n, reported n .idle (h.bytes ++ [ck]) = [(n + 6, ⟨h, []⟩)] := by
  have first : (after Phase.next .idle h.bytes) = .idle := by
    rw [(head_run 0 h).1, if_pos empty]
  constructor
  · rw [after_append, first]
    simp only [after, Phase.next]
    split
    · rfl
    · rfl
  · intro n
    rw [reported_append, first, (head_run n h).2, if_pos empty, reported_cons]
    simp only [Phase.next]
    split
    · rfl
    · rfl

/-- A message without a body, sent with or without a listener: it is reported before its last
    byte, and the stream survives exactly if that byte does not look like the start of a frame. -/
theorem empty_frame (sender parser : TinyFrame) (msg : Msg) (listener : Option Nat)
    (timeout : UInt16) (empty : msg.len = 0) (free : sender.softLock = false)
    (slot : listener = none ∨ sender.SlotFree) (idle : parser.state = .SOF) :
    ∃ q, sendFrame ⟨sender, []⟩ msg listener timeout = some ⟨q, sender.resolved msg, true⟩ ∧
      q.written.flatten.length = 8 ∧
      heard 0 parser q.written.flatten = [(6, ⟨headOf sender msg, []⟩)] ∧
      ¬ EmptyConsumed parser q.written.flatten (headOf sender msg) ∧
      (Resynced parser q.written.flatten ↔ (headOf sender msg).cksum ≠ sofByte) := by
  obtain ⟨q, sent, written, lock⟩ :=
    sendFrame_empty (p := ⟨sender, []⟩) listener timeout empty free slot
  have none : (headOf sender msg).len = 0 := empty
  have bytes : q.written.flatten = (headOf sender msg).bytes ++
    [(headOf sender msg).cksum] := written
  obtain ⟨left, told⟩ := empty_after (headOf sender msg) (headOf sender msg).cksum none
  have early : heard 0 parser q.written.flatten = [(6, ⟨headOf sender msg, []⟩)] := by
    rw [heard_reported 0 (running_idle idle), bytes]
    exact told 0
  have size : q.written.flatten.length = 8 := by
    rw [bytes]
    rfl
  refine ⟨q, sent, size, early, ?_, ?_⟩
  · intro consumed
    have late := consumed.1
    rw [early, size] at late
    simp at late
  · rw [resynced_iff idle, bytes, left]
    split
    · simp_all
    · simp_all

theorem empty_frame_sample :
    ∃ q, sendFrame ⟨initStatic true, []⟩ { clearMsg with type := 0x77 } (some 1) 0 =
        some ⟨q, (initStatic true).resolved { clearMsg with type := 0x77 }, true⟩ ∧
      q.written.flatten.length = 8 ∧
      heard 0 (initStatic false) q.written.flatten =
        [(6, ⟨headOf (initStatic true) { clearMsg with type := 0x77 }, []⟩)] ∧
      ¬ EmptyConsumed (initStatic false) q.written.flatten
          (headOf (initStatic true) { clearMsg with type := 0x77 }) ∧
      (Resynced (initStatic false) q.written.flatten ↔
        (headOf (initStatic true) { clearMsg with type := 0x77 }).cksum ≠ sofByte) :=
  empty_frame (initStatic true) (initStatic false) { clearMsg with type := 0x77 } (some 1) 0 rfl rfl
    (by decide) rfl

/-- The first message of a slave with type 0xFF and no body: its checksum byte is 0x01, and the
    two frames sent after it are lost. -/
theorem empty_frame_lost :
    (send ⟨initStatic false, []⟩ { clearMsg with type := 0xFF }).map (·.port.written) =
        some [[1, 0, 0, 0, 0, 0, 0xFF, 1]] ∧
      ¬ EmptyConsumed (initStatic true) [1, 0, 0, 0, 0, 0, 0xFF, 1] ⟨0, 0, 0xFF⟩ ∧
      ¬ Resynced (initStatic true) [1, 0, 0, 0, 0, 0, 0xFF, 1] ∧
      heard 0 (initStatic true) ([1, 0, 0, 0, 0, 0, 0xFF, 1] ++ frameBytes ⟨1, 2, 0x22⟩ [7, 8] ++
        frameBytes ⟨2, 2, 0x22⟩ [7, 8]) = [(6, ⟨⟨0, 0, 0xFF⟩, []⟩)] := by
  refine ⟨by decide +kernel, ?_, ?_, by decide +kernel⟩
  · intro consumed
    exact absurd consumed.1 (by decide +kernel)
  · intro resynced
    exact absurd resynced.1 (by decide +kernel)

/-! ### Frames with a wrong header checksum -/

/-- What is expected of a frame with a wrong header checksum: nothing is reported, and it is gone
    with its checksum byte. -/
def Abandoned (parser : TinyFrame) (bytes : List UInt8) : Prop :=
  heard 0 parser bytes = [] ∧ Resynced parser bytes

/-- Whatever stands for the header checksum, a frame is never abandoned for it: without a length it
    is reported as received, with one the bytes that follow are read as its payload. -/
theorem rejected_frame (parser : TinyFrame) (h : Head) (ck : UInt8)
    (idle : parser.state = .SOF) :
    ¬ Abandoned parser (h.bytes ++ [ck]) ∧
      (Resynced parser (h.bytes ++ [ck]) ↔ h.len = 0 ∧ ck ≠ sofByte) ∧
      (h.len ≠ 0 → ∀ body c, body.length = h.len.toNat →
        heard 8 (after acceptChar parser (h.bytes ++ [ck])) (body ++ [c]) =
          if h.len > maxPayloadRx then [(8 + body.length, ⟨h, []⟩)]
          else if c = cksumOf body then [(8 + body.length, ⟨h, body⟩)] else []) := by
  have checked : after Phase.next .idle (h.bytes ++ [ck]) =
      if h.len = 0 then (if ck = sofByte then .header [] else .idle) else .payload h ck [] := by
    by_cases empty : h.len = 0
    · rw [(empty_after h ck empty).1, if_pos empty]
    · rw [after_append, (head_run 0 h).1, if_neg empty, if_neg empty]
      rfl
  have resynced : Resynced parser (h.bytes ++ [ck]) ↔ h.len = 0 ∧ ck ≠ sofByte := by
    rw [resynced_iff idle, checked]
    by_cases empty : h.len = 0
    · by_cases sof : ck = sofByte
      · simp [empty, sof]
      · simp [empty, sof]
    · simp [empty]
  refine ⟨?_, resynced, ?_⟩
  · intro ⟨silent, back⟩
    obtain ⟨empty, plain⟩ := resynced.mp back
    rw [heard_reported 0 (running_idle idle), (empty_after h ck empty).2] at silent
    exact nomatch silent
  · intro some body c full
    have run := after_running (running_idle idle) (h.bytes ++ [ck])
    have whole := (frame_run 0 ck c some full).2
    have quiet : reported 0 .idle (h.bytes ++ [ck]) = [] := by
      rw [reported_append, (head_run 0 h).2, if_neg some, (head_run 0 h).1, if_neg some]
      rfl
    have split : h.bytes ++ ck :: (body ++ [c]) = (h.bytes ++ [ck]) ++ (body ++ [c]) := by simp
    rw [split, reported_append, quiet, List.nil_append] at whole
    simp only [Nat.zero_add] at whole
    rw [heard_reported 8 run]
    exact whole

theorem rejected_frame_sample :
    ¬ Abandoned (initStatic true) ((⟨1, 30, 0x22⟩ : Head).bytes ++ [0]) ∧
      (Resynced (initStatic true) ((⟨1, 30, 0x22⟩ : Head).bytes ++ [0]) ↔
        (⟨1, 30, 0x22⟩ : Head).len = 0 ∧ (0 : UInt8) ≠ sofByte) ∧
      ((⟨1, 30, 0x22⟩ : Head).len ≠ 0 → ∀ body c, body.length = (⟨1, 30, 0x22⟩ : Head).len.toNat →
        heard 8 (after acceptChar (initStatic true) ((⟨1, 30, 0x22⟩ : Head).bytes ++ [0]))
          (body ++ [c]) =
          if (⟨1, 30, 0x22⟩ : Head).len > maxPayloadRx then [(8 + body.length, ⟨⟨1, 30, 0x22⟩, []⟩)]
          else if c = cksumOf body then [(8 + body.length, ⟨⟨1, 30, 0x22⟩, body⟩)] else []) :=
  rejected_frame (initStatic true) ⟨1, 30, 0x22⟩ 0 rfl

/-- A length corrupted to 30: the two good frames that follow are taken as payload. -/
theorem rejected_frame_swallows :
    (0 : UInt8) ≠ (⟨1, 30, 0x22⟩ : Head).cksum ∧
      ¬ Abandoned (initStatic true) ((⟨1, 30, 0x22⟩ : Head).bytes ++ [0]) ∧
      heard 0 (initStatic true) (frameBytes ⟨1, 2, 0x22⟩ [7, 8] ++ frameBytes ⟨2, 2, 0x22⟩ [7, 8]) =
        [(10, ⟨⟨1, 2, 0x22⟩, [7, 8]⟩), (21, ⟨⟨2, 2, 0x22⟩, [7, 8]⟩)] ∧
      heard 0 (initStatic true) ((⟨1, 30, 0x22⟩ : Head).bytes ++ [0] ++
        frameBytes ⟨1, 2, 0x22⟩ [7, 8] ++
        frameBytes ⟨2, 2, 0x22⟩ [7, 8]) = [] := by
  refine ⟨by decide +kernel, ?_, by decide +kernel, by decide +kernel⟩
  intro abandoned
  exact absurd abandoned.2.1 (by decide +kernel)

end TinyFrame
