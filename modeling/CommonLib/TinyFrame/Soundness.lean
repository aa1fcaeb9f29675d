import CommonLib.TinyFrame.Receive
import CommonLib.TinyFrame.Listeners

/- What result 0 says about the bytes read: the parser watched over any bytes, ticks and resets. -/
namespace TinyFrame
open Stream

inductive Event where
  | byte (c : UInt8)
  | tick
  | reset
  deriving DecidableEq, Repr

structure Watch where
  tf : TinyFrame
  seen : List UInt8

def Watch.consumed (w : Watch) (c : UInt8) : List UInt8 :=
  if w.tf.clearTimeout.state = .SOF then [c] else w.seen ++ [c]

def Watch.step (w : Watch) : Event → Watch × Option Int
  | .byte c => (⟨(w.tf.acceptChar c).1, w.consumed c⟩, some (w.tf.acceptChar c).2)
  | .tick => (⟨w.tf.tick, w.seen⟩, none)
  | .reset => (⟨w.tf.resetParser, w.seen⟩, none)

def Watch.start (peerBit : Bool) : Watch := ⟨initStatic peerBit, []⟩

def Watch.run (peerBit : Bool) (events : List Event) : Watch :=
  after Watch.step (.start peerBit) events

/-- Exactly one frame, its checksums right and its payload short enough. -/
def WellFormed (bytes : List UInt8) : Prop :=
  ∃ (h : Head) (body : List UInt8), h.len ≤ maxPayloadRx ∧ body.length = h.len.toNat ∧
    bytes = frameBytes h body

/-- The byte strings that are reported although they are not well-formed frames: a header that
    declares no payload, without its checksum; a frame that is too long; a frame with a wrong
    header checksum and a right payload checksum. -/
inductive Misread : List UInt8 → Prop where
  | empty (h : Head) (none : h.len = 0) : Misread h.bytes
  | long (h : Head) (ck : UInt8) (body : List UInt8) (c : UInt8) (long : h.len > maxPayloadRx)
      (full : body.length = h.len.toNat) : Misread (h.bytes ++ ck :: (body ++ [c]))
  | header (h : Head) (ck : UInt8) (body : List UInt8) (some : h.len ≠ 0) (short : h.len ≤ maxPayloadRx)
      (full : body.length = h.len.toNat) (wrong : ck ≠ h.cksum) :
      Misread (h.bytes ++ ck :: (body ++ [cksumOf body]))

def Sound (peerBit : Bool) (events : List Event) : Prop :=
  ∀ before c rest, events = before ++ .byte c :: rest →
    ((Watch.run peerBit before).tf.acceptChar c).2 = 0 →
    WellFormed ((Watch.run peerBit before).consumed c)

/-- At no byte of the run have the bytes of a misread frame been consumed. -/
def Clean (peerBit : Bool) (events : List Event) : Prop :=
  ∀ before c rest, events = before ++ .byte c :: rest →
    ¬ Misread ((Watch.run peerBit before).consumed c)

/-! ### Byte strings -/

theorem Head.bytes_append {h h' : Head} {rest rest' : List UInt8}
    (same : h.bytes ++ rest = h'.bytes ++ rest') : h = h' ∧ rest = rest' := by
  obtain ⟨bytes, rest⟩ := List.append_inj same rfl
  have fields : h.fields = h'.fields := List.tail_eq_of_cons_eq bytes
  refine ⟨?_, rest⟩
  rw [← h.ofFields_fields, fields, h'.ofFields_fields]

theorem WellFormed.not_misread {bytes : List UInt8} (formed : WellFormed bytes) :
    ¬ Misread bytes := by
  obtain ⟨h, body, short, full, rfl⟩ := formed
  unfold frameBytes
  intro misread
  generalize same : h.bytes ++ h.cksum :: (if body = [] then [] else body ++ [cksumOf body]) = bytes
    at misread
  cases misread with
  | empty h' none =>
    have size := congrArg List.length same
    simp at size
  | long h' ck' body' c' long full' =>
    obtain ⟨rfl, _⟩ := Head.bytes_append same
    exact absurd short (UInt16.not_le.mpr long)
  | header h' ck' body' some' short' full' wrong =>
    obtain ⟨rfl, rest⟩ := Head.bytes_append same
    exact wrong (List.head_eq_of_cons_eq rest).symm

theorem Misread.reported {bytes : List UInt8} (misread : Misread bytes) :
    reported 0 .idle bytes ≠ [] := by
  cases misread with
  | empty h none =>
    rw [(head_run 0 h).2, if_pos none]
    exact List.cons_ne_nil _ _
  | long h ck body c long full =>
    have some : h.len ≠ 0 := by
      intro zero
      rw [zero] at long
      exact absurd long (by decide)
    rw [(frame_run 0 ck c some full).2, if_pos long]
    exact List.cons_ne_nil _ _
  | header h ck body some short full wrong =>
    rw [(frame_run 0 ck (cksumOf body) some full).2, if_neg (UInt16.not_lt.mpr short), if_pos rfl]
    exact List.cons_ne_nil _ _

/-! ### What has been consumed -/

structure Watch.Tracks (w : Watch) (p : Phase) : Prop where
  reads : Reads w.tf p
  seen : p ≠ .idle → p.seen = w.seen
  replay : after Phase.next .idle p.seen = p
  quiet : reported 0 .idle p.seen = []

theorem Watch.Tracks.clear {w : Watch} {p : Phase} (tracks : w.Tracks p) :
    ∃ p', Reads w.tf.clearTimeout p' ∧ after Phase.next .idle p'.seen = p' ∧
      reported 0 .idle p'.seen = [] ∧ ∀ c, p'.seen ++ [c] = w.consumed c := by
  rcases clearTimeout_reads tracks.reads with same | given
  · refine ⟨p, same, tracks.replay, tracks.quiet, fun c => ?_⟩
    unfold Watch.consumed
    by_cases idle : p = .idle
    · rw [if_pos (same.sof_iff.mpr idle), idle]
      rfl
    · rw [if_neg fun sof => idle (same.sof_iff.mp sof), tracks.seen idle]
  · refine ⟨.idle, given, rfl, rfl, fun c => ?_⟩
    unfold Watch.consumed
    rw [if_pos (given.sof_iff.mpr rfl)]
    rfl

theorem bytes_ofFields {got : List UInt8} {c : UInt8} (short : got.length < 6)
    (last : ¬ got.length + 1 < 6) : (Head.ofFields (got ++ [c])).bytes = sofByte :: got ++ [c] := by
  have six : (got ++ [c]).length = 6 := by
    rw [List.length_append, List.length_singleton]
    omega
  exact congrArg (sofByte :: ·) (Head.fields_ofFields six)

theorem next_seen {tf : TinyFrame} {p : Phase} {c : UInt8} (reads : Reads tf p)
    (on : (p.next c).1 ≠ .idle) : (p.next c).1.seen = p.seen ++ [c] ∧ (p.next c).2 = none := by
  revert on
  cases reads with
  | idle =>
    simp only [Phase.next]
    split
    · rename_i sof
      intro _
      rw [sof]
      exact ⟨rfl, rfl⟩
    · intro on
      exact absurd rfl on
  | header got short =>
    simp only [Phase.next]
    split
    · intro _
      exact ⟨rfl, rfl⟩
    · rename_i last
      split
      · intro on
        exact absurd rfl on
      · intro _
        exact ⟨bytes_ofFields short last, rfl⟩
  | check head =>
    intro _
    exact ⟨rfl, rfl⟩
  | payload head ck body =>
    simp only [Phase.next]
    split
    · intro _
      simp [Phase.seen]
    · intro _
      simp [Phase.seen]
  | tail head ck body =>
    simp only [Phase.next]
    split
    · intro on
      exact absurd rfl on
    · split
      · intro on
        exact absurd rfl on
      · intro on
        exact absurd rfl on

/-- A reported frame is well-formed or misread. -/
theorem next_reported {tf : TinyFrame} {p : Phase} {c : UInt8} (reads : Reads tf p)
    (told : (p.next c).2 ≠ none) : WellFormed (p.seen ++ [c]) ∨ Misread (p.seen ++ [c]) := by
  revert told
  cases reads with
  | idle =>
    simp only [Phase.next]
    split
    · intro told
      exact absurd rfl told
    · intro told
      exact absurd rfl told
  | header got short =>
    simp only [Phase.next]
    split
    · intro told
      exact absurd rfl told
    · rename_i last
      split
      · rename_i none
        intro _
        right
        have bytes := bytes_ofFields (c := c) short last
        have misread := Misread.empty (Head.ofFields (got ++ [c])) none
        rw [bytes] at misread
        exact misread
      · intro told
        exact absurd rfl told
  | check head =>
    intro told
    exact absurd rfl told
  | payload head ck body =>
    simp only [Phase.next]
    split
    · intro told
      exact absurd rfl told
    · intro told
      exact absurd rfl told
  | tail head ck body state rxi filled full =>
    have bytes : Phase.seen (.tail head ck body) ++ [c] = head.bytes ++ ck :: (body ++ [c]) := by
      simp [Phase.seen]
    rw [bytes]
    simp only [Phase.next]
    split
    · rename_i long
      intro _
      right
      exact .long head ck body c long full
    · rename_i short
      split
      · rename_i good
        intro _
        rw [good]
        by_cases agree : ck = head.cksum
        · left
          refine ⟨head, body, UInt16.not_lt.mp short, full, ?_⟩
          rw [agree, frameBytes, if_neg filled]
        · right
          have some : head.len ≠ 0 := by
            intro zero
            rw [zero] at full
            exact filled (List.length_eq_zero_iff.mp full)
          exact .header head ck body some (UInt16.not_lt.mp short) full agree
      · intro told
        exact absurd rfl told

/-! ### Runs -/

theorem reported_snoc (p : Phase) (bytes : List UInt8) (c : UInt8)
    (quiet : reported 0 .idle bytes = []) (replay : after Phase.next .idle bytes = p) :
    reported 0 .idle (bytes ++ [c]) = (p.next c).2.toList.map fun r => (bytes.length, r) := by
  rw [reported_append, quiet, replay, reported_cons]
  simp [reported, marks]

theorem Watch.Tracks.byte {w : Watch} {p : Phase} (tracks : w.Tracks p) (c : UInt8) :
    (∃ p', Watch.Tracks (w.step (.byte c)).1 p') ∧
      ((w.tf.acceptChar c).2 = 0 ↔ reported 0 .idle (w.consumed c) ≠ []) ∧
      ((w.tf.acceptChar c).2 = 0 → WellFormed (w.consumed c) ∨ Misread (w.consumed c)) := by
  obtain ⟨p', reads, replay, quiet, whole⟩ := tracks.clear
  obtain ⟨next, told⟩ := follows c reads
  have zero : (w.tf.acceptChar c).2 = 0 ↔ (p'.next c).2 ≠ none := by
    rw [← told]
    unfold reportOf acceptChar
    split
    · rename_i zero
      simp [zero]
    · rename_i other
      simp [other]
  have answer := reported_snoc p' p'.seen c quiet replay
  rw [whole] at answer
  refine ⟨?_, ?_, ?_⟩
  · by_cases on : (p'.next c).1 = .idle
    · refine ⟨.idle, ?_, fun no => absurd rfl no, rfl, rfl⟩
      rw [on] at next
      exact next
    · obtain ⟨seen, silent⟩ := next_seen reads on
      rw [whole] at seen
      refine ⟨(p'.next c).1, next, fun _ => seen, ?_, ?_⟩
      · rw [seen, ← whole, after_snoc, replay]
      · rw [seen, answer, silent]
        rfl
  · rw [zero, answer]
    cases (p'.next c).2 with
    | none => simp
    | some r => simp
  · intro done
    rw [← whole]
    exact next_reported reads (zero.mp done)

theorem Watch.Tracks.tick {w : Watch} {p : Phase} (tracks : w.Tracks p) :
    Watch.Tracks (w.step .tick).1 p := by
  obtain ⟨ticks, table, count, frame⟩ := tick_frame w.tf
  constructor
  · simp only [Watch.step, frame]
    exact tracks.reads.clock ticks table count
  · exact tracks.seen
  · exact tracks.replay
  · exact tracks.quiet

theorem Watch.run_tracks (peerBit : Bool) (events : List Event) :
    ∃ p, (Watch.run peerBit events).Tracks p := by
  apply after_keeps Watch.step (I := fun w => ∃ p, w.Tracks p)
  · intro w event ⟨p, tracks⟩
    cases event with
    | byte c => exact (tracks.byte c).1
    | tick => exact ⟨p, tracks.tick⟩
    | reset => exact ⟨.idle, .idle rfl, fun no => absurd rfl no, rfl, rfl⟩
  · exact ⟨.idle, .idle rfl, fun no => absurd rfl no, rfl, rfl⟩

/-- Result 0 means a well-formed frame in just the runs in which no misread frame is consumed. -/
theorem sound_iff_clean (peerBit : Bool) (events : List Event) :
    Sound peerBit events ↔ Clean peerBit events := by
  constructor
  · intro sound before c rest cut misread
    obtain ⟨p, tracks⟩ := Watch.run_tracks peerBit before
    have zero := (tracks.byte c).2.1.mpr misread.reported
    exact (sound before c rest cut zero).not_misread misread
  · intro clean before c rest cut zero
    obtain ⟨p, tracks⟩ := Watch.run_tracks peerBit before
    rcases (tracks.byte c).2.2 zero with formed | misread
    · exact formed
    · exact absurd misread (clean before c rest cut)

/-- The seven bytes of a header that declares no payload are reported without its checksum, and
    a frame with a wrong header checksum is reported like a good one. -/
theorem unsound_sample : ¬ Sound false ([1, 0, 0, 0, 0, 0, 0x77].map .byte) ∧
    ¬ Sound false ([1, 0, 1, 0, 1, 0, 0x22, 0, 7, 248].map .byte) := by
  constructor
  · intro sound
    have formed := sound ([1, 0, 0, 0, 0, 0].map .byte) 0x77 [] rfl (by decide +kernel)
    have misread : Misread [1, 0, 0, 0, 0, 0, 0x77] := .empty ⟨0, 0, 0x77⟩ rfl
    exact formed.not_misread misread
  · intro sound
    have formed := sound ([1, 0, 1, 0, 1, 0, 0x22, 0, 7].map .byte) 248 [] rfl (by decide +kernel)
    have misread : Misread [1, 0, 1, 0, 1, 0, 0x22, 0, 7, 248] :=
      .header ⟨1, 1, 0x22⟩ 0 [7] (by decide) (by decide) rfl (by decide)
    exact formed.not_misread misread

end TinyFrame
