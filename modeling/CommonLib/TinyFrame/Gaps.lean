import CommonLib.TinyFrame.Receive
import CommonLib.TinyFrame.Listeners
import Mathlib.Logic.Function.Iterate

/- Ticks between the bytes: fewer than the timeout change nothing, and after as many as the
   timeout the parser answers like one that waits for a SOF byte. -/
namespace TinyFrame
variable {tf tf' : TinyFrame} {p : Phase}

structure Timed where
  gap : Nat
  byte : UInt8

def timedChar (tf : TinyFrame) (b : Timed) : TinyFrame × Int := (tick^[b.gap] tf).acceptChar b.byte

def replies (tf : TinyFrame) : List Timed → List (Int × Option Report)
  | [] => []
  | b :: bs =>
    ((timedChar tf b).2, reportOf (timedChar tf b).1 (timedChar tf b).2) :: replies
    (timedChar tf b).1 bs

/-! ### The clock -/

theorem tick_ticks (tf : TinyFrame) : tf.tick.parserTimeoutTicks =
    if tf.parserTimeoutTicks < parserTimeout then tf.parserTimeoutTicks + 1 else tf.parserTimeoutTicks := by
  unfold tick
  by_cases early : tf.parserTimeoutTicks < parserTimeout
  · simp only [if_pos early]
    obtain ⟨table, count, frame⟩ := tickListeners_frame
      { tf with parserTimeoutTicks := tf.parserTimeoutTicks + 1 } (List.range tf.countIdLst)
    rw [frame]
  · simp only [if_neg early]
    obtain ⟨table, count, frame⟩ := tickListeners_frame tf (List.range tf.countIdLst)
    rw [frame]

theorem ticks_iterate (tf : TinyFrame) (n : Nat) : (tick^[n] tf).parserTimeoutTicks.toNat =
    max tf.parserTimeoutTicks.toNat (min (tf.parserTimeoutTicks.toNat + n) parserTimeout.toNat) := by
  induction n generalizing tf with
  | zero =>
    rw [Function.iterate_zero_apply]
    omega
  | succ n ih =>
    rw [Function.iterate_succ_apply, ih, tick_ticks]
    have limit : parserTimeout.toNat = 10 := rfl
    by_cases early : tf.parserTimeoutTicks < parserTimeout
    · rw [if_pos early]
      have small := UInt16.lt_iff_toNat_lt.mp early
      have next : (tf.parserTimeoutTicks + 1).toNat = tf.parserTimeoutTicks.toNat + 1 := by
        rw [UInt16.toNat_add]
        simp only [UInt16.toNat_one]
        omega
      rw [next]
      omega
    · rw [if_neg early]
      have late := UInt16.le_iff_toNat_le.mp (UInt16.not_lt.mp early)
      omega

theorem iterate_frame (tf : TinyFrame) (n : Nat) : ∃ ticks table count, tick^[n] tf =
    { tf with parserTimeoutTicks := ticks, idListeners := table, countIdLst := count } := by
  induction n generalizing tf with
  | zero => exact ⟨_, _, _, rfl⟩
  | succ n ih =>
    obtain ⟨ticks, table, count, first⟩ := tick_frame tf
    obtain ⟨ticks', table', count', rest⟩ := ih tf.tick
    rw [Function.iterate_succ_apply, rest, first]
    exact ⟨ticks', table', count', rfl⟩

/-! ### Parsers that differ in the clock -/

def SameParser (tf tf' : TinyFrame) : Prop := ∃ ticks table count, tf' =
  { tf with parserTimeoutTicks := ticks, idListeners := table, countIdLst := count }

theorem parseChar_clock (tf : TinyFrame) (c : UInt8) (ticks : UInt16) (table : Nat → IdListener)
    (count : Nat) :
    parseChar { tf with parserTimeoutTicks := ticks, idListeners := table, countIdLst := count } c =
      ({ (tf.parseChar c).1 with parserTimeoutTicks := ticks, idListeners := table, countIdLst := count },
        (tf.parseChar c).2) := by
  unfold parseChar
  cases at_ : tf.state with
  | SOF =>
    by_cases sof : c = sofByte
    · simp [sof, parsBeginFrame]
    · simp [sof, at_]
  | ID =>
    by_cases two : tf.rxi + 1 = 2
    · simp [two]
    · simp [two]
  | LEN =>
    by_cases two : tf.rxi + 1 = 2
    · simp [two]
    · simp [two]
  | TYPE =>
    by_cases two : tf.rxi + 1 = 2
    · by_cases empty : tf.len = 0
      · simp [two, empty, resetParser]
      · simp [two, empty]
    · simp [two]
  | HEAD_CKSUM =>
    by_cases one : tf.rxi + 1 = 1
    · by_cases bad : cksumEnd tf.cksum = collect8 tf.refCksum c
      · by_cases long : tf.len > maxPayloadRx
        · simp [one, bad, long]
        · simp [one, bad, long]
      · by_cases long : tf.len > maxPayloadRx
        · simp [one, bad, long, resetParser]
        · simp [one, bad, long, resetParser]
    · simp [one]
  | DATA =>
    by_cases discard : tf.discardData = true
    · by_cases last : tf.rxi + 1 = tf.len
      · simp [discard, last]
      · simp [discard, last]
    · by_cases last : tf.rxi + 1 = tf.len
      · simp [discard, last]
      · simp [discard, last]
  | DATA_CKSUM =>
    by_cases one : tf.rxi + 1 = 1
    · simp [one, resetParser]
    · simp [one]

theorem SameParser.parseChar (same : SameParser tf tf') (c : UInt8) :
    SameParser (tf.parseChar c).1 (tf'.parseChar c).1 ∧
        (tf'.parseChar c).2 = (tf.parseChar c).2 := by
  obtain ⟨ticks, table, count, rfl⟩ := same
  have clock := parseChar_clock tf c ticks table count
  rw [clock]
  exact ⟨⟨ticks, table, count, rfl⟩, rfl⟩

theorem SameParser.reportOf (same : SameParser tf tf') (result : Int) :
    reportOf tf' result = reportOf tf result := by
  obtain ⟨ticks, table, count, rfl⟩ := same
  rfl

theorem SameParser.symm (same : SameParser tf tf') : SameParser tf' tf := by
  obtain ⟨_, _, _, rfl⟩ := same
  exact ⟨tf.parserTimeoutTicks, tf.idListeners, tf.countIdLst, rfl⟩

theorem SameParser.trans {tf'' : TinyFrame} (same : SameParser tf tf')
    (next : SameParser tf' tf'') :
    SameParser tf tf'' := by
  obtain ⟨_, _, _, rfl⟩ := same
  obtain ⟨ticks, table, count, rfl⟩ := next
  exact ⟨ticks, table, count, rfl⟩

theorem clearTimeout_same (early : tf.parserTimeoutTicks < parserTimeout) :
    SameParser tf tf.clearTimeout := by
  unfold clearTimeout
  rw [if_neg (UInt16.not_le.mpr early)]
  exact ⟨0, tf.idListeners, tf.countIdLst, rfl⟩

/-- A byte after fewer ticks than the timeout is read as if there had been none. -/
theorem timedChar_short (same : SameParser tf tf') (fresh : tf.parserTimeoutTicks = 0)
    (fresh' : tf'.parserTimeoutTicks = 0) {b : Timed} (short : b.gap < parserTimeout.toNat) :
    SameParser (tf.acceptChar b.byte).1 (timedChar tf' b).1 ∧
        (timedChar tf' b).2 = (tf.acceptChar b.byte).2 := by
  have time := ticks_iterate tf' b.gap
  have late : (tick^[b.gap] tf').parserTimeoutTicks < parserTimeout := by
    rw [UInt16.lt_iff_toNat_lt, time, fresh']
    simp only [UInt16.toNat_zero]
    omega
  have early : tf.parserTimeoutTicks < parserTimeout := by
    rw [fresh]
    decide
  have ticked : SameParser tf' (tick^[b.gap] tf') := iterate_frame tf' b.gap
  have cleared := (clearTimeout_same early).symm.trans
    ((same.trans ticked).trans (clearTimeout_same late))
  exact cleared.parseChar b.byte

theorem acceptChar_ticks (tf : TinyFrame) (c : UInt8) :
    (tf.acceptChar c).1.parserTimeoutTicks = 0 := by
  unfold acceptChar
  rw [parseChar_ticks]
  rfl

theorem replies_short (same : SameParser tf tf') (fresh : tf.parserTimeoutTicks = 0)
    (fresh' : tf'.parserTimeoutTicks = 0) {bs : List Timed}
    (short : ∀ b ∈ bs, b.gap < parserTimeout.toNat) :
    replies tf' bs = replies tf (bs.map fun b => ⟨0, b.byte⟩) := by
  induction bs generalizing tf tf' with
  | nil => rfl
  | cons b bs ih =>
    obtain ⟨next, result⟩ := timedChar_short same fresh fresh' (short b List.mem_cons_self)
    have rest := ih next (acceptChar_ticks tf b.byte) (acceptChar_ticks _ b.byte) fun b' hb =>
      short b' (List.mem_cons_of_mem _ hb)
    rw [List.map_cons, replies, replies, rest, result, next.reportOf]
    rfl

/-! ### The results -/

def headerResult : Nat → Int
  | 0 => -2
  | 1 => 2
  | 2 => -3
  | 3 => 3
  | 4 => -4
  | _ => 4

def Phase.result : Phase → UInt8 → Int
  | .idle, c => if c = sofByte then 1 else -1
  | .header got, c =>
    if got.length = 5 ∧ (Head.ofFields (got ++ [c])).len = 0 then 0 else headerResult got.length
  | .check head, c => if head.len > maxPayloadRx then -9 else if head.cksum ≠ c then -8 else 5
  | .payload head _ _, _ => if head.len > maxPayloadRx then -6 else 6
  | .tail head _ body, c => if head.len > maxPayloadRx then 0 else if c = cksumOf body then 0 else -10

theorem header_result {got : List UInt8} (c : UInt8) (short : got.length < 6)
    (state : tf.state = if got.length < 2 then .ID else if got.length < 4 then .LEN else .TYPE)
    (rxi : tf.rxi.toNat = got.length % 2)
    (len : ∃ old, tf.len = ((got.drop 2).take 2).foldl collect16 old) :
    (tf.parseChar c).2 = (Phase.header got).result c := by
  have full : (1 + 1 : UInt16) = 2 := by decide
  obtain ⟨old, len⟩ := len
  unfold TinyFrame.parseChar Phase.result
  match got, short with
  | [], _ =>
    have state : tf.state = .ID := state
    have rxi : tf.rxi = 0 := UInt16.toNat_inj.mp (by simpa using rxi)
    simp [state, rxi, headerResult]
  | [a], _ =>
    have state : tf.state = .ID := state
    have rxi : tf.rxi = 1 := UInt16.toNat_inj.mp (by simpa using rxi)
    simp [state, rxi, full, headerResult]
  | [a, b], _ =>
    have state : tf.state = .LEN := state
    have rxi : tf.rxi = 0 := UInt16.toNat_inj.mp (by simpa using rxi)
    simp [state, rxi, headerResult]
  | [a, b, d], _ =>
    have state : tf.state = .LEN := state
    have rxi : tf.rxi = 1 := UInt16.toNat_inj.mp (by simpa using rxi)
    simp [state, rxi, full, headerResult]
  | [a, b, d, e], _ =>
    have state : tf.state = .TYPE := state
    have rxi : tf.rxi = 0 := UInt16.toNat_inj.mp (by simpa using rxi)
    simp [state, rxi, headerResult]
  | [a, b, d, e, f], _ =>
    have state : tf.state = .TYPE := state
    have rxi : tf.rxi = 1 := UInt16.toNat_inj.mp (by simpa using rxi)
    have length : (Head.ofFields [a, b, d, e, f, c]).len = tf.len := by
      rw [len]
      exact collect16_two 0 old d e
    by_cases empty : tf.len = 0
    · simp [state, rxi, full, length, empty]
    · simp [state, rxi, full, length, empty, headerResult]

theorem Reads.result (reads : Reads tf p) (c : UInt8) : (tf.parseChar c).2 = p.result c := by
  cases reads with
  | idle state =>
    unfold TinyFrame.parseChar Phase.result
    simp only [state]
    split
    · rfl
    · rfl
  | header got short state rxi cksum keep id len type => exact header_result c short state rxi len
  | check head state rxi cksum keep fields some =>
    have length : tf.len = head.len := congrArg Head.len fields
    have sum : cksumEnd tf.cksum = head.cksum := congrArg cksumEnd cksum
    rw [parseChar_check c state rxi, Phase.result, length, sum]
  | payload head ck body state rxi short discard stored fields =>
    rw [parseChar_payload c state, Phase.result, discard]
    simp only [decide_eq_true_eq]
  | tail head ck body state rxi filled full discard stored fields =>
    have length : tf.len = head.len := congrArg Head.len fields
    rw [parseChar_tail c state rxi, Phase.result, discard]
    by_cases long : head.len > maxPayloadRx
    · simp [long]
    · rw [decide_eq_false long] at discard
      have sum : cksumEnd tf.cksum = cksumOf body := congrArg cksumEnd (stored discard).1
      simp [long, sum, eq_comm (a := cksumOf body)]

/-! ### Gaps -/

def Phase.awaiting (p : Phase) (gap : Nat) : Phase := if gap < parserTimeout.toNat then p else .idle

structure Answers (tf : TinyFrame) (b : Timed) (p : Phase) : Prop where
  reads : Reads (timedChar tf b).1 (p.next b.byte).1
  result : (timedChar tf b).2 = p.result b.byte
  told : reportOf (timedChar tf b).1 (timedChar tf b).2 = (p.next b.byte).2

theorem Reads.answers {b : Timed} (reads : Reads (tick^[b.gap] tf).clearTimeout p) :
    Answers tf b p where
  reads := (follows b.byte reads).1
  result := reads.result b.byte
  told := (follows b.byte reads).2

theorem answers_late (tf : TinyFrame) {b : Timed} (long : parserTimeout.toNat ≤ b.gap) :
    Answers tf b .idle := by
  have time := ticks_iterate tf b.gap
  refine (clearTimeout_late ?_).answers
  rw [UInt16.le_iff_toNat_le, time]
  omega

theorem answers_fresh (reads : Reads tf p) (fresh : tf.parserTimeoutTicks = 0) (b : Timed) :
    Answers tf b (p.awaiting b.gap) := by
  unfold Phase.awaiting
  split
  · rename_i short
    obtain ⟨ticks, table, count, ticked⟩ := iterate_frame tf b.gap
    have time := ticks_iterate tf b.gap
    refine (clearTimeout_early ?_ ?_).answers
    · rw [ticked]
      exact reads.clock ticks table count
    · rw [UInt16.lt_iff_toNat_lt, time, fresh]
      simp only [UInt16.toNat_zero]
      omega
  · rename_i long
    exact answers_late tf (Nat.not_lt.mp long)

theorem replies_congr (reads : Reads tf p) (reads' : Reads tf' p)
    (fresh : tf.parserTimeoutTicks = 0)
    (fresh' : tf'.parserTimeoutTicks = 0) (bs : List Timed) : replies tf bs = replies tf' bs := by
  induction bs generalizing tf tf' p with
  | nil => rfl
  | cons b bs ih =>
    obtain ⟨next, result, told⟩ := answers_fresh reads fresh b
    obtain ⟨next', result', told'⟩ := answers_fresh reads' fresh' b
    rw [replies, replies, told, told', result, result',
      ih next next' (acceptChar_ticks _ _) (acceptChar_ticks _ _)]

theorem replies_append (tf : TinyFrame) (bs cs : List Timed) : ∃ tf1,
    replies tf (bs ++ cs) = replies tf bs ++ replies tf1 cs := by
  induction bs generalizing tf with
  | nil => exact ⟨tf, rfl⟩
  | cons b bs ih =>
    obtain ⟨tf1, rest⟩ := ih (timedChar tf b).1
    exact ⟨tf1, congrArg (_ :: ·) rest⟩

/-- Ticks between bytes: gaps below the timeout do not show in the replies, and after a gap of
    the timeout or more the replies are those of any parser that is in `TFState_SOF`. -/
theorem ticks_between_bytes (tf : TinyFrame) (bs : List Timed) :
    (tf.parserTimeoutTicks = 0 → (∀ b ∈ bs, b.gap < parserTimeout.toNat) →
      replies tf bs = replies tf (bs.map fun b => ⟨0, b.byte⟩)) ∧
    ∀ before b rest, bs = before ++ b :: rest → parserTimeout.toNat ≤ b.gap →
      ∀ tf' : TinyFrame, tf'.state = .SOF →
        replies tf bs = replies tf before ++ replies tf' (⟨0, b.byte⟩ :: rest) := by
  constructor
  · intro fresh short
    exact replies_short ⟨_, _, _, rfl⟩ fresh fresh short
  · rintro before b rest rfl long tf' sof
    obtain ⟨tf1, parts⟩ := replies_append tf before (b :: rest)
    obtain ⟨next, result, told⟩ := answers_late tf1 long
    have waits : Reads (tick^[0] tf').clearTimeout .idle := by
      rcases clearTimeout_reads (Reads.idle sof) with same | given
      · exact same
      · exact given
    obtain ⟨next', result', told'⟩ := waits.answers (b := ⟨0, b.byte⟩)
    have later := replies_congr next next' (acceptChar_ticks _ _) (acceptChar_ticks _ _) rest
    rw [parts, replies, replies, later, told, told', result, result']

theorem ticks_between_bytes_sample :
    replies (initStatic true) [⟨9, 1⟩, ⟨9, 0⟩, ⟨9, 0⟩] =
      replies (initStatic true) [⟨0, 1⟩, ⟨0, 0⟩, ⟨0, 0⟩] ∧
      replies (initStatic true) [⟨0, 1⟩, ⟨10, 0⟩] =
        replies (initStatic true) [⟨0, 1⟩] ++ replies (initStatic false) [⟨0, 0⟩] :=
  ⟨(ticks_between_bytes (initStatic true) _).1 rfl (by decide),
    (ticks_between_bytes (initStatic true) _).2 [⟨0, 1⟩] ⟨10, 0⟩ [] rfl
    (by decide) (initStatic false) rfl⟩

end TinyFrame
