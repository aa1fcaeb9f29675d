import CommonLib.TinyFrame.Parser

/- The parser over the bytes of the frame in progress, and that `TF_AcceptChar` simulates it. -/
namespace TinyFrame

/-- The three numbers of a frame's header. -/
structure Head where
  id : UInt16
  len : UInt16
  type : UInt16
  deriving DecidableEq, Repr

def Head.fields (h : Head) : List UInt8 := writenum16 h.id ++ writenum16 h.len ++ writenum16 h.type
def Head.bytes (h : Head) : List UInt8 := sofByte :: h.fields
def Head.cksum (h : Head) : UInt8 := cksumOf h.bytes

def Head.ofFields (got : List UInt8) : Head :=
  ⟨(got.take 2).foldl collect16 0, ((got.drop 2).take 2).foldl collect16 0,
    (got.drop 4).foldl collect16 0⟩

/-- What the frame in progress has brought so far. -/
inductive Phase where
  | idle
  | header (got : List UInt8)
  | check (head : Head)
  | payload (head : Head) (ck : UInt8) (body : List UInt8)
  | tail (head : Head) (ck : UInt8) (body : List UInt8)
  deriving DecidableEq, Repr

def Phase.seen : Phase → List UInt8
  | .idle => []
  | .header got => sofByte :: got
  | .check head => head.bytes
  | .payload head ck body => head.bytes ++ ck :: body
  | .tail head ck body => head.bytes ++ ck :: body

/-- A frame as reported: its numbers and, when it fits the data array, its payload. -/
structure Report where
  head : Head
  data : List UInt8
  deriving DecidableEq, Repr

/-- One byte read; the second component is the frame that result 0 stands for. -/
def Phase.next : Phase → UInt8 → Phase × Option Report
  | .idle, c => if c = sofByte then (.header [], none) else (.idle, none)
  | .header got, c =>
    if got.length + 1 < 6 then (.header (got ++ [c]), none)
    else
      let head := Head.ofFields (got ++ [c])
      if head.len = 0 then (.idle, some ⟨head, []⟩) else (.check head, none)
  | .check head, c => (.payload head c [], none)
  | .payload head ck body, c =>
    if body.length + 1 = head.len.toNat then (.tail head ck (body ++ [c]), none)
    else (.payload head ck (body ++ [c]), none)
  | .tail head _ body, c =>
    if head.len > maxPayloadRx then (.idle, some ⟨head, []⟩)
    else if c = cksumOf body then (.idle, some ⟨head, body⟩)
    else (.idle, none)

def reportOf (tf : TinyFrame) (result : Int) : Option Report :=
  if result = 0 then
    some ⟨⟨tf.id, tf.len, tf.type⟩,
      if tf.len > maxPayloadRx then [] else (List.range tf.len.toNat).map tf.data⟩
  else none

theorem reportOf_pending {tf : TinyFrame} {result : Int} (pending : result ≠ 0) :
    reportOf tf result = none := if_neg pending

theorem reportOf_zero {tf : TinyFrame} {head : Head}
    (fields : (⟨tf.id, tf.len, tf.type⟩ : Head) = head) :
    reportOf tf 0 = some ⟨head,
      if head.len > maxPayloadRx then [] else (List.range head.len.toNat).map tf.data⟩ := by
  subst fields
  rfl

/-! ### Headers as bytes -/

theorem Head.ofFields_fields (h : Head) : Head.ofFields h.fields = h := by
  have fields : Head.ofFields h.fields = ⟨(writenum16 h.id).foldl collect16 0,
      (writenum16 h.len).foldl collect16 0, (writenum16 h.type).foldl collect16 0⟩ := rfl
  rw [fields, collect16_writenum, collect16_writenum, collect16_writenum]

theorem Head.fields_ofFields {got : List UInt8} (six : got.length = 6) :
    (Head.ofFields got).fields = got := by
  match got, six with
  | [a, b, c, d, e, f], _ =>
    simp only [Head.ofFields, Head.fields, List.take_succ_cons, List.take_zero, List.drop_succ_cons,
      List.drop_zero, List.foldl_cons, List.foldl_nil, writenum_collect16]
    rfl

@[simp] theorem Head.fields_length (h : Head) : h.fields.length = 6 := rfl
@[simp] theorem Head.bytes_length (h : Head) : h.bytes.length = 7 := rfl

/-! ### The simulation -/

inductive Reads (tf : TinyFrame) : Phase → Prop where
  | idle (state : tf.state = .SOF) : Reads tf .idle
  | header (got : List UInt8) (short : got.length < 6)
      (state : tf.state = if got.length < 2 then .ID else if got.length < 4 then .LEN else .TYPE)
      (rxi : tf.rxi.toNat = got.length % 2)
      (cksum : tf.cksum = (sofByte :: got).foldl cksumAdd cksumStart)
      (keep : tf.discardData = false)
      (id : ∃ old, tf.id = (got.take 2).foldl collect16 old)
      (len : ∃ old, tf.len = ((got.drop 2).take 2).foldl collect16 old)
      (type : ∃ old, tf.type = (got.drop 4).foldl collect16 old) : Reads tf (.header got)
  | check (head : Head) (state : tf.state = .HEAD_CKSUM) (rxi : tf.rxi = 0)
      (cksum : tf.cksum = head.bytes.foldl cksumAdd cksumStart)
      (keep : tf.discardData = false) (fields : (⟨tf.id, tf.len, tf.type⟩ : Head) = head)
      (some : head.len ≠ 0) : Reads tf (.check head)
  | payload (head : Head) (ck : UInt8) (body : List UInt8) (state : tf.state = .DATA)
      (rxi : tf.rxi.toNat = body.length) (short : body.length < head.len.toNat)
      (discard : tf.discardData = decide (head.len > maxPayloadRx))
      (stored : tf.discardData = false → tf.cksum = body.foldl cksumAdd cksumStart ∧
        (List.range body.length).map tf.data = body)
      (fields : (⟨tf.id, tf.len, tf.type⟩ : Head) = head) : Reads tf (.payload head ck body)
  | tail (head : Head) (ck : UInt8) (body : List UInt8) (state : tf.state = .DATA_CKSUM)
      (rxi : tf.rxi = 0) (filled : body ≠ []) (full : body.length = head.len.toNat)
      (discard : tf.discardData = decide (head.len > maxPayloadRx))
      (stored : tf.discardData = false → tf.cksum = body.foldl cksumAdd cksumStart ∧
        (List.range body.length).map tf.data = body)
      (fields : (⟨tf.id, tf.len, tf.type⟩ : Head) = head) : Reads tf (.tail head ck body)

variable {tf : TinyFrame}

theorem Reads.sof_iff {p : Phase} (reads : Reads tf p) :
    tf.state = .SOF ↔ p = .idle := by
  cases reads with
  | idle state => simp [state]
  | header got short state rxi cksum keep id len type =>
    constructor
    · intro sof
      rw [state] at sof
      split at sof
      · exact nomatch sof
      · split at sof
        · exact nomatch sof
        · exact nomatch sof
    · intro idle
      exact nomatch idle
  | check head state rxi cksum keep fields some => simp [state]
  | payload head ck body state rxi short discard stored fields => simp [state]
  | tail head ck body state rxi filled full discard stored fields => simp [state]

def Follows (tf : TinyFrame) (p : Phase) (c : UInt8) : Prop :=
  Reads (tf.parseChar c).1 (p.next c).1 ∧
    reportOf (tf.parseChar c).1 (tf.parseChar c).2 = (p.next c).2

theorem follows_idle (c : UInt8) (state : tf.state = .SOF) : Follows tf .idle c := by
  unfold Follows parseChar Phase.next
  simp only [state]
  by_cases sof : c = sofByte
  · simp only [sof, ↓reduceIte]
    constructor
    · apply Reads.header
      · simp
      · rfl
      · rfl
      · rfl
      · rfl
      · exact ⟨_, rfl⟩
      · exact ⟨_, rfl⟩
      · exact ⟨_, rfl⟩
    · rfl
  · simp only [sof, ↓reduceIte]
    constructor
    · apply Reads.idle
      exact state
    · rfl

theorem collect16_two (x y : UInt16) (a b : UInt8) :
    collect16 (collect16 x a) b = collect16 (collect16 y a) b := by
  apply UInt16.toNat_inj.mp
  simp only [collect16_toNat]
  omega

theorem follows_header {got : List UInt8} (c : UInt8) (reads : Reads tf (.header got)) :
    Follows tf (.header got) c := by
  cases reads with
  | header got short state rxi cksum keep id len type =>
  obtain ⟨id0, id⟩ := id
  obtain ⟨len0, len⟩ := len
  obtain ⟨type0, type⟩ := type
  unfold Follows parseChar Phase.next
  match got, short with
  | [], _ =>
    have state : tf.state = .ID := state
    have rxi : tf.rxi = 0 := UInt16.toNat_inj.mp (by simpa using rxi)
    have short : ¬ (0 + 1 : UInt16) = 2 := by decide
    simp only [state, rxi, short, ↓reduceIte]
    constructor
    · refine .header [c] (by simp) rfl (by simp) ?_ keep ⟨id0, ?_⟩ ⟨len0, len⟩ ⟨type0, type⟩
      · simp [cksum]
      · simp [id]
    · rfl
  | [a], _ =>
    have state : tf.state = .ID := state
    have rxi : tf.rxi = 1 := UInt16.toNat_inj.mp (by simpa using rxi)
    have full : (1 + 1 : UInt16) = 2 := by decide
    simp only [state, rxi, full, ↓reduceIte]
    constructor
    · refine .header [a, c] (by simp) rfl (by simp) ?_ keep ⟨id0, ?_⟩ ⟨len0, len⟩ ⟨type0, type⟩
      · simp [cksum]
      · simp [id]
    · rfl
  | [a, b], _ =>
    have state : tf.state = .LEN := state
    have rxi : tf.rxi = 0 := UInt16.toNat_inj.mp (by simpa using rxi)
    have short : ¬ (0 + 1 : UInt16) = 2 := by decide
    simp only [state, rxi, short, ↓reduceIte]
    constructor
    · refine .header [a, b, c] (by simp) rfl (by simp) ?_ keep ⟨id0, id⟩ ⟨len0, ?_⟩ ⟨type0, type⟩
      · simp [cksum]
      · simp [len]
    · rfl
  | [a, b, d], _ =>
    have state : tf.state = .LEN := state
    have rxi : tf.rxi = 1 := UInt16.toNat_inj.mp (by simpa using rxi)
    have full : (1 + 1 : UInt16) = 2 := by decide
    simp only [state, rxi, full, ↓reduceIte]
    constructor
    · refine .header [a, b, d, c] (by simp) rfl (by simp) ?_ keep ⟨id0, id⟩ ⟨len0, ?_⟩ ⟨type0, type⟩
      · simp [cksum]
      · simp [len]
    · rfl
  | [a, b, d, e], _ =>
    have state : tf.state = .TYPE := state
    have rxi : tf.rxi = 0 := UInt16.toNat_inj.mp (by simpa using rxi)
    have short : ¬ (0 + 1 : UInt16) = 2 := by decide
    simp only [state, rxi, short, ↓reduceIte]
    constructor
    · refine .header [a, b, d, e,
        c] (by simp) rfl (by simp) ?_ keep ⟨id0, id⟩ ⟨len0, len⟩ ⟨type0, ?_⟩
      · simp [cksum]
      · simp [type]
    · rfl
  | [a, b, d, e, f], _ =>
    have state : tf.state = .TYPE := state
    have rxi : tf.rxi = 1 := UInt16.toNat_inj.mp (by simpa using rxi)
    have full : (1 + 1 : UInt16) = 2 := by decide
    have head : (⟨tf.id, tf.len, collect16 tf.type c⟩ : Head) =
        Head.ofFields [a, b, d, e, f, c] := by
      rw [id, len, type]
      simp only [Head.ofFields, List.take_succ_cons, List.take_zero, List.drop_succ_cons,
        List.drop_zero,
        List.foldl_cons, List.foldl_nil]
      rw [collect16_two id0 0, collect16_two len0 0, collect16_two type0 0]
    have bytes : (Head.ofFields [a, b, d, e, f, c]).bytes = [sofByte, a, b, d, e, f, c] :=
      congrArg (sofByte :: ·) (Head.fields_ofFields rfl)
    have length : (Head.ofFields [a, b, d, e, f, c]).len = tf.len := (congrArg Head.len head).symm
    simp only [state, rxi, full, ↓reduceIte, length, List.length_cons, List.length_nil,
      List.cons_append,
      List.nil_append]
    by_cases empty : tf.len = 0
    · simp only [empty, ↓reduceIte]
      constructor
      · exact .idle rfl
      · simp [reportOf, resetParser, ← head, empty, maxPayloadRx]
    · simp only [empty, ↓reduceIte]
      constructor
      · refine .check _ rfl rfl ?_ keep head (by rwa [length])
        rw [bytes]
        simp [cksum]
      · rfl

theorem parseChar_check (c : UInt8) (state : tf.state = .HEAD_CKSUM) (rxi : tf.rxi = 0) :
    tf.parseChar c =
      ({ tf with
          state := .DATA, rxi := 0, cksum := cksumStart, refCksum := c
          discardData := decide (tf.len > maxPayloadRx) || tf.discardData },
        if tf.len > maxPayloadRx then -9 else if cksumEnd tf.cksum ≠ c then -8 else 5) := by
  have one : (0 + 1 : UInt16) = 1 := by decide
  unfold parseChar
  simp only [state, rxi, one, collect8_eq, ↓reduceIte, resetParser]
  by_cases long : tf.len > maxPayloadRx
  · by_cases bad : cksumEnd tf.cksum = c
    · simp [long, bad]
    · simp [long, bad]
  · by_cases bad : cksumEnd tf.cksum = c
    · simp [long, bad]
    · simp [long, bad]

theorem follows_check {head : Head} (c : UInt8) (reads : Reads tf (.check head)) :
    Follows tf (.check head) c := by
  cases reads with
  | check head state rxi cksum keep fields some =>
  have length : tf.len = head.len := congrArg Head.len fields
  have positive : 0 < head.len.toNat :=
    Nat.pos_of_ne_zero fun zero => some (UInt16.toNat_inj.mp zero)
  unfold Follows Phase.next
  rw [parseChar_check c state rxi]
  constructor
  · refine .payload head c [] rfl rfl positive ?_ (fun _ => ⟨rfl, rfl⟩) fields
    rw [length, keep, Bool.or_false]
  · apply reportOf_pending
    split
    · simp
    · split
      · simp
      · simp

theorem parseChar_payload (c : UInt8) (state : tf.state = .DATA) :
    tf.parseChar c =
      ({ tf with
          state := if tf.rxi + 1 = tf.len then .DATA_CKSUM else .DATA
          rxi := if tf.rxi + 1 = tf.len then 0 else tf.rxi + 1
          refCksum := if tf.rxi + 1 = tf.len then 0 else tf.refCksum
          cksum := if tf.discardData then tf.cksum else cksumAdd tf.cksum c
          data := if tf.discardData then tf.data else Function.update tf.data tf.rxi.toNat c },
        if tf.discardData then -6 else 6) := by
  unfold parseChar
  simp only [state]
  by_cases discard : tf.discardData = true
  · by_cases last : tf.rxi + 1 = tf.len
    · simp [discard, last]
    · simp [discard, last]
  · by_cases last : tf.rxi + 1 = tf.len
    · simp [discard, last]
    · simp [discard, last]

theorem map_update_range {data : Nat → UInt8} {body : List UInt8} (c : UInt8)
    (stored : (List.range body.length).map data = body) :
    (List.range (body ++ [c]).length).map (Function.update data body.length c) = body ++ [c] := by
  have before : (List.range body.length).map (Function.update data body.length c) =
      (List.range body.length).map data := by
    apply List.map_congr_left
    intro i hi
    have := List.mem_range.mp hi
    rw [Function.update_of_ne (by omega)]
  rw [List.length_append, List.length_singleton, List.range_succ, List.map_append, before, stored]
  simp

theorem follows_payload {head : Head} {ck : UInt8} {body : List UInt8} (c : UInt8)
    (reads : Reads tf (.payload head ck body)) : Follows tf (.payload head ck body) c := by
  cases reads with
  | payload head ck body state rxi short discard stored fields =>
  have length : tf.len = head.len := congrArg Head.len fields
  have wide := head.len.toNat_lt
  have next : (tf.rxi + 1).toNat = body.length + 1 := by
    rw [UInt16.toNat_add, rxi]
    simp only [UInt16.toNat_one]
    omega
  have last : tf.rxi + 1 = tf.len ↔ body.length + 1 = head.len.toNat := by
    rw [← UInt16.toNat_inj, next, length]
  have kept : tf.discardData = false →
      cksumAdd tf.cksum c = (body ++ [c]).foldl cksumAdd cksumStart ∧
        (List.range (body ++ [c]).length).map
            (Function.update tf.data tf.rxi.toNat c) = body ++ [c] := by
    intro off
    obtain ⟨sum, bytes⟩ := stored off
    constructor
    · rw [List.foldl_append, ← sum]
      rfl
    · rw [rxi]
      exact map_update_range c bytes
  have quiet : reportOf (tf.parseChar c).1 (tf.parseChar c).2 = none := by
    rw [parseChar_payload c state]
    apply reportOf_pending
    split
    · split
      · simp
      · simp
    · split
      · simp
      · simp
  unfold Follows
  rw [quiet, parseChar_payload c state]
  unfold Phase.next
  simp only [last]
  by_cases full : body.length + 1 = head.len.toNat
  · simp only [full, ↓reduceIte, and_true]
    refine .tail head ck (body ++ [c]) rfl rfl (by simp) (by simpa using full) discard ?_ fields
    intro off
    have off : tf.discardData = false := off
    simpa [off] using kept off
  · simp only [full, ↓reduceIte, and_true]
    refine .payload head ck (body ++ [c]) rfl (by simpa using next) ?_ discard ?_ fields
    · rw [List.length_append, List.length_singleton]
      omega
    · intro off
      have off : tf.discardData = false := off
      simpa [off] using kept off

theorem parseChar_tail (c : UInt8) (state : tf.state = .DATA_CKSUM) (rxi : tf.rxi = 0) :
    tf.parseChar c =
      ({ tf with state := .SOF, rxi := 1, cksum := cksumEnd tf.cksum, refCksum := c },
        if !tf.discardData then (if cksumEnd tf.cksum = c then 0 else -10) else 0) := by
  have one : (0 + 1 : UInt16) = 1 := by decide
  unfold parseChar
  simp only [state, rxi, one, collect8_eq, ↓reduceIte, resetParser]

theorem follows_tail {head : Head} {ck : UInt8} {body : List UInt8} (c : UInt8)
    (reads : Reads tf (.tail head ck body)) : Follows tf (.tail head ck body) c := by
  cases reads with
  | tail head ck body state rxi filled full discard stored fields =>
  have length : tf.len = head.len := congrArg Head.len fields
  unfold Follows
  rw [parseChar_tail c state rxi]
  unfold Phase.next
  by_cases long : head.len > maxPayloadRx
  · have on : tf.discardData = true := by
      rw [discard]
      exact decide_eq_true long
    simp only [long, ↓reduceIte, on]
    constructor
    · exact .idle rfl
    · have told := reportOf_zero fields
      rw [if_pos long] at told
      exact told
  · have off : tf.discardData = false := by
      rw [discard]
      exact decide_eq_false long
    obtain ⟨sum, bytes⟩ := stored off
    have cksum : cksumEnd tf.cksum = cksumOf body := congrArg cksumEnd sum
    rw [full] at bytes
    simp only [long, ↓reduceIte, off, cksum, Bool.not_false, eq_comm (a := cksumOf body)]
    by_cases good : c = cksumOf body
    · simp only [good, ↓reduceIte]
      constructor
      · exact .idle rfl
      · have told := reportOf_zero fields
        rw [if_neg long, bytes] at told
        exact told
    · simp only [good, ↓reduceIte]
      constructor
      · exact .idle rfl
      · rfl

/-- A byte moves the parser as it moves the frame in progress. -/
theorem follows {p : Phase} (c : UInt8) (reads : Reads tf p) : Follows tf p c := by
  cases p with
  | idle =>
    apply follows_idle
    cases reads with
    | idle state => exact state
  | header got => exact follows_header c reads
  | check head => exact follows_check c reads
  | payload head ck body => exact follows_payload c reads
  | tail head ck body => exact follows_tail c reads

/-! ### Timeouts -/

theorem parseChar_ticks (tf : TinyFrame) (c : UInt8) :
    (tf.parseChar c).1.parserTimeoutTicks = tf.parserTimeoutTicks := by
  obtain ⟨state, id, len, data, rxi, cksum, refCksum, type, discard, frame⟩ := parseChar_frame tf c
  rw [frame]

theorem Reads.clock {p : Phase} (reads : Reads tf p) (ticks : UInt16) (table : Nat → IdListener)
    (count : Nat) :
    Reads { tf with parserTimeoutTicks := ticks, idListeners := table, countIdLst := count } p := by
  cases reads with
  | idle state => exact .idle state
  | header got short state rxi cksum keep id len type =>
    exact .header got short state rxi cksum keep id len type
  | check head state rxi cksum keep fields some =>
    exact .check head state rxi cksum keep fields some
  | payload head ck body state rxi short discard stored fields =>
    exact .payload head ck body state rxi short discard stored fields
  | tail head ck body state rxi filled full discard stored fields =>
    exact .tail head ck body state rxi filled full discard stored fields

theorem clearTimeout_early {p : Phase} (reads : Reads tf p)
    (early : tf.parserTimeoutTicks < parserTimeout) : Reads tf.clearTimeout p := by
  have quiet : ¬ tf.parserTimeoutTicks ≥ parserTimeout := by
    rw [ge_iff_le, UInt16.not_le]
    exact early
  unfold clearTimeout
  rw [if_neg quiet]
  exact reads.clock 0 tf.idListeners tf.countIdLst

theorem clearTimeout_late (late : parserTimeout ≤ tf.parserTimeoutTicks) :
    Reads tf.clearTimeout .idle := by
  unfold clearTimeout
  rw [if_pos late]
  split
  · exact .idle rfl
  · rename_i sof
    exact .idle (not_not.mp sof)

theorem clearTimeout_reads {p : Phase} (reads : Reads tf p) :
    Reads tf.clearTimeout p ∨ Reads tf.clearTimeout .idle := by
  by_cases late : parserTimeout ≤ tf.parserTimeoutTicks
  · right
    exact clearTimeout_late late
  · left
    exact clearTimeout_early reads (UInt16.not_le.mp late)

def Running (tf : TinyFrame) (p : Phase) : Prop :=
  Reads tf p ∧ (p = .idle ∨ tf.parserTimeoutTicks = 0)

theorem running_idle (state : tf.state = .SOF) : Running tf .idle := ⟨.idle state, .inl rfl⟩

theorem Running.cleared {p : Phase} (running : Running tf p) : Reads tf.clearTimeout p := by
  obtain ⟨reads, fresh⟩ := running
  rcases fresh with idle | zero
  · rcases clearTimeout_reads reads with same | given
    · exact same
    · rwa [idle]
  · apply clearTimeout_early reads
    rw [zero]
    decide

theorem Running.acceptChar {p : Phase} (running : Running tf p) (c : UInt8) :
    Running (tf.acceptChar c).1 (p.next c).1 ∧
      reportOf (tf.acceptChar c).1 (tf.acceptChar c).2 = (p.next c).2 := by
  obtain ⟨reads, told⟩ := follows c running.cleared
  refine ⟨⟨reads, .inr ?_⟩, told⟩
  unfold TinyFrame.acceptChar
  rw [parseChar_ticks]
  rfl

end TinyFrame
