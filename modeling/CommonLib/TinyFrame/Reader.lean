import CommonLib.TinyFrame.RoundTrip
import CommonLib.TinyFrame.Payload
import Mathlib.Tactic.IntervalCases

/- `tinyFramefRx`: the bytes received so far are put through the parser up to the end of the first
   frame, which is decoded. What a call finds on its stack is given to it, and integers and floats
   are kept as their 32 bits. -/

/-- The integer and the float are kept as their 32 bits. -/
structure TinyFrameRx where
  receiveType : UInt16
  revuint32Data : UInt32
  revfloatData : UInt32
  deriving DecidableEq, Repr

namespace TinyFrame
open Stream

def rxBufSize : Nat := 128

structure Receiver where
  ftRx : TinyFrame
  rxBuff : List UInt8
  size : rxBuff.length = rxBufSize
  writeCount : UInt32
  readCount : UInt32

def Receiver.tinyFrameInit (r : Receiver) : Receiver :=
  { r with
    rxBuff := List.replicate rxBufSize 0
    size := List.length_replicate
    writeCount := 0
    readCount := 0 }

def tempdata (data : Nat → UInt8) : UInt32 :=
  (data 0).toUInt32 + (data 1).toUInt32 * 256 + (data 2).toUInt32 * 256 * 256 +
    (data 3).toUInt32 * 256 * 256 * 256

def floatTypes : List UInt16 := [0x0100, 0x0103, 0x0104, 0x0105, 0x0106, 0x0107, 0x0108]
def uint32Types : List UInt16 := [0x0101, 0x0102]

/-- `revData` for a frame; before, it holds what was on the stack. -/
def revData (stack : TinyFrameRx) (type : UInt16) (data : Nat → UInt8) : TinyFrameRx :=
  let rev := if type ∈ floatTypes then { stack with revfloatData := tempdata data }
    else if type ∈ uint32Types then { stack with revuint32Data := tempdata data }
    else stack
  { rev with receiveType := type }

/-- The loop over the bytes received, from the `i`-th on; `none` when it reads past the buffer. -/
def rxLoop (writeCount : Nat) (stack : TinyFrameRx) : List UInt8 → Nat → TinyFrame →
    Option (TinyFrame × TinyFrameRx)
  | [], i, tf => if i < writeCount then none else some (tf, stack)
  | c :: cs, i, tf =>
    if i < writeCount then
      let (tf, ret) := tf.acceptChar c
      if ret = 0 then some (tf, revData stack tf.type tf.data)
        else rxLoop writeCount stack cs (i + 1) tf
    else some (tf, stack)

def Receiver.tinyFramefRx (r : Receiver) (stack : TinyFrameRx) : Option (Receiver × TinyFrameRx) :=
  (rxLoop r.writeCount.toNat stack r.rxBuff 0 r.ftRx).map fun done =>
  ({ r with ftRx := done.1 }, done.2)

def Receiver.calls (r : Receiver) : List TinyFrameRx → Option (Receiver × List TinyFrameRx)
  | [] => some (r, [])
  | stack :: later =>
    match r.tinyFramefRx stack with
    | none => none
    | some (r, rev) => (r.calls later).map fun done => (done.1, rev :: done.2)

/-! ### What a frame leaves in the data array -/

def overlay (data : Nat → UInt8) (body : List UInt8) (i : Nat) : UInt8 := body[i]?.getD (data i)

theorem overlay_snoc (data : Nat → UInt8) (body : List UInt8) (c : UInt8) :
    overlay data (body ++ [c]) = Function.update (overlay data body) body.length c := by
  funext i
  unfold overlay
  by_cases here : i = body.length
  · subst here
    simp
  · rw [Function.update_of_ne here]
    by_cases before : i < body.length
    · rw [List.getElem?_append_left before]
    · rw [List.getElem?_eq_none (by simp; omega), List.getElem?_eq_none (by omega)]

def Phase.store (p : Phase) (c : UInt8) (data : Nat → UInt8) : Nat → UInt8 :=
  match p with
  | .payload head _ body =>
    if head.len > maxPayloadRx then data else Function.update data body.length c
  | _ => data

def stores : Phase → (Nat → UInt8) → List UInt8 → Nat → UInt8
  | _, data, [] => data
  | p, data, c :: cs => stores (p.next c).1 (p.store c data) cs

theorem stores_append (p : Phase) (data : Nat → UInt8) (bs cs : List UInt8) :
    stores p data (bs ++ cs) = stores (after Phase.next p bs) (stores p data bs) cs := by
  induction bs generalizing p data with
  | nil => rfl
  | cons b bs ih => exact ih _ _

theorem Running.data {tf : TinyFrame} {p : Phase} (running : Running tf p) (c : UInt8) :
    (tf.acceptChar c).1.data = p.store c tf.data := by
  have cleared := running.cleared
  unfold TinyFrame.acceptChar
  rw [parseChar_data, clearTimeout_data]
  cases cleared with
  | idle state =>
    refine if_neg fun data => ?_
    rw [data.1] at state
    exact nomatch state
  | header got short state =>
    refine if_neg fun data => ?_
    rw [data.1] at state
    split at state
    · exact nomatch state
    · split at state
      · exact nomatch state
      · exact nomatch state
  | check head state =>
    refine if_neg fun data => ?_
    rw [data.1] at state
    exact nomatch state
  | tail head ck body state =>
    refine if_neg fun data => ?_
    rw [data.1] at state
    exact nomatch state
  | payload head ck body state rxi short discard =>
    unfold Phase.store
    rw [state, rxi, discard]
    by_cases long : head.len > maxPayloadRx
    · simp [long]
    · simp [long]

theorem after_stores {tf : TinyFrame} {p : Phase} (running : Running tf p) (bytes : List UInt8) :
    (after acceptChar tf bytes).data = stores p tf.data bytes := by
  induction bytes generalizing tf p with
  | nil => rfl
  | cons c cs ih =>
    rw [after, ih (running.acceptChar c).1, running.data c]
    rfl

theorem stores_header (h : Head) (data : Nat → UInt8) : stores .idle data h.bytes = data := by
  have whole : Head.ofFields h.fields = h := h.ofFields_fields
  simp only [Head.fields, writenum16, List.cons_append, List.nil_append] at whole
  simp only [Head.bytes, Head.fields, writenum16, List.cons_append, List.nil_append, stores,
    Phase.store,
    Phase.next, ↓reduceIte, List.length_cons, List.length_nil, Nat.reduceAdd, Nat.reduceLT]

theorem stores_payload {h : Head} (short : ¬ h.len > maxPayloadRx) (ck : UInt8) (data : Nat → UInt8)
    {body rest : List UInt8} (full : body.length + rest.length = h.len.toNat) :
    stores (.payload h ck body) (overlay data body) rest = overlay data (body ++ rest) := by
  induction rest generalizing body with
  | nil => rw [List.append_nil, stores]
  | cons c cs ih =>
    have put : Phase.store (.payload h ck body) c (overlay data body) =
        overlay data (body ++ [c]) := by
      rw [overlay_snoc]
      exact if_neg short
    rw [stores, put]
    cases cs with
    | nil => rw [stores]
    | cons d ds =>
      have more : ¬ body.length + 1 = h.len.toNat := by
        simp only [List.length_cons] at full
        omega
      have step : Phase.next (.payload h ck body) c = (.payload h ck (body ++ [c]), none) :=
        if_neg more
      have left : (body ++ [c]).length + (d :: ds).length = h.len.toNat := by
        simp only [List.length_cons, List.length_append, List.length_nil] at full ⊢
        omega
      rw [step, ih left, List.append_assoc, List.singleton_append]

/-- The byte of a frame at which it is reported, and what the bytes before it lead to. -/
theorem frame_parts {h : Head} {body : List UInt8} (full : body.length = h.len.toNat)
    (short : ¬ h.len > maxPayloadRx) : ∃ before c rest p, frameBytes h body = before ++ c :: rest ∧
      (∀ n, reported n .idle before = []) ∧ after Phase.next .idle before = p ∧
      p.next c = (.idle, some ⟨h, body⟩) ∧ ∀ data,
          p.store c (stores .idle data before) = overlay data body := by
  by_cases empty : body = []
  · subst empty
    have none_ : h.len = 0 := UInt16.toNat_inj.mp full.symm
    have whole : Head.ofFields h.fields = h := h.ofFields_fields
    obtain ⟨a, b, c, d, e, f, six⟩ : ∃ a b c d e f, h.fields = [a, b, c, d, e, f] :=
      ⟨_, _, _, _, _, _, rfl⟩
    rw [six] at whole
    refine ⟨[sofByte, a, b, c, d, e], f, [h.cksum], .header [a, b, c, d, e], ?_, ?_, ?_, ?_, ?_⟩
    · rw [frameBytes, if_pos rfl, Head.bytes, six]
      rfl
    · intro n
      simp [reported, marks, Phase.next]
    · simp [after, Phase.next]
    · simp [Phase.next, whole, none_]
    · intro data
      simp only [stores, Phase.store, Phase.next, ↓reduceIte, List.length_cons, List.length_nil,
        Nat.reduceAdd,
        Nat.reduceLT, List.nil_append, List.cons_append]
      rfl
  · have some_ : h.len ≠ 0 := by
      intro zero
      rw [zero] at full
      exact empty (List.length_eq_zero_iff.mp full)
    have whole : ([] : List UInt8).length + body.length = h.len.toNat := by simpa using full
    have header : after Phase.next .idle h.bytes = .check h := (head_run 0 h).1.trans (if_neg some_)
    refine ⟨h.bytes ++ h.cksum :: body, cksumOf body, [], .tail h h.cksum body, ?_, ?_, ?_, ?_, ?_⟩
    · rw [frameBytes, if_neg empty]
      simp
    · intro n
      have quiet : reported n .idle h.bytes = [] := (head_run n h).2.trans (if_neg some_)
      rw [reported_append, quiet, header, reported_cons]
      simp only [Phase.next, Option.toList_none, List.map_nil, List.nil_append]
      exact (body_run _ h.cksum empty whole).2
    · rw [after_append, header, after]
      exact (body_run 0 h.cksum empty whole).1
    · simp [Phase.next, short]
    · intro data
      rw [stores_append, stores_header, header, stores]
      exact stores_payload short h.cksum data whole

/-! ### One call -/

section Loop
variable {writeCount : Nat} {stack : TinyFrameRx} {tf : TinyFrame} {p : Phase}

theorem rxLoop_quiet (running : Running tf p) {bytes rest : List UInt8} {i n : Nat}
    (quiet : reported n p bytes = []) (room : i + bytes.length ≤ writeCount) :
    rxLoop writeCount stack (bytes ++ rest) i tf =
      rxLoop writeCount stack rest (i + bytes.length) (after acceptChar tf bytes) := by
  induction bytes generalizing tf p i n with
  | nil => rfl
  | cons c cs ih =>
    obtain ⟨next, told⟩ := running.acceptChar c
    rw [List.length_cons] at room
    rw [reported_cons, List.append_eq_nil_iff, List.map_eq_nil_iff,
      Option.toList_eq_nil_iff] at quiet
    have pending : (tf.acceptChar c).2 ≠ 0 := by
      intro zero
      rw [quiet.1, reportOf, if_pos zero] at told
      cases told
    have later := ih next (i := i + 1) quiet.2 (by omega)
    rw [List.cons_append, rxLoop, if_pos (by omega)]
    simp only [if_neg pending]
    rw [later, after, List.length_cons, Nat.add_assoc, Nat.add_comm 1]

theorem rxLoop_told (running : Running tf p) {c : UInt8} {rest : List UInt8} {i : Nat}
    {report : Report}
    (done : p.next c = (.idle, some report)) (room : i < writeCount) :
    rxLoop writeCount stack (c :: rest) i tf =
      some ((tf.acceptChar c).1, revData stack report.head.type (p.store c tf.data)) ∧
        (tf.acceptChar c).1.state = .SOF := by
  obtain ⟨next, told⟩ := running.acceptChar c
  rw [done] at next told
  have zero : (tf.acceptChar c).2 = 0 := by
    by_contra pending
    rw [reportOf_pending pending] at told
    exact nomatch told
  rw [zero, reportOf, if_pos rfl] at told
  have type : (tf.acceptChar c).1.type = report.head.type :=
    congrArg (fun r => r.head.type) (Option.some.inj told)
  refine ⟨?_, next.1.sof_iff.mpr rfl⟩
  rw [rxLoop, if_pos room]
  simp only [zero, ↓reduceIte, type, running.data c]

end Loop

theorem short_of_room {h : Head} {body : List UInt8} (full : body.length = h.len.toNat)
    (room : (frameBytes h body).length ≤ rxBufSize) : ¬ h.len > maxPayloadRx := by
  have within : body.length ≤ (frameBytes h body).length := by
    unfold frameBytes
    split
    · rename_i empty
      simp [empty]
    · simp
      omega
  rw [gt_iff_lt, UInt16.lt_iff_toNat_lt, ← full]
  exact Nat.not_lt.mpr (within.trans room)

/-- A call that finds a frame at the start of the buffer returns this frame and reads no further. -/
theorem tinyFramefRx_spec (r : Receiver) (stack : TinyFrameRx)
    (sof : r.ftRx.state = .SOF) {h : Head}
    {body rest : List UInt8} (full : body.length = h.len.toNat) (short : ¬ h.len > maxPayloadRx)
    (buffer : r.rxBuff = frameBytes h body ++ rest)
    (room : (frameBytes h body).length ≤ r.writeCount.toNat) :
    ∃ tf, r.tinyFramefRx stack = some ({ r with ftRx := tf },
      revData stack h.type (overlay r.ftRx.data body)) ∧
      tf.state = .SOF ∧ tf.data = overlay r.ftRx.data body := by
  obtain ⟨before, c, others, p, parts, quiet, leads, told, stored⟩ := frame_parts full short
  have running := running_idle sof
  have ran := after_running running before
  rw [leads] at ran
  have data := after_stores running before
  rw [parts, List.length_append, List.length_cons] at room
  have first : rxLoop r.writeCount.toNat stack (before ++ c :: (others ++ rest)) 0 r.ftRx = _ :=
    rxLoop_quiet running (quiet 0) (by omega)
  generalize after acceptChar r.ftRx before = tf at ran data first
  obtain ⟨last, back⟩ : rxLoop r.writeCount.toNat stack (c :: (others ++ rest)) (0 + before.length) tf =
      some ((tf.acceptChar c).1, revData stack h.type (p.store c tf.data)) ∧
        (tf.acceptChar c).1.state = .SOF :=
    rxLoop_told ran told (by omega)
  rw [data, stored] at last
  have whole : rxLoop r.writeCount.toNat stack r.rxBuff 0 r.ftRx =
      some ((tf.acceptChar c).1, revData stack h.type (overlay r.ftRx.data body)) := by
    rw [buffer, parts, List.append_assoc, List.cons_append]
    exact first.trans last
  refine ⟨_, ?_, back, ?_⟩
  · rw [Receiver.tinyFramefRx, whole]
    rfl
  · rw [ran.data c, data, stored]

/-! ### Decoded values -/

def HasValue (type : UInt16) : Prop := type ∈ floatTypes ∨ type ∈ uint32Types

def value (rev : TinyFrameRx) : UInt32 :=
  if rev.receiveType ∈ uint32Types then rev.revuint32Data else rev.revfloatData

theorem hasValue_iff (type : UInt16) : HasValue type ↔ 0x0100 ≤ type ∧ type ≤ 0x0108 := by
  unfold HasValue
  constructor
  · simp only [floatTypes, uint32Types, List.mem_cons, List.not_mem_nil, or_false]
    rintro ((rfl | rfl | rfl | rfl | rfl | rfl | rfl) | (rfl | rfl)) <;> decide
  · rintro ⟨low, high⟩
    rw [UInt16.le_iff_toNat_le] at low high
    have low : 256 ≤ type.toNat := low
    have high : type.toNat ≤ 264 := high
    have number : type = UInt16.ofNat type.toNat := UInt16.ofNat_toNat.symm
    generalize type.toNat = n at low high number
    subst number
    interval_cases n <;> decide

theorem value_revData {type : UInt16} (has : HasValue type) (stack : TinyFrameRx)
    (data : Nat → UInt8) :
    value (revData stack type data) = tempdata data := by
  unfold value revData
  rcases has with float | int
  · have other : type ∉ uint32Types := by
      revert float
      simp only [floatTypes, uint32Types, List.mem_cons, List.not_mem_nil, or_false]
      rintro (rfl | rfl | rfl | rfl | rfl | rfl | rfl) <;> decide
    simp [float, other]
  · have other : type ∉ floatTypes := by
      revert int
      simp only [floatTypes, uint32Types, List.mem_cons, List.not_mem_nil, or_false]
      rintro (rfl | rfl) <;> decide
    simp [int, other]

theorem tempdata_toNat (data : Nat → UInt8) : (tempdata data).toNat =
    (data 0).toNat + (data 1).toNat * 256 + (data 2).toNat * 65536 + (data 3).toNat * 16777216 := by
  have := (data 0).toNat_lt
  have := (data 1).toNat_lt
  have := (data 2).toNat_lt
  have := (data 3).toNat_lt
  unfold tempdata
  simp only [UInt32.toNat_add, UInt32.toNat_mul, UInt8.toNat_toUInt32, UInt32.reduceToNat]
  omega

theorem tempdata_inj {data data' : Nat → UInt8} :
    tempdata data = tempdata data' ↔ ∀ i < 4, data i = data' i := by
  constructor
  · intro same
    have sum := congrArg UInt32.toNat same
    rw [tempdata_toNat, tempdata_toNat] at sum
    intro i small
    have b0 := (data 0).toNat_lt
    have b1 := (data 1).toNat_lt
    have b2 := (data 2).toNat_lt
    have b3 := (data 3).toNat_lt
    have b0' := (data' 0).toNat_lt
    have b1' := (data' 1).toNat_lt
    have b2' := (data' 2).toNat_lt
    have b3' := (data' 3).toNat_lt
    apply UInt8.toNat_inj.mp
    interval_cases i <;> omega
  · intro same
    unfold tempdata
    rw [same 0 (by decide), same 1 (by decide), same 2 (by decide), same 3 (by decide)]

/-! ### Several frames in the buffer -/

structure Framed where
  head : Head
  body : List UInt8
  some : body ≠ []
  full : body.length = head.len.toNat

def Framed.bytes (f : Framed) : List UInt8 := frameBytes f.head f.body

def Framed.value (f : Framed) : UInt32 := tempdata (overlay (fun _ => 0) f.body)

def Framed.Received (f : Framed) (rev : TinyFrameRx) : Prop :=
  rev.receiveType = f.head.type ∧ (HasValue f.head.type → 4 ≤ f.body.length →
    TinyFrame.value rev = f.value)

def Framed.Like (g f : Framed) (data : Nat → UInt8) : Prop :=
  g.head.type = f.head.type ∧
    (HasValue g.head.type → 4 ≤ g.body.length → g.value = tempdata (overlay data f.body))

theorem received_iff (g f : Framed) (stack : TinyFrameRx) (data : Nat → UInt8) :
    g.Received (revData stack f.head.type (overlay data f.body)) ↔ g.Like f data := by
  have type : (revData stack f.head.type (overlay data f.body)).receiveType = f.head.type := rfl
  unfold Framed.Received Framed.Like
  rw [type]
  constructor
  · rintro ⟨same, val⟩
    refine ⟨same.symm, fun has four => ?_⟩
    rw [← val has four, value_revData (same ▸ has)]
  · rintro ⟨same, val⟩
    refine ⟨same.symm, fun has four => ?_⟩
    rw [val has four, value_revData (same ▸ has)]

def emptyRx : TinyFrameRx := ⟨0, 0, 0⟩

/-- The value of a frame that is alone in the buffer, whatever `ft_rx` has read before and
    whatever the stacks hold. -/
def SameValue (h : Head) (body : List UInt8) : Prop :=
  ∀ (r : Receiver) (past past' : List UInt8) (stack stack' : TinyFrameRx),
    r.rxBuff.take r.writeCount.toNat = frameBytes h body →
      r.writeCount.toNat = (frameBytes h body).length →
    (after acceptChar (initStatic false) past).state = .SOF →
    (after acceptChar (initStatic false) past').state = .SOF →
    ∃ done done', { r with ftRx := after acceptChar (initStatic false) past }.tinyFramefRx stack =
      some done ∧
      { r with ftRx := after acceptChar (initStatic false) past' }.tinyFramefRx stack' =
      some done' ∧
      value done.2 = value done'.2

theorem values_differ_iff {h : Head} {body : List UInt8} (full : body.length = h.len.toNat)
    (has : HasValue h.type) (r : Receiver) (tf tf' : TinyFrame) (stack stack' : TinyFrameRx)
    (filled : r.rxBuff.take r.writeCount.toNat = frameBytes h body)
    (alone : r.writeCount.toNat = (frameBytes h body).length) (sof : tf.state = .SOF)
    (sof' : tf'.state = .SOF) :
    ∃ done done', { r with ftRx := tf }.tinyFramefRx stack = some done ∧
      { r with ftRx := tf' }.tinyFramefRx stack' = some done' ∧
      (value done.2 = value done'.2 ↔ ∀ i, body.length ≤ i → i < 4 → tf.data i = tf'.data i) := by
  have buffer : r.rxBuff = frameBytes h body ++ r.rxBuff.drop r.writeCount.toNat := by
    rw [← filled, List.take_append_drop]
  have fits : (frameBytes h body).length ≤ rxBufSize := by
    rw [← filled, List.length_take, r.size]
    exact Nat.min_le_right _ _
  have short := short_of_room full fits
  obtain ⟨_, call, _, _⟩ := tinyFramefRx_spec
    { r with ftRx := tf } stack sof full short buffer alone.ge
  obtain ⟨_, call', _, _⟩ := tinyFramefRx_spec
    { r with ftRx := tf' } stack' sof' full short buffer alone.ge
  refine ⟨_, _, call, call', ?_⟩
  rw [value_revData has, value_revData has, tempdata_inj]
  -- the payload hides what is below its end
  have seen : ∀ i, overlay tf.data body i = overlay tf'.data body i ↔
      (body.length ≤ i → tf.data i = tf'.data i) := by
    intro i
    unfold overlay
    by_cases inside : i < body.length
    · simp [inside, Nat.not_le.mpr inside]
    · simp [Nat.not_lt.mp inside]
  constructor
  · exact fun same i past small => (seen i).mp (same i small) past
  · exact fun same i small => (seen i).mpr fun past => same i past small

/-- The value of a frame depends on its payload alone just when the payload has four bytes. -/
theorem same_value_iff (h : Head) (body : List UInt8) (full : body.length = h.len.toNat)
    (low : 0x0100 ≤ h.type) (high : h.type ≤ 0x0108) : SameValue h body ↔ 4 ≤ body.length := by
  have has := (hasValue_iff h.type).mpr ⟨low, high⟩
  constructor
  · intro same
    by_contra few
    have size : (frameBytes h body).length ≤ 13 := by
      unfold frameBytes
      split
      · simp
      · simp
        omega
    -- nothing was read before, or a frame of four ones
    have wide : (frameBytes h body ++ List.replicate (128 - (frameBytes h body).length) 0).length =
        rxBufSize := by
      rw [List.length_append, List.length_replicate, rxBufSize]
      omega
    have count : (UInt32.ofNat (frameBytes h body).length).toNat = (frameBytes h body).length := by
      rw [UInt32.toNat_ofNat']
      omega
    let r : Receiver := ⟨initStatic false, _, wide, UInt32.ofNat (frameBytes h body).length, 0⟩
    have filled : r.rxBuff.take r.writeCount.toNat = frameBytes h body := by
      change (frameBytes h body ++ _).take (UInt32.ofNat (frameBytes h body).length).toNat = _
      rw [count, List.take_left]
    have sof' : (after acceptChar (initStatic false)
        (frameBytes ⟨0, 4, 0x0100⟩ [1, 1, 1, 1])).state = .SOF := by
      decide +kernel
    obtain ⟨done, done', call, call', equal⟩ :=
      same r [] (frameBytes ⟨0, 4, 0x0100⟩ [1, 1, 1, 1]) emptyRx emptyRx
      filled count rfl sof'
    obtain ⟨_, _, ran, ran', decides⟩ :=
      values_differ_iff full has r (initStatic false) _ emptyRx emptyRx filled count
      rfl sof'
    obtain rfl := Option.some.inj (call.symm.trans ran)
    obtain rfl := Option.some.inj (call'.symm.trans ran')
    exact absurd (decides.mp equal 3 (by omega) (by decide)) (by decide +kernel)
  · intro four r past past' stack stack' filled alone sof sof'
    obtain ⟨done, done', call, call', decides⟩ :=
      values_differ_iff full has r _ _ stack stack' filled alone sof sof'
    exact ⟨done, done', call, call', decides.mpr fun i above small => by omega⟩

theorem same_value_sample : SameValue ⟨3, 1, 0x0101⟩ [7] ↔ 4 ≤ [(7 : UInt8)].length :=
  same_value_iff ⟨3, 1, 0x0101⟩ [7] rfl (by decide) (by decide)

def oneByte : Receiver where
  ftRx := initStatic false
  rxBuff := frameBytes ⟨3, 1, 0x0101⟩ [7] ++ List.replicate 118 0
  size := rfl
  writeCount := 10
  readCount := 0

/-- Its value has the last three bytes of a frame read before. -/
theorem stale_value : ¬ SameValue ⟨3, 1, 0x0101⟩ [7] := by
  intro same
  have sof' : (after acceptChar (initStatic false) (frameBytes ⟨0, 4, 0x0100⟩ [1, 1, 1, 1])).state =
      .SOF := by
    decide +kernel
  obtain ⟨done, done', call, call', equal⟩ :=
    same oneByte [] (frameBytes ⟨0, 4, 0x0100⟩ [1, 1, 1, 1]) emptyRx emptyRx
    (by decide) (by decide) rfl sof'
  obtain ⟨_, _, ran, ran', decides⟩ :=
    @values_differ_iff ⟨3, 1, 0x0101⟩ [7] rfl (.inr (by decide)) oneByte
    (initStatic false) _ emptyRx emptyRx (by decide) (by decide) rfl sof'
  obtain rfl := Option.some.inj (call.symm.trans ran)
  obtain rfl := Option.some.inj (call'.symm.trans ran')
  exact absurd (decides.mp equal 3 (by decide) (by decide)) (by decide +kernel)

end TinyFrame
