import CommonLib.TinyFrame.Format

/- The three listener tables and the clock. A listener's callback is the user's and leaves the
   instance alone. -/
namespace TinyFrame

def firstIndex (n : Nat) (stop : Nat → Bool) : Option Nat := (List.range n).find? stop

theorem firstIndex_none {n : Nat} {stop : Nat → Bool} :
    firstIndex n stop = none ↔ ∀ i < n, stop i = false := by
  simp [firstIndex]

theorem firstIndex_some {n i : Nat} {stop : Nat → Bool} (found : firstIndex n stop = some i) :
    i < n ∧ stop i = true := by
  constructor
  · exact List.mem_range.mp (List.mem_of_find?_eq_some found)
  · exact List.find?_some found

/-! ### Adding -/

def addIdListener (tf : TinyFrame) (msg : Msg) (cb : Option Nat) (timeout : UInt16) :
    TinyFrame × Bool :=
  match firstIndex maxIdLst fun i => (tf.idListeners i).fn.isNone with
  | none => (tf, false)
  | some i =>
    ({ tf with
        idListeners := Function.update tf.idListeners i
          ⟨msg.frameId, cb, timeout, timeout, msg.userdata, msg.userdata2⟩
        countIdLst := if i ≥ tf.countIdLst then i + 1 else tf.countIdLst }, true)

def addTypeListener (tf : TinyFrame) (frameType : UInt16) (cb : Option Nat) : TinyFrame × Bool :=
  match firstIndex maxTypeLst fun i => (tf.typeListeners i).fn.isNone with
  | none => (tf, false)
  | some i =>
    ({ tf with
        typeListeners := Function.update tf.typeListeners i ⟨frameType, cb⟩
        countTypeLst := if i ≥ tf.countTypeLst then i + 1 else tf.countTypeLst }, true)

def addGenericListener (tf : TinyFrame) (cb : Option Nat) : TinyFrame × Bool :=
  match firstIndex maxGenLst fun i => (tf.genericListeners i).fn.isNone with
  | none => (tf, false)
  | some i =>
    ({ tf with
        genericListeners := Function.update tf.genericListeners i ⟨cb⟩
        countGenericLst := if i ≥ tf.countGenericLst then i + 1 else tf.countGenericLst }, true)

/-! ### Removing and renewing -/

def cleanupIdListener (tf : TinyFrame) (i : Nat) : TinyFrame :=
  match (tf.idListeners i).fn with
  | none => tf
  | some _ =>
    { tf with
      idListeners := Function.update tf.idListeners i { tf.idListeners i with fn := none }
      countIdLst := if i + 1 = tf.countIdLst then tf.countIdLst - 1 else tf.countIdLst }

def cleanupTypeListener (tf : TinyFrame) (i : Nat) : TinyFrame :=
  { tf with
    typeListeners := Function.update tf.typeListeners i { tf.typeListeners i with fn := none }
    countTypeLst := if i + 1 = tf.countTypeLst then tf.countTypeLst - 1 else tf.countTypeLst }

def cleanupGenericListener (tf : TinyFrame) (i : Nat) : TinyFrame :=
  { tf with
    genericListeners := Function.update tf.genericListeners i ⟨none⟩
    countGenericLst :=
      if i + 1 = tf.countGenericLst then tf.countGenericLst - 1 else tf.countGenericLst }

def removeIdListener (tf : TinyFrame) (frameId : UInt16) : TinyFrame × Bool :=
  match firstIndex tf.countIdLst fun i =>
      (tf.idListeners i).fn.isSome && (tf.idListeners i).id == frameId with
  | none => (tf, false)
  | some i => (tf.cleanupIdListener i, true)

def removeTypeListener (tf : TinyFrame) (type : UInt16) : TinyFrame × Bool :=
  match firstIndex tf.countTypeLst fun i =>
      (tf.typeListeners i).fn.isSome && (tf.typeListeners i).type == type with
  | none => (tf, false)
  | some i => (tf.cleanupTypeListener i, true)

def removeGenericListener (tf : TinyFrame) (cb : Option Nat) : TinyFrame × Bool :=
  match firstIndex tf.countGenericLst fun i => (tf.genericListeners i).fn == cb with
  | none => (tf, false)
  | some i => (tf.cleanupGenericListener i, true)

def renewIdListener (tf : TinyFrame) (id : UInt16) : TinyFrame × Bool :=
  match firstIndex tf.countIdLst fun i =>
      (tf.idListeners i).fn.isSome && (tf.idListeners i).id == id with
  | none => (tf, false)
  | some i =>
    ({ tf with
        idListeners := Function.update tf.idListeners i
          { tf.idListeners i with timeout := (tf.idListeners i).timeoutMax } }, true)

/-! ### The clock -/

def tickListener (tf : TinyFrame) (i : Nat) : TinyFrame :=
  if i < tf.countIdLst then
    if (tf.idListeners i).fn = none ∨ (tf.idListeners i).timeout = 0 then tf
    else
      let lst := { tf.idListeners i with timeout := (tf.idListeners i).timeout - 1 }
      let counted := { tf with idListeners := Function.update tf.idListeners i lst }
      if lst.timeout = 0 then counted.cleanupIdListener i else counted
  else tf

/-- `TF_Tick`. The count never grows in the loop, so its first value bounds the turns. -/
def tick (tf : TinyFrame) : TinyFrame :=
  let tf := if tf.parserTimeoutTicks < parserTimeout then
    { tf with parserTimeoutTicks := tf.parserTimeoutTicks + 1 } else tf
  (List.range tf.countIdLst).foldl tickListener tf

theorem cleanupIdListener_frame (tf : TinyFrame) (i : Nat) : ∃ table count,
    tf.cleanupIdListener i = { tf with idListeners := table, countIdLst := count } := by
  unfold cleanupIdListener
  split
  · exact ⟨_, _, rfl⟩
  · exact ⟨_, _, rfl⟩

theorem tickListener_frame (tf : TinyFrame) (i : Nat) : ∃ table count,
    tf.tickListener i = { tf with idListeners := table, countIdLst := count } := by
  unfold tickListener
  split
  · split
    · exact ⟨_, _, rfl⟩
    · simp only
      split
      · obtain ⟨table, count, frame⟩ := cleanupIdListener_frame { tf with
          idListeners := Function.update tf.idListeners i
            { tf.idListeners i with timeout := (tf.idListeners i).timeout - 1 } } i
        exact ⟨table, count, frame⟩
      · exact ⟨_, _, rfl⟩
  · exact ⟨_, _, rfl⟩

theorem tickListeners_frame (tf : TinyFrame) (is : List Nat) : ∃ table count,
    is.foldl tickListener tf = { tf with idListeners := table, countIdLst := count } := by
  induction is generalizing tf with
  | nil => exact ⟨_, _, rfl⟩
  | cons i is ih =>
    obtain ⟨table, count, first⟩ := tickListener_frame tf i
    obtain ⟨table', count', rest⟩ := ih { tf with idListeners := table, countIdLst := count }
    rw [List.foldl_cons, first, rest]
    exact ⟨table', count', rfl⟩

theorem tick_frame (tf : TinyFrame) : ∃ ticks table count, tf.tick =
    { tf with parserTimeoutTicks := ticks, idListeners := table, countIdLst := count } := by
  unfold tick
  split
  · obtain ⟨table, count, frame⟩ := tickListeners_frame
      { tf with parserTimeoutTicks := tf.parserTimeoutTicks + 1 } (List.range tf.countIdLst)
    exact ⟨_, table, count, frame⟩
  · obtain ⟨table, count, frame⟩ := tickListeners_frame tf (List.range tf.countIdLst)
    exact ⟨_, table, count, frame⟩

end TinyFrame
