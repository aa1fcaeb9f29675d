import CommonLib.Slots.HighWater
import CommonLib.Stream.Machine
import CommonLib.TinyFrame.Listeners

/- The listener tables over whole programs: which calls find a listener, which find a free slot,
   and at which tick an ID listener is discarded. -/
def IdListener.live (lst : IdListener) : Bool := lst.fn.isSome
def TypeListener.live (lst : TypeListener) : Bool := lst.fn.isSome
def GenericListener.live (lst : GenericListener) : Bool := lst.fn.isSome

def IdListener.ticked (lst : IdListener) : IdListener :=
  if lst.fn = none ∨ lst.timeout = 0 then lst
  else { lst with timeout := lst.timeout - 1, fn := if lst.timeout - 1 = 0 then none else lst.fn }

namespace TinyFrame
open Slots Stream
variable {tf : TinyFrame}

inductive TableCall where
  | addId (msg : Msg) (cb : Nat) (timeout : UInt16)
  | addType (frameType : UInt16) (cb : Nat)
  | addGeneric (cb : Nat)
  | removeId (frameId : UInt16)
  | removeType (type : UInt16)
  | removeGeneric (cb : Option Nat)
  | renewId (id : UInt16)
  | tick

/-- An instance, with the timeout that the listener of an ID slot was added with and the ticks
    since it was added or last renewed. -/
structure Aged where
  tf : TinyFrame
  given : Nat → UInt16
  since : Nat → Nat

def Aged.step (a : Aged) : TableCall → Aged × Option Bool
  | .addId msg cb timeout =>
    let (tf, added) := a.tf.addIdListener msg (some cb) timeout
    match firstIndex maxIdLst fun i => (a.tf.idListeners i).fn.isNone with
    | none => ({ a with tf := tf }, some added)
    | some i => (⟨tf, Function.update a.given i timeout, Function.update a.since i 0⟩, some added)
  | .addType frameType cb =>
    let (tf, added) := a.tf.addTypeListener frameType (some cb)
    ({ a with tf := tf }, some added)
  | .addGeneric cb =>
    let (tf, added) := a.tf.addGenericListener (some cb)
    ({ a with tf := tf }, some added)
  | .removeId frameId =>
    let (tf, removed) := a.tf.removeIdListener frameId
    ({ a with tf := tf }, some removed)
  | .removeType type =>
    let (tf, removed) := a.tf.removeTypeListener type
    ({ a with tf := tf }, some removed)
  | .removeGeneric cb =>
    let (tf, removed) := a.tf.removeGenericListener cb
    ({ a with tf := tf }, some removed)
  | .renewId id =>
    let (tf, renewed) := a.tf.renewIdListener id
    match firstIndex a.tf.countIdLst fun i =>
        (a.tf.idListeners i).fn.isSome && (a.tf.idListeners i).id == id with
    | none => ({ a with tf := tf }, some renewed)
    | some i => ({ a with tf := tf, since := Function.update a.since i 0 }, some renewed)
  | .tick => ({ a with tf := a.tf.tick, since := fun i => a.since i + 1 }, none)

def Aged.start (peerBit : Bool) : Aged := ⟨initStatic peerBit, fun _ => 0, fun _ => 0⟩

def Aged.run (peerBit : Bool) (calls : List TableCall) : Aged :=
  after Aged.step (.start peerBit) calls

/-! ### The tables -/

structure CountsAbove (tf : TinyFrame) : Prop where
  ids : Above (IdListener.live ∘ tf.idListeners) tf.countIdLst
  types : Above (TypeListener.live ∘ tf.typeListeners) tf.countTypeLst
  generics : Above (GenericListener.live ∘ tf.genericListeners) tf.countGenericLst

theorem countsAbove_init (peerBit : Bool) : CountsAbove (initStatic peerBit) :=
  ⟨fun _ used => absurd used Bool.false_ne_true, fun _ used => absurd used Bool.false_ne_true,
    fun _ used => absurd used Bool.false_ne_true⟩

section Counts
variable (counts : CountsAbove tf)
include counts

theorem CountsAbove.addId (msg : Msg) (cb : Option Nat) (timeout : UInt16) :
    CountsAbove (tf.addIdListener msg cb timeout).1 := by
  unfold addIdListener
  split
  · exact counts
  · rename_i i found
    refine ⟨?_, counts.types, counts.generics⟩
    rw [Function.comp_update]
    exact counts.ids.fill i _

theorem CountsAbove.addType (frameType : UInt16) (cb : Option Nat) :
    CountsAbove (tf.addTypeListener frameType cb).1 := by
  unfold addTypeListener
  split
  · exact counts
  · rename_i i found
    refine ⟨counts.ids, ?_, counts.generics⟩
    rw [Function.comp_update]
    exact counts.types.fill i _

theorem CountsAbove.addGeneric (cb : Option Nat) : CountsAbove (tf.addGenericListener cb).1 := by
  unfold addGenericListener
  split
  · exact counts
  · rename_i i found
    refine ⟨counts.ids, counts.types, ?_⟩
    rw [Function.comp_update]
    exact counts.generics.fill i _

theorem CountsAbove.cleanupId (i : Nat) : CountsAbove (tf.cleanupIdListener i) := by
  unfold cleanupIdListener
  split
  · exact counts
  · refine ⟨?_, counts.types, counts.generics⟩
    rw [Function.comp_update]
    exact counts.ids.free i

theorem CountsAbove.removeId (frameId : UInt16) : CountsAbove (tf.removeIdListener frameId).1 := by
  unfold removeIdListener
  split
  · exact counts
  · exact counts.cleanupId _

theorem CountsAbove.removeType (type : UInt16) : CountsAbove (tf.removeTypeListener type).1 := by
  unfold removeTypeListener
  split
  · exact counts
  · rename_i i found
    refine ⟨counts.ids, ?_, counts.generics⟩
    rw [cleanupTypeListener, Function.comp_update]
    exact counts.types.free i

theorem CountsAbove.removeGeneric (cb : Option Nat) :
    CountsAbove (tf.removeGenericListener cb).1 := by
  unfold removeGenericListener
  split
  · exact counts
  · rename_i i found
    refine ⟨counts.ids, counts.types, ?_⟩
    rw [cleanupGenericListener, Function.comp_update]
    exact counts.generics.free i

theorem CountsAbove.renewId (id : UInt16) : CountsAbove (tf.renewIdListener id).1 := by
  unfold renewIdListener
  split
  · exact counts
  · rename_i i found
    refine ⟨?_, counts.types, counts.generics⟩
    rw [Function.comp_update]
    have same : Function.update (IdListener.live ∘ tf.idListeners) i (tf.idListeners i).live = _ :=
      Function.update_eq_self i (IdListener.live ∘ tf.idListeners)
    intro j used
    exact counts.ids j (same ▸ used)

end Counts

/-! ### The clock -/

def idTable (tf : TinyFrame) : (Nat → IdListener) × Nat := (tf.idListeners, tf.countIdLst)

theorem tickListener_turn (tf : TinyFrame) (i : Nat) :
    turn IdListener.live IdListener.ticked tf.idTable i = (tf.tickListener i).idTable := by
  unfold turn tickListener idTable
  by_cases inside : i < tf.countIdLst
  · simp only [if_pos inside]
    by_cases idle : (tf.idListeners i).fn = none ∨ (tf.idListeners i).timeout = 0
    · have same : (tf.idListeners i).ticked = tf.idListeners i := if_pos idle
      rw [same, Function.update_eq_self, if_pos idle, if_neg fun gone => gone.2.1 gone.1]
    · have counted : (tf.idListeners i).ticked = _ := if_neg idle
      obtain ⟨cb, some⟩ := Option.ne_none_iff_exists'.mp (not_or.mp idle).1
      rw [counted, if_neg idle]
      by_cases last : (tf.idListeners i).timeout - 1 = 0
      · simp [last, cleanupIdListener, some, IdListener.live]
      · simp [last, some, IdListener.live]
  · simp only [if_neg inside]

theorem live_of_ticked {lst : IdListener} (used : lst.ticked.live = true) : lst.live = true := by
  unfold IdListener.ticked at used
  split at used
  · exact used
  · rename_i counting
    exact Option.isSome_iff_ne_none.mpr (not_or.mp counting).1

theorem ticked_dead {lst : IdListener} (dead : lst.live = false) : lst.ticked = lst :=
  if_pos (.inl (Option.isSome_eq_false_iff.mp dead |> Option.isNone_iff_eq_none.mp))

theorem tick_swept (tf : TinyFrame) : tf.tick.idTable =
    (List.range tf.countIdLst).foldl (turn IdListener.live IdListener.ticked) tf.idTable := by
  have loop : ∀ tf' : TinyFrame, tf'.idTable = tf.idTable →
      ((List.range tf.countIdLst).foldl tickListener tf').idTable =
        (List.range tf.countIdLst).foldl (turn IdListener.live IdListener.ticked) tf.idTable := by
    intro tf' same
    rw [← same]
    exact (List.foldl_hom idTable tickListener_turn).symm
  unfold tick
  split
  · exact loop _ rfl
  · exact loop _ rfl

/-- `TF_Tick` counts every live listener down once. -/
theorem tick_listeners (counts : CountsAbove tf) (i : Nat) :
    tf.tick.idListeners i = (tf.idListeners i).ticked := by
  have slots := (sweep IdListener.live IdListener.ticked tf.idListeners
    (Nat.le_refl tf.countIdLst)).1 i
  have table : tf.tick.idListeners i = _ :=
    (congrFun (congrArg Prod.fst tf.tick_swept) i).trans slots
  rw [table]
  split
  · rfl
  · rename_i past
    refine (ticked_dead ?_).symm
    by_contra used
    exact past (counts.ids i (by simpa using used))

theorem CountsAbove.tick (counts : CountsAbove tf) : CountsAbove tf.tick := by
  have marks := (sweep IdListener.live IdListener.ticked tf.idListeners
    (Nat.le_refl tf.countIdLst)).2
  have mark : tf.tick.countIdLst = _ := congrArg Prod.snd tf.tick_swept
  obtain ⟨ticks, table, count, frame⟩ := tick_frame tf
  refine ⟨?_, ?_, ?_⟩
  · intro i used
    rw [Function.comp_apply, tick_listeners counts] at used
    have inside := counts.ids i (live_of_ticked used)
    rcases marks with same | ⟨_, lowered, dead⟩
    · rw [mark]
      unfold idTable
      omega
    · rw [mark]
      have other : i ≠ tf.countIdLst - 1 := by
        rintro rfl
        rw [used] at dead
        exact nomatch dead
      unfold idTable
      omega
  · rw [frame]
    exact counts.types
  · rw [frame]
    exact counts.generics

/-! ### Timeouts -/

structure InTime (lst : IdListener) (given : UInt16) (since : Nat) : Prop where
  limit : lst.timeoutMax = given
  never : given = 0 → lst.timeout = 0
  counting : given ≠ 0 → lst.timeout ≠ 0 ∧ lst.timeout.toNat + since = given.toNat

section InTime
variable {lst : IdListener} {given : UInt16} {since : Nat}

theorem inTime_full (limit : lst.timeoutMax = given) (full : lst.timeout = given) :
    InTime lst given 0 :=
  ⟨limit, fun zero => full.trans zero, fun some => ⟨full ▸ some, congrArg UInt16.toNat full⟩⟩

theorem toNat_pred {n : UInt16} (some : n ≠ 0) : (n - 1).toNat = n.toNat - 1 :=
  UInt16.toNat_sub_of_le n 1 (UInt16.le_iff_toNat_le.mpr
    (Nat.pos_of_ne_zero fun zero => some (UInt16.toNat_inj.mp zero)))

theorem InTime.tick (inTime : InTime lst given since) (used : lst.ticked.live = true) :
    InTime lst.ticked given (since + 1) := by
  by_cases zero : given = 0
  · have idle : lst.ticked = lst := if_pos (.inr (inTime.never zero))
    rw [idle]
    exact ⟨inTime.limit, inTime.never, fun some => absurd zero some⟩
  · obtain ⟨more, sum⟩ := inTime.counting zero
    have fn : lst.fn ≠ none := Option.isSome_iff_ne_none.mp (live_of_ticked used)
    have counted : lst.ticked = _ := if_neg (not_or.mpr ⟨fn, more⟩)
    have pred := toNat_pred more
    rw [counted] at used ⊢
    have left : lst.timeout - 1 ≠ 0 := by
      intro last
      simp [IdListener.live, last] at used
    have pos : lst.timeout.toNat ≠ 0 := fun zero => more (UInt16.toNat_inj.mp zero)
    refine ⟨inTime.limit, fun none_ => absurd none_ zero, fun _ => ⟨left, ?_⟩⟩
    simp only [pred]
    omega

theorem InTime.expires (inTime : InTime lst given since) (used : lst.live = true) :
    lst.ticked.fn = none ↔ given ≠ 0 ∧ since + 1 = given.toNat := by
  have fn : lst.fn ≠ none := Option.isSome_iff_ne_none.mp used
  by_cases zero : given = 0
  · have idle : lst.ticked = lst := if_pos (.inr (inTime.never zero))
    rw [idle]
    exact ⟨fun none_ => absurd none_ fn, fun some => absurd zero some.1⟩
  · obtain ⟨more, sum⟩ := inTime.counting zero
    have counted : lst.ticked = _ := if_neg (not_or.mpr ⟨fn, more⟩)
    have pred := toNat_pred more
    have pos : lst.timeout.toNat ≠ 0 := fun zero => more (UInt16.toNat_inj.mp zero)
    have last : lst.timeout - 1 = 0 ↔ since + 1 = given.toNat := by
      rw [← UInt16.toNat_inj, pred, UInt16.toNat_zero]
      omega
    rw [counted, ← last]
    simp [fn, zero]

end InTime

structure Aged.Kept (a : Aged) : Prop where
  counts : CountsAbove a.tf
  times : ∀ i, (a.tf.idListeners i).live = true →
    InTime (a.tf.idListeners i) (a.given i) (a.since i)

/-! ### What becomes of an ID listener -/

section Slots
variable (tf)

theorem addTypeListener_ids (frameType : UInt16) (cb : Option Nat) :
    (tf.addTypeListener frameType cb).1.idListeners = tf.idListeners := by
  unfold addTypeListener
  split
  · rfl
  · rfl

theorem addGenericListener_ids (cb : Option Nat) :
    (tf.addGenericListener cb).1.idListeners = tf.idListeners := by
  unfold addGenericListener
  split
  · rfl
  · rfl

theorem removeTypeListener_ids (type : UInt16) :
    (tf.removeTypeListener type).1.idListeners = tf.idListeners := by
  unfold removeTypeListener
  split
  · rfl
  · rfl

theorem removeGenericListener_ids (cb : Option Nat) :
    (tf.removeGenericListener cb).1.idListeners = tf.idListeners := by
  unfold removeGenericListener
  split
  · rfl
  · rfl

theorem removeIdListener_ids (frameId : UInt16) (j : Nat) :
    (tf.removeIdListener frameId).1.idListeners j = tf.idListeners j ∨
      (tf.idListeners j).id = frameId ∧
        ((tf.removeIdListener frameId).1.idListeners j).fn = none := by
  unfold removeIdListener
  split
  · exact .inl rfl
  · rename_i i found
    obtain ⟨_, matches_⟩ := firstIndex_some found
    rw [Bool.and_eq_true, beq_iff_eq] at matches_
    unfold cleanupIdListener
    split
    · exact .inl rfl
    · by_cases here : j = i
      · subst here
        exact .inr ⟨matches_.2, by simp⟩
      · exact .inl (Function.update_of_ne here _ _)

end Slots

theorem Aged.Kept.addId {a : Aged} (kept : a.Kept) (msg : Msg) (cb : Nat) (timeout : UInt16) :
    (a.step (.addId msg cb timeout)).1.Kept := by
  have counts := kept.counts.addId msg (some cb) timeout
  unfold addIdListener at counts
  cases found : firstIndex maxIdLst fun i => (a.tf.idListeners i).fn.isNone with
  | none =>
    simp only [Aged.step, addIdListener, found]
    exact kept
  | some i =>
    simp only [found] at counts
    simp only [Aged.step, addIdListener, found]
    refine ⟨counts, ?_⟩
    intro j used
    by_cases here : j = i
    · subst here
      simp only [Function.update_self]
      exact inTime_full rfl rfl
    · simp only [Function.update_of_ne here] at used ⊢
      exact kept.times j used

theorem Aged.Kept.renewId {a : Aged} (kept : a.Kept) (id : UInt16) :
    (a.step (.renewId id)).1.Kept := by
  have counts := kept.counts.renewId id
  unfold renewIdListener at counts
  cases found : firstIndex a.tf.countIdLst fun i =>
      (a.tf.idListeners i).fn.isSome && (a.tf.idListeners i).id == id with
  | none =>
    simp only [Aged.step, renewIdListener, found]
    exact kept
  | some i =>
    simp only [found] at counts
    simp only [Aged.step, renewIdListener, found]
    refine ⟨counts, ?_⟩
    intro j used
    by_cases here : j = i
    · subst here
      simp only [Function.update_self] at used ⊢
      exact inTime_full (kept.times j used).limit (kept.times j used).limit
    · simp only [Function.update_of_ne here] at used ⊢
      exact kept.times j used

theorem Aged.Kept.step {a : Aged} (kept : a.Kept) (c : TableCall) : (a.step c).1.Kept := by
  -- the calls on the other tables
  have beside : ∀ tf', CountsAbove tf' → tf'.idListeners = a.tf.idListeners →
    Aged.Kept { a with tf := tf' } :=
    fun tf' counts same => ⟨counts, fun i used => by
      simp only [same] at used ⊢
      exact kept.times i used⟩
  cases c with
  | addId msg cb timeout => exact kept.addId msg cb timeout
  | addType frameType cb =>
    exact beside _ (kept.counts.addType frameType (some cb)) (addTypeListener_ids ..)
  | addGeneric cb => exact beside _ (kept.counts.addGeneric (some cb)) (addGenericListener_ids ..)
  | removeId frameId =>
    refine ⟨kept.counts.removeId frameId, fun i used => ?_⟩
    simp only [Aged.step] at used ⊢
    rcases removeIdListener_ids a.tf frameId i with same | ⟨_, freed⟩
    · rw [same] at used ⊢
      exact kept.times i used
    · rw [IdListener.live, freed] at used
      exact nomatch used
  | removeType type => exact beside _ (kept.counts.removeType type) (removeTypeListener_ids ..)
  | removeGeneric cb => exact beside _ (kept.counts.removeGeneric cb) (removeGenericListener_ids ..)
  | renewId id => exact kept.renewId id
  | tick =>
    refine ⟨kept.counts.tick, fun i used => ?_⟩
    simp only [Aged.step, tick_listeners kept.counts] at used ⊢
    exact (kept.times i (live_of_ticked used)).tick used

/-! ### Whole programs -/

/-- The tables do what their interface says. -/
structure Aged.Faithful (a : Aged) : Prop where
  ids : ∀ i < maxIdLst, (a.tf.idListeners i).fn ≠ none → i < a.tf.countIdLst
  types : ∀ i < maxTypeLst, (a.tf.typeListeners i).fn ≠ none → i < a.tf.countTypeLst
  generics : ∀ i < maxGenLst, (a.tf.genericListeners i).fn ≠ none → i < a.tf.countGenericLst
  /-- A live listener is found. -/
  removesId : ∀ i < maxIdLst, (a.tf.idListeners i).fn ≠ none →
    (a.tf.removeIdListener (a.tf.idListeners i).id).2 = true
  removesType : ∀ i < maxTypeLst, (a.tf.typeListeners i).fn ≠ none →
    (a.tf.removeTypeListener (a.tf.typeListeners i).type).2 = true
  removesGeneric : ∀ i < maxGenLst, (a.tf.genericListeners i).fn ≠ none →
    (a.tf.removeGenericListener (a.tf.genericListeners i).fn).2 = true
  renewsId : ∀ i < maxIdLst, (a.tf.idListeners i).fn ≠ none →
    (a.tf.renewIdListener (a.tf.idListeners i).id).2 = true
  /-- Only a full table refuses a listener. -/
  addsId : ∀ msg cb timeout, (a.tf.addIdListener msg (some cb) timeout).2 = false ↔
    ∀ i < maxIdLst, (a.tf.idListeners i).fn ≠ none
  addsType : ∀ frameType cb, (a.tf.addTypeListener frameType (some cb)).2 = false ↔
    ∀ i < maxTypeLst, (a.tf.typeListeners i).fn ≠ none
  addsGeneric : ∀ cb, (a.tf.addGenericListener (some cb)).2 = false ↔
    ∀ i < maxGenLst, (a.tf.genericListeners i).fn ≠ none
  /-- A live ID listener stays until it is removed or a tick discards it, -/
  stays : ∀ c, ∀ i < maxIdLst, (a.tf.idListeners i).fn ≠ none →
    (((a.step c).1.tf.idListeners i).fn = (a.tf.idListeners i).fn ∧
      ((a.step c).1.tf.idListeners i).id = (a.tf.idListeners i).id) ∨
    ((a.step c).1.tf.idListeners i).fn = none ∧ (c = .removeId (a.tf.idListeners i).id ∨ c = .tick)
  /-- which the tick does that completes the timeout the listener was added with. -/
  expires : ∀ i < maxIdLst, (a.tf.idListeners i).fn ≠ none →
    ((a.tf.tick.idListeners i).fn = none ↔ a.given i ≠ 0 ∧ a.since i + 1 = (a.given i).toNat)
  /-- No live listener is past that tick. -/
  inTime : ∀ i < maxIdLst, (a.tf.idListeners i).fn ≠ none → a.given i ≠ 0 →
    a.since i < (a.given i).toNat

section Found
variable {i : Nat}

theorem isSome_of_ne {n : Option Nat} (used : n ≠ none) : n.isSome = true :=
  Option.isSome_iff_ne_none.mpr used

theorem CountsAbove.matchId (counts : CountsAbove tf) (used : (tf.idListeners i).fn ≠ none) :
    ∃ j, firstIndex tf.countIdLst (fun j =>
      (tf.idListeners j).fn.isSome && (tf.idListeners j).id == (tf.idListeners i).id) = some j :=
  counts.ids.find (isSome_of_ne used) (by simp [isSome_of_ne used])

theorem full_slots {n : Nat} {fn : Nat → Option Nat} :
    firstIndex n (fun i => (fn i).isNone) = none ↔ ∀ i < n, fn i ≠ none := by
  rw [firstIndex_none]
  simp [Option.isSome_iff_ne_none]

end Found

/-! ### Answers -/

section Answers
variable {slot : Option Nat} {found : Nat → TinyFrame}

theorem answer_refused :
    (match slot with | none => (tf, false) | some i => (found i, true)).2 = false ↔
      slot = none := by
  cases slot with
  | none => simp
  | some i => simp

theorem answer_found (some_ : ∃ j, slot = some j) :
    (match slot with | none => (tf, false) | some i => (found i, true)).2 = true := by
  obtain ⟨j, rfl⟩ := some_
  rfl

end Answers

theorem Aged.Kept.faithful {a : Aged} (kept : a.Kept) : a.Faithful where
  ids i _ used := kept.counts.ids i (isSome_of_ne used)
  types i _ used := kept.counts.types i (isSome_of_ne used)
  generics i _ used := kept.counts.generics i (isSome_of_ne used)
  removesId i _ used := answer_found (kept.counts.matchId used)
  removesType i _ used := by
    refine answer_found (kept.counts.types.find (isSome_of_ne used) ?_)
    simp [isSome_of_ne used]
  removesGeneric i _ used := by
    refine answer_found (kept.counts.generics.find (isSome_of_ne used) ?_)
    simp
  renewsId i _ used := answer_found (kept.counts.matchId used)
  addsId msg cb timeout := answer_refused.trans full_slots
  addsType frameType cb := answer_refused.trans full_slots
  addsGeneric cb := answer_refused.trans full_slots
  stays c i _ used := by
    cases c with
    | addId msg cb timeout =>
      left
      cases found : firstIndex maxIdLst fun i => (a.tf.idListeners i).fn.isNone with
      | none => simp only [Aged.step, addIdListener, found, and_self]
      | some j =>
        have other : i ≠ j := by
          rintro rfl
          exact used (Option.isNone_iff_eq_none.mp (firstIndex_some found).2)
        simp only [Aged.step, addIdListener, found, Function.update_of_ne other, and_self]
    | addType frameType cb => simp [Aged.step, addTypeListener_ids]
    | addGeneric cb => simp [Aged.step, addGenericListener_ids]
    | removeId frameId =>
      simp only [Aged.step]
      rcases removeIdListener_ids a.tf frameId i with same | ⟨match_, freed⟩
      · simp [same]
      · simp [freed, match_]
    | removeType type => simp [Aged.step, removeTypeListener_ids]
    | removeGeneric cb => simp [Aged.step, removeGenericListener_ids]
    | renewId id =>
      left
      cases found : firstIndex a.tf.countIdLst fun i =>
          (a.tf.idListeners i).fn.isSome && (a.tf.idListeners i).id == id with
      | none => simp only [Aged.step, renewIdListener, found, and_self]
      | some j =>
        simp only [Aged.step, renewIdListener, found]
        by_cases here : i = j
        · subst here
          simp
        · simp [Function.update_of_ne here]
    | tick =>
      simp only [Aged.step, tick_listeners kept.counts]
      unfold IdListener.ticked
      split
      · exact .inl ⟨rfl, rfl⟩
      · by_cases last : (a.tf.idListeners i).timeout - 1 = 0
        · exact .inr ⟨by simp [last], .inr trivial⟩
        · exact .inl ⟨by simp [last], rfl⟩
  expires i _ used := by
    rw [tick_listeners kept.counts]
    exact (kept.times i (isSome_of_ne used)).expires (isSome_of_ne used)
  inTime i _ used some := by
    obtain ⟨more, sum⟩ := (kept.times i (isSome_of_ne used)).counting some
    have pos : (a.tf.idListeners i).timeout.toNat ≠ 0 := fun zero => more (UInt16.toNat_inj.mp zero)
    omega

/-- Over all calls on the tables from `TF_InitStatic` on. -/
theorem tables_faithful (peerBit : Bool) (calls : List TableCall) :
    (Aged.run peerBit calls).Faithful := by
  have start : (Aged.start peerBit).Kept :=
    ⟨countsAbove_init peerBit, fun i used => absurd used Bool.false_ne_true⟩
  exact (after_keeps Aged.step (fun a c kept => kept.step c) start calls).faithful

end TinyFrame
