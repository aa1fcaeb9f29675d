import CommonLib.UsbPipe.Message
import Mathlib.Data.List.Perm.Basic
import Mathlib.Data.List.Induction

/- The listening thread and the synchronous calls: requests to the handler, responses into a
   shared list that the callers poll. -/
namespace UsbPipe

/-- `struct elNode`. `arrival` tells the nodes apart, as their addresses do. -/
structure ElNode where
  arrival : Nat
  seq : UInt32
  data : List UInt8
  deriving DecidableEq, Repr

/-! ### The list -/

def zwUptpListPush (list : List ElNode) (np : ElNode) : List ElNode := np :: list

/-- `zw_uptp_list_pop_by_seq`: the first node with the number, and the list without it. -/
def zwUptpListPopBySeq : List ElNode → UInt32 → Option (ElNode × List ElNode)
  | [], _ => none
  | np :: next, seq =>
    if seq = np.seq then some (np, next)
    else (zwUptpListPopBySeq next seq).map fun res => (res.1, np :: res.2)

theorem pop_spec {list rest : List ElNode} {seq : UInt32} {np : ElNode}
    (popped : zwUptpListPopBySeq list seq = some (np, rest)) :
    np.seq = seq ∧ List.Perm list (np :: rest) ∧
      rest.filter (fun n => n.seq ≠ seq) = list.filter (fun n => n.seq ≠ seq) := by
  induction list generalizing rest with
  | nil => exact nomatch popped
  | cons n next ih =>
    unfold zwUptpListPopBySeq at popped
    split at popped
    · rename_i same
      obtain ⟨rfl, rfl⟩ := Prod.mk.inj (Option.some.inj popped)
      exact ⟨same.symm, List.Perm.refl _, by simp [same]⟩
    · rename_i other
      obtain ⟨⟨found, left⟩, deeper, made⟩ := Option.map_eq_some_iff.mp popped
      obtain ⟨rfl, rfl⟩ := Prod.mk.inj made
      obtain ⟨own, perm, kept⟩ := ih deeper
      refine ⟨own, ?_, ?_⟩
      · exact (perm.cons n).trans (List.Perm.swap found n left)
      · rw [List.filter_cons_of_pos (by simpa using Ne.symm other), kept,
          List.filter_cons_of_pos (by simpa using Ne.symm other)]

theorem pop_newest {list : List ElNode} {seq : UInt32} :
    (zwUptpListPopBySeq list seq).map Prod.fst = list.find? (fun n => n.seq = seq) := by
  induction list with
  | nil => rfl
  | cons n next ih =>
    unfold zwUptpListPopBySeq
    split
    · rename_i same
      rw [List.find?_cons_of_pos (by simpa using same.symm)]
      rfl
    · rename_i other
      rw [List.find?_cons_of_neg (by simpa using Ne.symm other), ← ih, Option.map_map]
      rfl

/-! ### The listening thread -/

/-- What `fxn_listen_thread` does with a received message. -/
inductive Outcome where
  | queued (seq : UInt32) (data : List UInt8)
  | handled (data : Nat → UInt8) (len : UInt32)
  | dropped

def fxnListenThread (bound : Bool) (msg : Message) : Outcome :=
  if MSG_TYPE_RESPONSE = msg.msgType then
    -- The terminator goes behind the bytes that are queued.
    let msg := { msg with data := Function.update msg.data msg.dateLen.toNat 0 }
    .queued msg.seq msg.payload
  else if MSG_TYPE_REQUEST = msg.msgType then
    if bound then .handled msg.data msg.dateLen else .dropped
  else .dropped

theorem response_queued (bound : Bool) {msg : Message} (response : msg.msgType = MSG_TYPE_RESPONSE) :
    fxnListenThread bound msg = .queued msg.seq msg.payload := by
  have kept : (Message.payload { msg with data := Function.update msg.data msg.dateLen.toNat 0 }) =
      msg.payload := by
    apply List.map_congr_left
    intro i inside
    exact Function.update_of_ne (Nat.ne_of_lt (List.mem_range.mp inside)) _ _
  exact (if_pos response.symm).trans (congrArg (Outcome.queued msg.seq) kept)

theorem request_handled {msg : Message} (request : msg.msgType = MSG_TYPE_REQUEST) :
    fxnListenThread true msg = .handled msg.data msg.dateLen := by
  have other : ¬ MSG_TYPE_RESPONSE = msg.msgType := by
    rw [request]
    decide
  unfold fxnListenThread
  rw [if_neg other, if_pos request.symm, if_pos rfl]

theorem handled_request {bound : Bool} {msg : Message} {data : Nat → UInt8} {len : UInt32}
    (handled : fxnListenThread bound msg = .handled data len) : msg.msgType = MSG_TYPE_REQUEST := by
  unfold fxnListenThread at handled
  split at handled
  · cases handled
  · split at handled
    · rename_i request
      exact request.symm
    · cases handled

/-! ### The calls -/

/-- The request of `zw_usbpipe_uptp_call_sync`; `stack` is what the memory of the local message
    held before. Nothing is stored in `msgType`. `none` is a payload that leaves the data array. -/
def requestOf (stack : Message) (seq : UInt32) (req : List UInt8) : Option Message :=
  if req.length ≤ maxSize then
    some { stack with
      identify := pipeTag
      seq := seq
      data := fun i => if i < req.length then req.getD i 0 else stack.data i
      dateLen := UInt32.ofNat req.length }
  else none

/-- Where a call stands. `overrun` is a response that leaves the buffer of its log line: 1023
    bytes and the terminator fit. -/
inductive Progress where
  | waiting
  | returned (node : ElNode)
  | overrun (node : ElNode)
  deriving DecidableEq, Repr

structure Caller where
  seq : UInt32
  progress : Progress
  deriving DecidableEq, Repr

structure Shared where
  gSeq : UInt32
  gList : List ElNode
  callers : List Caller
  arrived : List ElNode

def Shared.init : Shared := ⟨0, [], [], []⟩

/-- The steps that interleave: a call begins, a response arrives, a call polls the list. -/
inductive Action where
  | call
  | respond (seq : UInt32) (data : List UInt8)
  | poll (i : Nat)

def taken (node : ElNode) : Progress :=
  if node.data.length < 1024 then .returned node else .overrun node

def Shared.step (s : Shared) : Action → Shared
  | .call => { s with gSeq := s.gSeq + 1, callers := s.callers ++ [⟨s.gSeq + 1, .waiting⟩] }
  | .respond seq data =>
    let node : ElNode := ⟨s.arrived.length, seq, data⟩
    { s with gList := zwUptpListPush s.gList node, arrived := node :: s.arrived }
  | .poll i =>
    match s.callers[i]? with
    | none => s
    | some caller =>
      match caller.progress with
      | .waiting =>
        match zwUptpListPopBySeq s.gList caller.seq with
        | none => s
        | some (node, list) =>
          { s with gList := list, callers := s.callers.set i { caller with progress := taken node } }
      | _ => s

def Shared.run (actions : List Action) : Shared := actions.foldl Shared.step .init

def Caller.node? (c : Caller) : Option ElNode :=
  match c.progress with
  | .waiting => none
  | .returned node => some node
  | .overrun node => some node

structure Shared.Fair (s : Shared) : Prop where
  own : ∀ c ∈ s.callers, ∀ node, c.node? = some node → node.seq = c.seq
  once : List.Perm s.arrived (s.gList ++ s.callers.filterMap Caller.node?)
  distinct : (s.arrived.map ElNode.arrival).Nodup
  below : ∀ n ∈ s.arrived, n.arrival < s.arrived.length

theorem taken_node (seq : UInt32) (node : ElNode) : Caller.node? ⟨seq, taken node⟩ = some node := by
  unfold Caller.node? taken
  split
  · rename_i made
    split at made
    · exact nomatch made
    · exact nomatch made
  · rename_i other made
    split at made
    · rw [Progress.returned.inj made]
    · exact nomatch made
  · rename_i other made
    split at made
    · exact nomatch made
    · rw [Progress.overrun.inj made]

theorem set_split {α : Type} {l : List α} {i : Nat} {a : α} (at_i : l[i]? = some a) :
    ∃ front back, l = front ++ a :: back ∧ ∀ b, l.set i b = front ++ b :: back := by
  induction l generalizing i with
  | nil => exact nomatch at_i
  | cons x xs ih =>
    cases i with
    | zero =>
      obtain rfl := Option.some.inj at_i
      exact ⟨[], xs, rfl, fun b => rfl⟩
    | succ i =>
      obtain ⟨front, back, same, sets⟩ := ih at_i
      refine ⟨x :: front, back, ?_, ?_⟩
      · rw [same]
        rfl
      · intro b
        rw [List.set_cons_succ, sets b]
        rfl

theorem poll_cases (s : Shared) (i : Nat) :
    (s.step (.poll i) = s ∧ ∀ c, s.callers[i]? = some c → c.progress = .waiting →
        zwUptpListPopBySeq s.gList c.seq = none) ∨
      ∃ caller node list front back, s.callers = front ++ caller :: back ∧
        caller.progress = .waiting ∧
        s.callers[i]? = some caller ∧ zwUptpListPopBySeq s.gList caller.seq = some (node, list) ∧
        s.step (.poll i) =
          { s with gList := list, callers := front ++ { caller with progress := taken node } :: back } := by
  unfold Shared.step
  split
  · exact nomatch ‹Action.poll i = .call›
  · exact nomatch ‹Action.poll i = .respond _ _›
  · rename_i j same
    obtain rfl := Action.poll.inj same
    split
    · rename_i absent
      refine .inl ⟨rfl, ?_⟩
      intro c there
      exact nomatch absent.symm.trans there
    · rename_i caller there
      have unique : ∀ c, s.callers[i]? = some c → caller = c := fun c here =>
        Option.some.inj (there.symm.trans here)
      split
      · rename_i waiting
        split
        · rename_i nothing
          refine .inl ⟨rfl, ?_⟩
          intro c here _
          rw [← unique c here]
          exact nothing
        · rename_i node list popped
          obtain ⟨front, back, callers, sets⟩ := set_split there
          right
          refine ⟨caller, node, list, front, back, callers, waiting, there, popped, ?_⟩
          rw [sets]
      · rename_i done
        refine .inl ⟨rfl, ?_⟩
        intro c here waiting
        rw [← unique c here] at waiting
        exact absurd waiting done

theorem Shared.Fair.init : Shared.init.Fair := ⟨nofun, List.Perm.refl _, List.nodup_nil, nofun⟩

theorem Shared.Fair.step {s : Shared} (fair : s.Fair) (a : Action) : (s.step a).Fair := by
  obtain ⟨own, once, distinct, below⟩ := fair
  cases a with
  | call =>
    have none : Caller.node? ⟨s.gSeq + 1, .waiting⟩ = none := rfl
    refine ⟨?_, ?_, distinct, below⟩
    · intro c hc node some
      rcases List.mem_append.mp hc with old | new
      · exact own c old node some
      · rw [List.mem_singleton.mp new] at some
        exact nomatch some
    · simpa [Shared.step, List.filterMap_append, none] using once
  | respond seq data =>
    refine ⟨own, once.cons _, ?_, ?_⟩
    · simp only [Shared.step, List.map_cons, List.nodup_cons]
      refine ⟨?_, distinct⟩
      intro again
      obtain ⟨n, mem, same⟩ := List.mem_map.mp again
      have := below n mem
      omega
    · intro n mem
      simp only [Shared.step, List.length_cons]
      rcases List.mem_cons.mp mem with rfl | old
      · exact Nat.lt_succ_self _
      · exact Nat.lt_succ_of_lt (below n old)
  | poll i =>
    rcases poll_cases s i with ⟨same, _⟩ | ⟨caller, node, list, front, back, callers, waiting, _,
      popped, made⟩
    · rw [same]
      exact ⟨own, once, distinct, below⟩
    · obtain ⟨number, perm, _⟩ := pop_spec popped
      have before : caller.node? = none := by
        unfold Caller.node?
        rw [waiting]
      have after : Caller.node? { caller with progress := taken node } = some node :=
        taken_node caller.seq node
      rw [made]
      refine ⟨?_, ?_, distinct, below⟩
      · intro c hc n some
        rcases List.mem_append.mp hc with left | right
        · exact own c (callers ▸ List.mem_append_left _ left) n some
        · rcases List.mem_cons.mp right with here | right
          · rw [here, after] at some
            rw [here, ← Option.some.inj some]
            exact number
          · exact own c (callers ▸ List.mem_append_right _ (List.mem_cons_of_mem _ right)) n some
      · rw [callers] at once
        simp only [List.filterMap_append, List.filterMap_cons, before, after] at once ⊢
        have out := once.trans (perm.append_right _)
        rw [List.cons_append, ← List.append_assoc] at out
        rw [← List.append_assoc]
        exact out.trans List.perm_middle.symm

theorem Shared.run_fair (actions : List Action) : (Shared.run actions).Fair := by
  have all : ∀ (s : Shared), s.Fair → (actions.foldl Shared.step s).Fair := by
    induction actions with
    | nil =>
      intro s fair
      exact fair
    | cons a as ih =>
      intro s fair
      exact ih (s.step a) (fair.step a)
  exact all .init Shared.Fair.init

/-- What the callers may rely on: a call that takes a response off the list returns it, with its
    own number and as it arrived, no response goes to two calls or is lost, and a poll leaves the
    responses for other numbers on the list, in their order. -/
structure Shared.Answered (s : Shared) : Prop where
  returned : ∀ c ∈ s.callers, ∀ node, c.node? = some node → c.progress = .returned node
  own : ∀ c ∈ s.callers, ∀ node, c.node? = some node → node.seq = c.seq ∧ node ∈ s.arrived
  once : ((s.callers.filterMap Caller.node?).map ElNode.arrival).Nodup
  kept : List.Perm s.arrived (s.gList ++ s.callers.filterMap Caller.node?)
  order : ∀ i c, s.callers[i]? = some c →
    (s.step (.poll i)).gList.filter (fun n => n.seq ≠ c.seq) =
      s.gList.filter (fun n => n.seq ≠ c.seq)

/-- The newest response that waits for the call fits the buffer of the log line. -/
def Shared.Fits (s : Shared) : Action → Prop
  | .poll i => ∀ c, s.callers[i]? = some c → c.progress = .waiting →
    ∀ n, s.gList.find? (fun n => n.seq = c.seq) = some n → n.data.length < 1024
  | _ => True

def Shared.Whole (s : Shared) : Prop := ∀ c ∈ s.callers, ∀ node, c.progress ≠ .overrun node

theorem Shared.run_snoc (front : List Action) (a : Action) :
    Shared.run (front ++ [a]) = (Shared.run front).step a := by
  unfold Shared.run
  rw [List.foldl_append]
  rfl

theorem fits_poll_iff {s : Shared} {i : Nat} {caller : Caller} {node : ElNode} {list : List ElNode}
    (there : s.callers[i]? = some caller) (waiting : caller.progress = .waiting)
    (popped : zwUptpListPopBySeq s.gList caller.seq = some (node, list)) :
    s.Fits (.poll i) ↔ node.data.length < 1024 := by
  have newest : s.gList.find? (fun n => n.seq = caller.seq) = some node := by
    rw [← pop_newest, popped]
    rfl
  constructor
  · intro fits
    exact fits caller there waiting node newest
  · intro short c here _ n found
    obtain rfl := Option.some.inj (there.symm.trans here)
    obtain rfl := Option.some.inj (newest.symm.trans found)
    exact short

theorem whole_step_iff {s : Shared} (whole : s.Whole) (a : Action) :
    (s.step a).Whole ↔ s.Fits a := by
  cases a with
  | call =>
    refine iff_of_true ?_ trivial
    intro c hc node past
    rcases List.mem_append.mp hc with old | new
    · exact whole c old node past
    · rw [List.mem_singleton.mp new] at past
      exact nomatch past
  | respond seq data => exact iff_of_true whole trivial
  | poll i =>
    rcases poll_cases s i with ⟨same, nothing⟩ | ⟨caller, node, list, front, back, callers, waiting,
      there, popped, made⟩
    · rw [same]
      refine iff_of_true whole ?_
      intro c here waiting n newest
      rw [← pop_newest, nothing c here waiting] at newest
      exact nomatch newest
    · rw [fits_poll_iff there waiting popped, made]
      constructor
      · intro after
        by_contra long
        refine after _ (List.mem_append_right _ List.mem_cons_self) node ?_
        exact if_neg long
      · intro short c hc n past
        rcases List.mem_append.mp hc with left | right
        · exact whole c (callers ▸ List.mem_append_left _ left) n past
        · rcases List.mem_cons.mp right with here | right
          · rw [here] at past
            exact nomatch (if_pos short).symm.trans past
          · exact whole c (callers ▸ List.mem_append_right _ (List.mem_cons_of_mem _ right)) n past

theorem Shared.Answered.whole {s : Shared} (answered : s.Answered) : s.Whole := by
  intro c hc node past
  have took : c.node? = some node := by
    unfold Caller.node?
    rw [past]
  exact nomatch past.symm.trans (answered.returned c hc node took)

theorem Shared.Fair.answered {s : Shared} (fair : s.Fair) (whole : s.Whole) : s.Answered := by
  obtain ⟨own, once, distinct, _⟩ := fair
  refine ⟨?_, ?_, ?_, once, ?_⟩
  · intro c hc node took
    unfold Caller.node? at took
    split at took
    · exact nomatch took
    · rename_i returned
      rw [returned, Option.some.inj took]
    · rename_i past
      exact absurd past (whole c hc _)
  · intro c hc node took
    refine ⟨own c hc node took, once.mem_iff.mpr ?_⟩
    exact List.mem_append_right _ (List.mem_filterMap.mpr ⟨c, hc, took⟩)
  · have all := (once.map ElNode.arrival).nodup_iff.mp distinct
    rw [List.map_append] at all
    exact (List.nodup_append.mp all).2.1
  · intro i c here
    rcases poll_cases s i with ⟨same, _⟩ | ⟨caller, node, list, _, _, _, _, there, popped, made⟩
    · rw [same]
    · rw [here] at there
      obtain rfl := Option.some.inj there
      rw [made]
      exact (pop_spec popped).2.2

/-- However calls and responses interleave: all goes well up to a step exactly if no poll before
    it finds a response that is longer than the buffer of the caller's log line. -/
theorem calls_answered (actions : List Action) :
    (∀ front, front <+: actions → (Shared.run front).Answered) ↔
      ∀ front a, front ++ [a] <+: actions → (Shared.run front).Fits a := by
  constructor
  · intro answered front a reached
    have before := answered front ((List.prefix_append front [a]).trans reached)
    have after := answered (front ++ [a]) reached
    rw [Shared.run_snoc] at after
    exact (whole_step_iff before.whole a).mp after.whole
  · intro fits front
    induction front using List.reverseRecOn with
    | nil =>
      intro _
      exact Shared.Fair.init.answered nofun
    | append_singleton front a ih =>
      intro reached
      have before := ih ((List.prefix_append front [a]).trans reached)
      refine (Shared.run_fair _).answered ?_
      rw [Shared.run_snoc]
      exact (whole_step_iff before.whole a).mpr (fits front a reached)

theorem arrived_sent (actions : List Action) :
    ∀ n ∈ (Shared.run actions).arrived, Action.respond n.seq n.data ∈ actions := by
  induction actions using List.reverseRecOn with
  | nil => nofun
  | append_singleton front a ih =>
    intro n mem
    have old : n ∈ (Shared.run front).arrived → Action.respond n.seq n.data ∈ front ++ [a] :=
      fun before => List.mem_append_left _ (ih n before)
    rw [Shared.run_snoc] at mem
    cases a with
    | call => exact old mem
    | respond seq data =>
      rcases List.mem_cons.mp mem with rfl | before
      · exact List.mem_append_right _ (List.mem_singleton_self _)
      · exact old before
    | poll i =>
      rcases poll_cases (Shared.run front) i with ⟨same, _⟩ | ⟨_, _, _, _, _, _, _, _, _, made⟩
      · rw [same] at mem
        exact old mem
      · rw [made] at mem
        exact old mem

theorem fits_of_short {actions : List Action}
    (short : ∀ a ∈ actions, ∀ seq data, a = .respond seq data → data.length < 1024) :
    ∀ front a, front ++ [a] <+: actions → (Shared.run front).Fits a := by
  intro front a reached
  cases a with
  | call => trivial
  | respond seq data => trivial
  | poll i =>
    intro c _ _ n newest
    have there : n ∈ (Shared.run front).arrived :=
      (Shared.run_fair front).once.mem_iff.mpr
        (List.mem_append_left _ (List.mem_of_find?_eq_some newest))
    have sent := List.mem_append_left [.poll i] (arrived_sent front n there)
    exact short _ (reached.subset sent) n.seq n.data rfl

def threeResponses : List Action :=
  [.call, .call, .respond 2 [7], .respond 2 [8, 8], .respond 1 [9], .poll 0, .poll 1]

theorem calls_answered_sample :
    (∀ front, front <+: threeResponses → (Shared.run front).Answered) ∧
      (Shared.run threeResponses).callers =
        [⟨1, .returned ⟨2, 1, [9]⟩⟩, ⟨2, .returned ⟨1, 2, [8, 8]⟩⟩] ∧
      (Shared.run threeResponses).gList = [⟨0, 2, [7]⟩] := by
  refine ⟨(calls_answered threeResponses).mpr (fits_of_short ?_), by decide, by decide⟩
  intro a mem seq data same
  simp only [threeResponses, List.mem_cons, List.not_mem_nil, or_false] at mem
  rcases mem with rfl | rfl | rfl | rfl | rfl | rfl | rfl <;> cases same <;> decide

/-- A response of 1024 bytes leaves the buffer when its call takes it. -/
theorem long_response_sample :
    let actions := [.call, .respond 1 (List.replicate 1024 0), .poll 0]
    (Shared.run actions).callers = [⟨1, .overrun ⟨0, 1, List.replicate 1024 0⟩⟩] ∧
      ¬ ∀ front, front <+: actions → (Shared.run front).Answered := by
  have callers : (Shared.run [.call, .respond 1 (List.replicate 1024 0), .poll 0]).callers =
      [⟨1, .overrun ⟨0, 1, List.replicate 1024 0⟩⟩] := by
    have long : taken ⟨0, 1, List.replicate 1024 0⟩ = .overrun ⟨0, 1, List.replicate 1024 0⟩ :=
      if_neg (by rw [List.length_replicate]; decide)
    change [(⟨1, taken ⟨0, 1, List.replicate 1024 0⟩⟩ : Caller)] = _
    rw [long]
  refine ⟨callers, ?_⟩
  intro answered
  have whole := (answered _ (List.prefix_refl _)).whole
  rw [Shared.Whole, callers] at whole
  exact whole _ (List.mem_singleton_self _) _ rfl

/-! ### Requests on the wire -/

/-- The loop of `fxn_listen_thread` on the bytes of one write: a read returns what there is, up
    to the size of its buffer, and the rest is the next message. -/
def listenLoop (bound : Bool) (bytes : List UInt8) : List Outcome :=
  if bytes = [] then []
  else
    fxnListenThread bound (zwUptpRecive (bytes.take maxSize) .zero) ::
      listenLoop bound (bytes.drop maxSize)
termination_by bytes.length
decreasing_by
  have room : 0 < maxSize := by decide
  have some := List.length_pos_of_ne_nil ‹_›
  rw [List.length_drop]
  omega

def routed (stack : Message) (seq : UInt32) (req : List UInt8) : Option (List Outcome) :=
  (requestOf stack seq req).map fun msg => listenLoop true (zwUptpSend msg).2

/-- The peer passes the request on to its handler, and does nothing else with it. -/
def PassedOn (outcomes : Option (List Outcome)) (req : List UInt8) : Prop :=
  ∃ data len, outcomes = some [.handled data len] ∧ len.toNat = req.length ∧
    ∀ i < req.length, data i = req.getD i 0

theorem listenLoop_one (bound : Bool) {bytes : List UInt8} (some : bytes ≠ [])
    (fits : bytes.length ≤ maxSize) :
    listenLoop bound bytes = [fxnListenThread bound (zwUptpRecive bytes .zero)] := by
  rw [listenLoop, if_neg some, List.take_of_length_le fits, List.drop_of_length_le fits, listenLoop,
    if_pos rfl]

/-- Bytes that exceed the buffer are taken for more than one message. -/
theorem listenLoop_more (bound : Bool) {bytes : List UInt8} (more : maxSize < bytes.length) :
    ∃ first second rest, listenLoop bound bytes = first :: second :: rest := by
  have some : bytes ≠ [] := by
    rintro rfl
    exact nomatch more
  have left : bytes.drop maxSize ≠ [] := by
    rw [ne_eq, List.drop_eq_nil_iff]
    exact not_le.mpr more
  rw [listenLoop, if_neg some, listenLoop, if_neg left]
  exact ⟨_, _, _, rfl⟩

theorem sent_received (msg : Message) :
    (zwUptpRecive (zwUptpSend msg).2 .zero).content = (zwUptpSend msg).1.content := by
  unfold zwUptpRecive
  refine content_ofMemory.mpr ?_
  intro i inside
  have size : i < (zwUptpSend msg).2.length := by
    simpa only [zwUptpSend, List.length_map, List.length_range] using inside
  rw [if_pos size, List.getD_eq_getElem?_getD, List.getElem?_eq_getElem size, Option.getD_some]
  simp only [zwUptpSend, List.getElem_map, List.getElem_range]

theorem requestOf_spec (stack : Message) (seq : UInt32) {req : List UInt8}
    (fits : req.length ≤ maxSize) :
    ∃ msg, requestOf stack seq req = some msg ∧ (zwUptpSend msg).1 = msg ∧
      msg.msgType = stack.msgType ∧ msg.seq = seq ∧ msg.dateLen.toNat = req.length ∧
      msg.payload = req := by
  have length : (UInt32.ofNat req.length).toNat = req.length := by
    have small : req.length < 2 ^ 32 := by
      unfold maxSize at fits
      omega
    exact UInt32.toNat_ofNat_of_lt' small
  refine ⟨_, if_pos fits, rfl, rfl, rfl, length, ?_⟩
  unfold Message.payload
  rw [length]
  apply List.ext_getElem
  · rw [List.length_map, List.length_range]
  · intro i _ inside
    rw [List.getElem_map, List.getElem_range]
    refine (if_pos inside).trans ?_
    rw [List.getD_eq_getElem?_getD, List.getElem?_eq_getElem inside, Option.getD_some]

theorem sent_length (msg : Message) : (zwUptpSend msg).2.length = msg.dateLen.toNat + 16 := by
  simp only [zwUptpSend, List.length_map, List.length_range]

theorem routed_fits (stack : Message) (seq : UInt32) {req : List UInt8}
    (fits : req.length + 16 ≤ maxSize) :
    ∃ msg : Message, routed stack seq req = some [fxnListenThread true msg] ∧
      msg.msgType = stack.msgType ∧ msg.seq = seq ∧ msg.dateLen.toNat = req.length ∧
      msg.payload = req := by
  obtain ⟨msg, made, tagged, msgType, number, dateLen, payload⟩ :=
    requestOf_spec stack seq (Nat.le_of_add_right_le fits)
  have length : (zwUptpSend msg).2.length = req.length + 16 := by
    rw [sent_length, dateLen]
  have nonempty : (zwUptpSend msg).2 ≠ [] := by
    intro empty
    rw [empty] at length
    exact nomatch length
  have received := sent_received msg
  rw [tagged] at received
  simp only [Message.content, Content.mk.injEq] at received
  obtain ⟨_, type, seqs, len, data⟩ := received
  refine ⟨zwUptpRecive (zwUptpSend msg).2 .zero, ?_, type.trans msgType, seqs.trans number, ?_,
    data.trans payload⟩
  · unfold routed
    rw [made, Option.map_some, listenLoop_one true nonempty (length ▸ fits)]
  · rw [len, dateLen]

theorem PassedOn.fits {stack : Message} {seq : UInt32} {req : List UInt8}
    (passed : PassedOn (routed stack seq req) req) : req.length + 16 ≤ maxSize := by
  obtain ⟨data, len, outcomes, _, _⟩ := passed
  obtain ⟨msg, made, one⟩ := Option.map_eq_some_iff.mp outcomes
  have whole : req.length ≤ maxSize := by
    by_contra past
    cases (if_neg past).symm.trans made
  obtain ⟨sent, made', _, _, _, dateLen, _⟩ := requestOf_spec stack seq whole
  obtain rfl := Option.some.inj (made.symm.trans made')
  by_contra long
  have more : maxSize < (zwUptpSend msg).2.length := by
    rw [sent_length, dateLen]
    exact not_le.mp long
  obtain ⟨first, second, rest, split⟩ := listenLoop_more true more
  rw [split] at one
  cases one

/-- A request reaches the peer's handler as one request exactly if the caller's stack happened to
    hold the request code where `msgType` lies and one read of the peer can hold the message. -/
theorem request_passedOn_iff (stack : Message) (seq : UInt32) (req : List UInt8) :
    PassedOn (routed stack seq req) req ↔
      stack.msgType = MSG_TYPE_REQUEST ∧ req.length + 16 ≤ maxSize := by
  constructor
  · intro passed
    obtain ⟨msg, outcome, msgType, _, _, _⟩ := routed_fits stack seq passed.fits
    refine ⟨?_, passed.fits⟩
    obtain ⟨data, len, outcomes, _, _⟩ := passed
    have handled := List.head_eq_of_cons_eq (Option.some.inj (outcome.symm.trans outcomes))
    rw [← msgType]
    exact handled_request handled
  · intro ⟨request, fits⟩
    obtain ⟨msg, outcome, msgType, _, dateLen, payload⟩ := routed_fits stack seq fits
    rw [outcome, request_handled (msgType.trans request)]
    refine ⟨msg.data, msg.dateLen, rfl, dateLen, ?_⟩
    intro i inside
    rw [← payload, Message.payload, List.getD_eq_getElem?_getD, List.getElem?_map,
      List.getElem?_range (dateLen ▸ inside), Option.map_some, Option.getD_some]

/-- With the response code on the stack the peer queues the request as a response. -/
theorem request_queued_sample :
    ¬ PassedOn (routed { Message.zero with msgType := 1 } 1 [7, 8]) [7, 8] ∧
      routed { Message.zero with msgType := 1 } 1 [7, 8] = some [.queued 1 [7, 8]] := by
  have outcome : routed { Message.zero with msgType := 1 } 1 [7, 8] =
      some [.queued 1 [7, 8]] := by
    obtain ⟨msg, outcome, msgType, seq, _, payload⟩ :=
      routed_fits { Message.zero with msgType := 1 } 1 (show [7, 8].length + 16 ≤ maxSize by decide)
    rw [outcome, response_queued true msgType, seq, payload]
  refine ⟨?_, outcome⟩
  intro ⟨data, len, passed, _⟩
  rw [outcome] at passed
  exact nomatch List.head_eq_of_cons_eq (Option.some.inj passed)

end UsbPipe
