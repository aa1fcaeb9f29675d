import CommonLib.Queue.Ring
import Mathlib.Algebra.BigOperators.Group.List.Basic
import Mathlib.Data.List.Induction
import Mathlib.Algebra.Ring.Int.Defs
import Mathlib.Algebra.Field.Rat
import Mathlib.Tactic.FieldSimp

/- The stream statistics of `test_bitrate`: a window of frames in a ring. -/
namespace Bitrate

abbrev maxFrameHist : Nat := 120

abbrev maxChNum : Nat := 2

abbrev seqNum : Nat := 40

structure BitrateItem where
  frameSz : Int
  framePts : Int
  deriving DecidableEq, Repr

/-- The `float` quotient `frame_cnt * 1000.0 / tm_delta`, by its two operands. -/
structure Framerate where
  frameCnt : Int
  tmDelta : Int
  deriving DecidableEq, Repr

structure StreamRcStatistics where
  frameHist : Vector BitrateItem maxFrameHist
  histInIdx : Int
  histOutIdx : Int
  totalWinSize : Int
  frameCnt : Int
  curAverageRc : Int
  curAverageFramerate : Framerate
  deriving Repr

def zeroStatistics : StreamRcStatistics :=
  ⟨Vector.replicate maxFrameHist ⟨0, 0⟩, 0, 0, 0, 0, 0, ⟨0, 1⟩⟩

namespace StreamRcStatistics

def slot (rc : StreamRcStatistics) (idx : Int) : Option BitrateItem :=
  if 0 ≤ idx then rc.frameHist[idx.toNat]? else none

def store (rc : StreamRcStatistics) (idx : Int) (item : BitrateItem) :
    Option (Vector BitrateItem maxFrameHist) :=
  if 0 ≤ idx ∧ idx < maxFrameHist then some (rc.frameHist.setIfInBounds idx.toNat item) else none

end StreamRcStatistics

def nextIdx (idx : Int) : Int :=
  if idx + 1 ≥ maxFrameHist then (idx + 1).tmod maxFrameHist else idx + 1

/-- `rc_check` on its channel. It is `none` where a slot outside of the array would be read. -/
def rcCheck (rc : StreamRcStatistics) : Option StreamRcStatistics :=
  if rc.frameCnt ≥ seqNum then do
    let startIdx := (rc.histInIdx + maxFrameHist - 1).tmod maxFrameHist
    let newest ← rc.slot startIdx
    let oldest ← rc.slot rc.histOutIdx
    some
      { rc with
        curAverageRc := rc.totalWinSize.tdiv rc.frameCnt
        curAverageFramerate := ⟨rc.frameCnt, newest.framePts - oldest.framePts⟩
        frameCnt := rc.frameCnt - 1
        totalWinSize := rc.totalWinSize - oldest.frameSz
        histOutIdx := nextIdx rc.histOutIdx }
  else some rc

def rcFilled (rc : StreamRcStatistics) (item : BitrateItem) : Option StreamRcStatistics :=
  if rc.frameCnt < maxFrameHist - 1 then do
    let frameHist ← rc.store rc.histInIdx item
    some
      { rc with
        frameHist := frameHist
        totalWinSize := rc.totalWinSize + item.frameSz
        frameCnt := rc.frameCnt + 1
        histInIdx := nextIdx rc.histInIdx }
  else some rc

abbrev Channels := Vector StreamRcStatistics maxChNum

def zeroChannels : Channels := Vector.replicate maxChNum zeroStatistics

inductive Call where
  | rcCheck (ch : Fin maxChNum)
  | rcFilled (ch : Fin maxChNum) (item : BitrateItem)
  deriving DecidableEq, Repr

def Call.apply (g : Channels) : Call → Option Channels
  | .rcCheck ch => do
    let rc ← Bitrate.rcCheck g[ch]
    some (g.set ch rc)
  | .rcFilled ch item => do
    let rc ← Bitrate.rcFilled g[ch] item
    some (g.set ch rc)

def runCalls (g : Channels) (calls : List Call) : Option Channels := calls.foldlM Call.apply g

def cbFrame (g : Channels) (frameLen curPts : Int) : Option Channels := do
  let g ← Call.apply g (.rcCheck 0)
  Call.apply g (.rcFilled 0 ⟨frameLen, curPts⟩)

def runFrames (g : Channels) (items : List BitrateItem) : Option Channels :=
  items.foldlM (fun g item => cbFrame g item.frameSz item.framePts) g

def rcGetInfo (g : Channels) (ch : Fin maxChNum) : Int × Framerate :=
  (g[ch].curAverageRc, g[ch].curAverageFramerate)

/-- The frames per second that a quotient stands for, exactly. -/
def Framerate.perSecond (framerate : Framerate) : ℚ :=
  framerate.frameCnt * 1000 / framerate.tmDelta

/-- The frame rate that a call of `rc_check` computes, if its window is large enough for one. -/
def checkedRate (rc : StreamRcStatistics) : Option Framerate :=
  if rc.frameCnt ≥ seqNum then (rcCheck rc).map (·.curAverageFramerate) else none

def frameRates (g : Channels) : List BitrateItem → Option (List Framerate)
  | [] => some []
  | item :: items => do
    let g' ← cbFrame g item.frameSz item.framePts
    let later ← frameRates g' items
    some ((checkedRate g[0]).toList ++ later)

/-! ### A channel as the queue of its frames -/

/-- The frames accepted and not yet evicted, oldest first, and what was last computed of them. -/
structure Window where
  frames : List BitrateItem
  average : Int
  framerate : Framerate

namespace Window

def empty : Window := ⟨[], 0, ⟨0, 1⟩⟩

def size (frames : List BitrateItem) : Int := (frames.map BitrateItem.frameSz).sum

def mean (frames : List BitrateItem) : Int := (size frames).tdiv frames.length

def duration (frames : List BitrateItem) : Int :=
  match frames.getLast?, frames.head? with
  | some newest, some oldest => newest.framePts - oldest.framePts
  | _, _ => 0

def check (window : Window) : Window :=
  if 40 ≤ window.frames.length then
    ⟨window.frames.tail, mean window.frames, ⟨window.frames.length, duration window.frames⟩⟩
  else window

/-- One slot of the ring is kept free. -/
def fill (window : Window) (item : BitrateItem) : Window :=
  if window.frames.length < 119 then { window with frames := window.frames ++ [item] }
  else window

def step (ch : Fin maxChNum) (window : Window) : Call → Window
  | .rcCheck ch' => if ch' = ch then window.check else window
  | .rcFilled ch' item => if ch' = ch then window.fill item else window

def after (ch : Fin maxChNum) (calls : List Call) : Window := calls.foldl (step ch) empty

end Window

structure Follows (rc : StreamRcStatistics) (window : Window) : Prop where
  input : 0 ≤ rc.histInIdx ∧ rc.histInIdx < 120
  output : 0 ≤ rc.histOutIdx ∧ rc.histOutIdx < 120
  count : rc.frameCnt = window.frames.length
  room : window.frames.length ≤ 119
  behind : rc.histInIdx = (rc.histOutIdx + rc.frameCnt) % 120
  slots : Ring.Holds (rc.frameHist[·]?) 120 rc.histOutIdx.toNat window.frames
  total : rc.totalWinSize = Window.size window.frames
  average : rc.curAverageRc = window.average
  framerate : rc.curAverageFramerate = window.framerate

theorem zero_follows : Follows zeroStatistics Window.empty where
  input := by decide
  output := by decide
  count := rfl
  room := by decide
  behind := by decide
  slots := Ring.holds_nil _ _ _
  total := rfl
  average := rfl
  framerate := rfl

theorem nextIdx_eq {idx : Int} (low : 0 ≤ idx) (high : idx < 120) :
    nextIdx idx = (idx + 1) % 120 := by
  unfold nextIdx maxFrameHist
  split
  · rw [Int.tmod_eq_emod_of_nonneg (by omega)]
    rfl
  · rw [Int.emod_eq_of_lt (by omega) (by omega)]

theorem slot_eq (rc : StreamRcStatistics) {idx : Int} (low : 0 ≤ idx) :
    rc.slot idx = rc.frameHist[idx.toNat]? := by
  simp [StreamRcStatistics.slot, low]

section Step
variable {rc : StreamRcStatistics} {window : Window}

theorem Follows.newest (follows : Follows rc window) {earlier : List BitrateItem}
    {newest : BitrateItem}
    (last : window.frames = earlier ++ [newest]) :
    rc.slot ((rc.histInIdx + maxFrameHist - 1).tmod maxFrameHist) = some newest := by
  obtain ⟨low, high⟩ := follows.output
  have input := follows.input
  have behind := follows.behind
  have count : rc.frameCnt = earlier.length + 1 := by simp [follows.count, last]
  have place : ((rc.histInIdx + maxFrameHist - 1).tmod maxFrameHist).toNat =
      (rc.histOutIdx.toNat + earlier.length) % 120 := by
    unfold maxFrameHist
    rw [Int.tmod_eq_emod_of_nonneg (by omega)]
    omega
  have held := last ▸ follows.slots
  rw [slot_eq rc (Int.tmod_nonneg _ (by unfold maxFrameHist; omega)), place]
  exact held.newest

theorem Follows.oldest (follows : Follows rc window) {oldest : BitrateItem}
    {later : List BitrateItem}
    (first : window.frames = oldest :: later) : rc.slot rc.histOutIdx = some oldest := by
  obtain ⟨low, high⟩ := follows.output
  have held := first ▸ follows.slots
  rw [slot_eq rc low]
  exact held.oldest (by omega)

theorem duration_eq {oldest newest : BitrateItem} {frames : List BitrateItem}
    (first : frames.head? = some oldest) (last : frames.getLast? = some newest) :
    Window.duration frames = newest.framePts - oldest.framePts := by
  simp [Window.duration, first, last]

theorem check_follows (follows : Follows rc window) :
    ∃ rc', rcCheck rc = some rc' ∧ Follows rc' window.check := by
  have count := follows.count
  by_cases enough : 40 ≤ window.frames.length
  · obtain ⟨oldest, later, first⟩ :=
      List.exists_cons_of_length_pos (show 0 < window.frames.length by omega)
    obtain ⟨earlier, newest, last⟩ : ∃ earlier newest, window.frames = earlier ++ [newest] :=
      (List.eq_nil_or_concat' window.frames).resolve_left (by simp [first])
    obtain ⟨low, high⟩ := follows.output
    have full : rc.frameCnt ≥ seqNum := by unfold seqNum; omega
    have shorter : window.frames.length = later.length + 1 := by simp [first]
    have next := nextIdx_eq low high
    have lasted : Window.duration window.frames = newest.framePts - oldest.framePts :=
      duration_eq (by simp [first]) (by simp [last])
    unfold rcCheck
    rw [if_pos full]
    simp only [follows.newest last, follows.oldest first, Option.bind_eq_bind, Option.bind_some]
    refine ⟨_, rfl, ?_⟩
    rw [Window.check, if_pos enough]
    have room := follows.room
    have behind := follows.behind
    constructor
    case input => exact follows.input
    case output => simp only [next]; omega
    case count => simp only [first, List.tail_cons]; omega
    case room => simp only [first, List.tail_cons]; omega
    case behind => simp only [next]; omega
    case slots =>
      have place : (nextIdx rc.histOutIdx).toNat = (rc.histOutIdx.toNat + 1) % 120 := by omega
      have held := first ▸ follows.slots
      simp only [place, first, List.tail_cons]
      exact held.pop
    case total =>
      have total := follows.total
      simp only [first, List.tail_cons, Window.size, List.map_cons, List.sum_cons] at total ⊢
      omega
    case average => simp only [Window.mean, ← follows.total, count]
    case framerate => simp only [lasted, count]
  · have few : ¬ rc.frameCnt ≥ seqNum := by unfold seqNum; omega
    rw [Window.check, if_neg enough, rcCheck, if_neg few]
    exact ⟨rc, rfl, follows⟩

theorem filled_follows (follows : Follows rc window) (item : BitrateItem) :
    ∃ rc', rcFilled rc item = some rc' ∧ Follows rc' (window.fill item) := by
  have count := follows.count
  by_cases free : window.frames.length < 119
  · obtain ⟨low, high⟩ := follows.input
    have room : rc.frameCnt < maxFrameHist - 1 := by unfold maxFrameHist; omega
    have inside : 0 ≤ rc.histInIdx ∧ rc.histInIdx < maxFrameHist := ⟨low, high⟩
    have next := nextIdx_eq low high
    have output := follows.output
    have behind := follows.behind
    have place : rc.histInIdx.toNat = (rc.histOutIdx.toNat + window.frames.length) % 120 := by omega
    unfold rcFilled
    rw [if_pos room]
    simp only [StreamRcStatistics.store, if_pos inside, Option.bind_eq_bind, Option.bind_some]
    refine ⟨_, rfl, ?_⟩
    rw [Window.fill, if_pos free]
    constructor
    case input => simp only [next]; omega
    case output => exact output
    case count => simp only [List.length_append, List.length_singleton]; omega
    case room => simp only [List.length_append, List.length_singleton]; omega
    case behind => simp only [next]; omega
    case slots =>
      apply follows.slots.push (by omega)
      · rw [← place]
        simp [Vector.getElem?_setIfInBounds]
        omega
      · intro j other
        rw [← place] at other
        simp [Ne.symm other]
    case total => simp [Window.size, follows.total]
    case average => exact follows.average
    case framerate => exact follows.framerate
  · have full : ¬ rc.frameCnt < maxFrameHist - 1 := by unfold maxFrameHist; omega
    rw [Window.fill, if_neg free, rcFilled, if_neg full]
    exact ⟨rc, rfl, follows⟩

end Step

/-! ### Runs -/

theorem set_follows {g : Channels} {windows windows' : Fin maxChNum → Window}
    (follows : ∀ ch : Fin maxChNum, Follows g[ch] (windows ch)) {ch : Fin maxChNum}
    {rc : StreamRcStatistics} (held : Follows rc (windows' ch))
    (others : ∀ other, ch ≠ other → windows' other = windows other) (other : Fin maxChNum) :
    Follows (g.set ch rc)[other] (windows' other) := by
  by_cases same : ch = other
  · subst same
    simpa using held
  · have apart : ch.val ≠ other.val := fun equal => same (Fin.ext equal)
    rw [others other same]
    simpa [Vector.getElem_set, apart] using follows other

theorem call_follows {g : Channels} {windows : Fin maxChNum → Window}
    (follows : ∀ ch : Fin maxChNum, Follows g[ch] (windows ch)) (call : Call) :
    ∃ g', Call.apply g call = some g' ∧
      ∀ ch : Fin maxChNum, Follows g'[ch] (Window.step ch (windows ch) call) := by
  cases call with
  | rcCheck ch =>
    obtain ⟨rc, run, held⟩ := check_follows (follows ch)
    refine ⟨g.set ch rc, by simp only [Call.apply, run, Option.bind_eq_bind, Option.bind_some], ?_⟩
    apply set_follows follows
    · simpa [Window.step] using held
    · intro other apart
      simp [Window.step, apart]
  | rcFilled ch item =>
    obtain ⟨rc, run, held⟩ := filled_follows (follows ch) item
    refine ⟨g.set ch rc, by simp only [Call.apply, run, Option.bind_eq_bind, Option.bind_some], ?_⟩
    apply set_follows follows
    · simpa [Window.step] using held
    · intro other apart
      simp [Window.step, apart]

theorem runCalls_follows {g : Channels} {windows : Fin maxChNum → Window}
    (follows : ∀ ch : Fin maxChNum, Follows g[ch] (windows ch)) (calls : List Call) :
    ∃ g', runCalls g calls = some g' ∧
      ∀ ch : Fin maxChNum, Follows g'[ch] (calls.foldl (Window.step ch) (windows ch)) := by
  induction calls generalizing g windows with
  | nil => exact ⟨g, rfl, follows⟩
  | cons call calls ih =>
    obtain ⟨g₁, one, held⟩ := call_follows follows call
    obtain ⟨g₂, rest, final⟩ := ih held
    refine ⟨g₂, ?_, final⟩
    simp only [runCalls, List.foldlM_cons, one, Option.bind_eq_bind, Option.bind_some]
    exact rest

def frameCalls (item : BitrateItem) : List Call := [.rcCheck 0, .rcFilled 0 item]

theorem runFrames_calls (g : Channels) (items : List BitrateItem) :
    runFrames g items = runCalls g (items.flatMap frameCalls) := by
  induction items generalizing g with
  | nil => rfl
  | cons item items ih =>
    simp only [runFrames, List.foldlM_cons, List.flatMap_cons, frameCalls, List.cons_append,
      List.nil_append, runCalls, cbFrame, bind_assoc] at ih ⊢
    simp only [ih]

/-- Checked before every frame, a window holds the last forty frames: none has been dropped. -/
theorem frames_after (items : List BitrateItem) :
    (Window.after 0 (items.flatMap frameCalls)).frames = items.drop (items.length - 40) := by
  induction items using List.reverseRecOn with
  | nil => rfl
  | append_singleton items item ih =>
    have last : Window.after 0 ((items ++ [item]).flatMap frameCalls) =
        (Window.after 0 (items.flatMap frameCalls)).check.fill item := by
      simp [Window.after, List.flatMap_append, frameCalls, Window.step]
    rw [last]
    generalize Window.after 0 (items.flatMap frameCalls) = window at ih
    have size : window.frames.length = min items.length 40 := by
      rw [ih, List.length_drop]
      omega
    have checked : window.check.frames = items.drop (items.length - 39) := by
      unfold Window.check
      split
      · simp only [ih, List.tail_drop]
        congr 1
        omega
      · rw [ih]
        congr 1
        omega
    have room : window.check.frames.length < 119 := by
      rw [checked, List.length_drop]
      omega
    rw [Window.fill, if_pos room, List.length_append, List.length_singleton,
      show items.length + 1 - 40 =
        items.length - 39 by omega, List.drop_append_of_le_length (by omega),
      checked]

theorem zeroChannels_follow (ch : Fin maxChNum) : Follows zeroChannels[ch] Window.empty := by
  simpa [zeroChannels] using zero_follows

theorem runFrames_follows (items : List BitrateItem) :
    ∃ g window, runFrames zeroChannels items = some g ∧
      Follows g[0] window ∧ window.frames = items.drop (items.length - 40) := by
  obtain ⟨g, run, follows⟩ := runCalls_follows zeroChannels_follow (items.flatMap frameCalls)
  rw [← runFrames_calls] at run
  exact ⟨g, _, run, follows 0, frames_after items⟩

/-- Every run of calls keeps the window of each channel, and a stream of frames is never cut. -/
theorem statistics_follow :
    (∀ calls : List Call, ∃ g, runCalls zeroChannels calls = some g ∧
      ∀ ch : Fin maxChNum, Follows g[ch] (Window.after ch calls)) ∧
    (∀ items : List BitrateItem, ∃ g window, runFrames zeroChannels items = some g ∧
      Follows g[0] window ∧ window.frames = items.drop (items.length - 40)) := by
  constructor
  · intro calls
    exact runCalls_follows zeroChannels_follow calls
  · intro items
    exact runFrames_follows items

/-! ### Frame rates -/

def Spaced (d : Int) (items : List BitrateItem) : Prop :=
  ∀ i a b, items[i]? = some a → items[i + 1]? = some b → b.framePts = a.framePts + d

/-- Every frame rate computed of a stream is the rate of its frames. -/
def RatesRight (d : Int) (items : List BitrateItem) : Prop :=
  ∃ rates, frameRates zeroChannels items = some rates ∧
    ∀ rate ∈ rates, rate.perSecond = 1000 / d

theorem checkedRate_eq {rc : StreamRcStatistics} {window : Window} (follows : Follows rc window) :
    checkedRate rc =
      if 40 ≤ window.frames.length then
        some ⟨window.frames.length, Window.duration window.frames⟩
      else none := by
  have count := follows.count
  by_cases enough : 40 ≤ window.frames.length
  · have full : rc.frameCnt ≥ seqNum := by unfold seqNum; omega
    obtain ⟨rc', run, after⟩ := check_follows follows
    rw [checkedRate, if_pos full, if_pos enough, run, Option.map_some, after.framerate,
      Window.check, if_pos enough]
  · have few : ¬ rc.frameCnt ≥ seqNum := by unfold seqNum; omega
    rw [checkedRate, if_neg few, if_neg enough]

theorem frameRates_snoc {g g₁ g₂ : Channels} {items : List BitrateItem} {rates : List Framerate}
    {item : BitrateItem} (run : runFrames g items = some g₁)
    (computed : frameRates g items = some rates)
    (next : cbFrame g₁ item.frameSz item.framePts = some g₂) :
    frameRates g (items ++ [item]) = some (rates ++ (checkedRate g₁[0]).toList) := by
  induction items generalizing g rates with
  | nil =>
    cases run
    cases computed
    simp [frameRates, next]
  | cons first items ih =>
    simp only [runFrames, List.foldlM_cons, Option.bind_eq_bind, Option.bind_eq_some_iff] at run
    obtain ⟨g', one, rest⟩ := run
    simp only [frameRates, one, Option.bind_eq_bind, Option.bind_some,
      Option.bind_eq_some_iff] at computed
    obtain ⟨later, behind, same⟩ := computed
    cases same
    simp only [List.cons_append, frameRates, one, Option.bind_eq_bind, Option.bind_some,
      ih rest behind, List.append_assoc]

theorem Spaced.drop {d : Int} {items : List BitrateItem} (spaced : Spaced d items) (k : Nat) :
    Spaced d (items.drop k) := by
  intro i a b here next
  rw [List.getElem?_drop] at here next
  exact spaced (k + i) a b here next

theorem Spaced.init {d : Int} {items : List BitrateItem} {item : BitrateItem}
    (spaced : Spaced d (items ++ [item])) : Spaced d items := by
  intro i a b here next
  have inside := (List.getElem?_eq_some_iff.mp next).1
  refine spaced i a b ?_ ?_
  · rw [List.getElem?_append_left (by omega), here]
  · rw [List.getElem?_append_left inside, next]

theorem Spaced.pts {d : Int} {items : List BitrateItem} (spaced : Spaced d items)
    {oldest : BitrateItem} (first : items[0]? = some oldest) (i : Nat) {item : BitrateItem}
    (here : items[i]? = some item) : item.framePts = oldest.framePts + i * d := by
  induction i generalizing item with
  | zero =>
    rw [first] at here
    cases here
    omega
  | succ i ih =>
    have inside := (List.getElem?_eq_some_iff.mp here).1
    obtain ⟨before, at_⟩ : ∃ before, items[i]? = some before :=
      ⟨_, List.getElem?_eq_getElem (show i < items.length by omega)⟩
    have step := spaced i before item at_ here
    have sofar := ih at_
    rw [step, sofar, Int.natCast_succ, Int.add_mul]
    omega

theorem Spaced.duration {d : Int} {items : List BitrateItem} (spaced : Spaced d items)
    (some_ : 0 < items.length) : Window.duration items = (items.length - 1 : Nat) * d := by
  obtain ⟨oldest, first⟩ : ∃ oldest, items[0]? = some oldest :=
    ⟨_, List.getElem?_eq_getElem some_⟩
  obtain ⟨newest, last⟩ : ∃ newest, items[items.length - 1]? = some newest :=
    ⟨_, List.getElem?_eq_getElem (by omega)⟩
  have between := spaced.pts first _ last
  rw [duration_eq (by rw [List.head?_eq_getElem?, first])
    (by rw [List.getLast?_eq_getElem?, last])]
  omega

theorem spaced_rates {d : Int} {items : List BitrateItem} (spaced : Spaced d items) :
    frameRates zeroChannels items =
      some (List.replicate (items.length - 40) ⟨40, 39 * d⟩) := by
  induction items using List.reverseRecOn with
  | nil => rfl
  | append_singleton items item ih =>
    obtain ⟨g₁, window, run, follows, held⟩ := runFrames_follows items
    obtain ⟨g₂, _, run₂, _⟩ := runFrames_follows (items ++ [item])
    have next : cbFrame g₁ item.frameSz item.framePts = some g₂ := by
      simpa [runFrames, List.foldlM_append, show List.foldlM _ _ _ = _ from run] using run₂
    have length : window.frames.length = items.length - (items.length - 40) := by
      rw [held, List.length_drop]
    rw [frameRates_snoc run (ih spaced.init) next, checkedRate_eq follows]
    by_cases enough : 40 ≤ window.frames.length
    · have forty : window.frames.length = 40 := by omega
      have spans := (spaced.init.drop (items.length - 40)).duration (by rw [← held]; omega)
      rw [← held, forty] at spans
      rw [if_pos enough, forty, spans, List.length_append, List.length_singleton,
        show items.length + 1 - 40 = items.length - 40 + 1 by omega, List.replicate_succ']
      rfl
    · rw [if_neg enough, List.length_append, List.length_singleton,
        show items.length - 40 = 0 by omega, show items.length + 1 - 40 = 0 by omega]
      rfl

theorem forty_rate (d : Int) (positive : 0 < d) :
    Framerate.perSecond ⟨40, 39 * d⟩ ≠ 1000 / d := by
  have real : (d : ℚ) ≠ 0 := by exact_mod_cast positive.ne'
  intro same
  unfold Framerate.perSecond at same
  push_cast at same
  field_simp at same
  norm_num at same

/-- The frame rates are right if and only if there is none: a stream of at most forty frames. -/
theorem ratesRight_iff (d : Int) (positive : 0 < d) (items : List BitrateItem)
    (spaced : Spaced d items) : RatesRight d items ↔ items.length ≤ 40 := by
  have computed := spaced_rates spaced
  constructor
  · rintro ⟨rates, run, right⟩
    rw [computed] at run
    cases run
    apply Classical.byContradiction
    intro long
    refine forty_rate d positive (right _ (List.mem_replicate.mpr ⟨by omega, rfl⟩))
  · intro short
    refine ⟨_, computed, ?_⟩
    rw [show items.length - 40 = 0 by omega]
    simp

def camera (frames : Nat) : List BitrateItem :=
  (List.range frames).map fun i : Nat => ⟨900, 25 * i⟩

theorem camera_spaced (frames : Nat) : Spaced 25 (camera frames) := by
  intro i a b here next
  simp only [camera, List.getElem?_map, Option.map_eq_some_iff, List.getElem?_eq_some_iff,
    List.getElem_range] at here next
  obtain ⟨_, ⟨_, rfl⟩, rfl⟩ := here
  obtain ⟨_, ⟨_, rfl⟩, rfl⟩ := next
  simp only [Int.natCast_succ]
  omega

theorem ratesRight_sample : RatesRight 25 (camera 40) :=
  (ratesRight_iff 25 (by decide) _ (camera_spaced 40)).mpr (by simp [camera])

/-- With one more, 40 frames a second are measured as 40000/975. -/
theorem one_more_wrong : ¬ RatesRight 25 (camera 41) := by
  rintro ⟨rates, run, right⟩
  rw [spaced_rates (camera_spaced 41)] at run
  cases run
  exact forty_rate 25 (by decide) (right _ (by simp [camera]))

end Bitrate
