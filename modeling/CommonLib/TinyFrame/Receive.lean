import CommonLib.TinyFrame.Progress
import CommonLib.Stream.Machine

/- What the parser reports of a stream of frames. -/
namespace TinyFrame
open Stream

def frameBytes (h : Head) (body : List UInt8) : List UInt8 :=
  h.bytes ++ h.cksum :: (if body = [] then [] else body ++ [cksumOf body])

/-! ### The frame in progress over whole frames -/

def reported (n : Nat) (p : Phase) (bytes : List UInt8) : List (Nat × Report) :=
  marks Phase.next (fun _ r => r) n p bytes

theorem reported_append (n : Nat) (p : Phase) (a b : List UInt8) :
    reported n p (a ++ b) = reported n p a ++ reported (n + a.length) (after Phase.next p a) b :=
  marks_append _ _ n p a b

theorem reported_cons (n : Nat) (p : Phase) (c : UInt8) (cs : List UInt8) :
    reported n p (c :: cs) =
      ((p.next c).2.toList.map fun r => (n, r)) ++ reported (n + 1) (p.next c).1 cs := by
  unfold reported
  rw [marks]
  cases (p.next c).2 with
  | none => rfl
  | some r => rfl

theorem gap_run (n : Nat) {gap : List UInt8} (other : sofByte ∉ gap) :
    after Phase.next .idle gap = .idle ∧ reported n .idle gap = [] := by
  induction gap generalizing n with
  | nil => exact ⟨rfl, rfl⟩
  | cons c cs ih =>
    rw [List.mem_cons, not_or] at other
    have skip : Phase.next .idle c = (.idle, none) := if_neg fun h => other.1 h.symm
    rw [after, reported_cons, skip]
    exact ih (n + 1) other.2

/-- A header without a length is reported with its last byte. -/
theorem head_run (n : Nat) (h : Head) :
    after Phase.next .idle h.bytes = (if h.len = 0 then .idle else .check h) ∧
      reported n .idle h.bytes = if h.len = 0 then [(n + 6, ⟨h, []⟩)] else [] := by
  have whole : Head.ofFields h.fields = h := h.ofFields_fields
  simp only [Head.fields, writenum16, List.cons_append, List.nil_append] at whole
  simp only [reported, Head.bytes, Head.fields, writenum16, List.cons_append, List.nil_append,
    after, marks,
    Phase.next, ↓reduceIte, List.length_cons, List.length_nil, Nat.reduceAdd, Nat.reduceLT, whole]
  by_cases empty : h.len = 0
  · simp [empty, Nat.add_assoc]
  · simp [empty]

section Body
variable (n : Nat) {h : Head} (ck : UInt8) {body rest : List UInt8}

theorem body_run (some : rest ≠ []) (full : body.length + rest.length = h.len.toNat) :
    after Phase.next (.payload h ck body) rest = .tail h ck (body ++ rest) ∧
      reported n (.payload h ck body) rest = [] := by
  induction rest generalizing n body with
  | nil => exact absurd rfl some
  | cons c cs ih =>
    rw [after, reported_cons]
    cases cs with
    | nil =>
      have last : body.length + 1 = h.len.toNat := full
      have step : Phase.next (.payload h ck body) c = (.tail h ck (body ++ [c]), none) :=
        if_pos last
      rw [step]
      exact ⟨rfl, rfl⟩
    | cons d ds =>
      have more : ¬ body.length + 1 = h.len.toNat := by
        simp only [List.length_cons] at full
        omega
      have left : (body ++ [c]).length + (d :: ds).length = h.len.toNat := by
        simp only [List.length_cons, List.length_append, List.length_nil] at full ⊢
        omega
      have step : Phase.next (.payload h ck body) c = (.payload h ck (body ++ [c]), none) :=
        if_neg more
      have run := ih (n + 1) (List.cons_ne_nil d ds) left
      rw [List.append_assoc, List.singleton_append] at run
      rw [step]
      exact run

/-- A header with a length, whatever its checksum byte: that many bytes of payload follow, and
    one checksum byte. -/
theorem frame_run (c : UInt8) (some : h.len ≠ 0) (full : body.length = h.len.toNat) :
    after Phase.next .idle (h.bytes ++ ck :: (body ++ [c])) = .idle ∧
      reported n .idle (h.bytes ++ ck :: (body ++ [c])) =
        if h.len > maxPayloadRx then [(n + 8 + body.length, ⟨h, []⟩)]
        else if c = cksumOf body then [(n + 8 + body.length, ⟨h, body⟩)] else [] := by
  have filled : body ≠ [] := by
    intro empty
    rw [empty] at full
    exact some (UInt16.toNat_inj.mp full.symm)
  obtain ⟨header, quiet⟩ := head_run n h
  rw [if_neg some] at header quiet
  have whole : ([] : List UInt8).length + body.length = h.len.toNat := by simpa using full
  obtain ⟨paid, still⟩ := body_run (n + 8) ck filled whole
  have place : n + h.bytes.length + 1 = n + 8 := rfl
  rw [after_append, reported_append, header, quiet, after, reported_cons]
  simp only [Phase.next, Option.toList_none, List.map_nil, List.nil_append, place]
  rw [after_append, reported_append, paid, still]
  simp only [List.nil_append, after, reported_cons, Phase.next]
  by_cases long : h.len > maxPayloadRx
  · simp [long, reported, marks]
  · by_cases good : c = cksumOf body
    · simp [long, good, reported, marks]
    · simp [long, good, reported, marks]

end Body

/-! ### The parser over whole frames -/

/-- The moments at which `TF_AcceptChar` returns 0, with what the instance holds then. -/
def heard (n : Nat) (tf : TinyFrame) (bytes : List UInt8) : List (Nat × Report) :=
  marks acceptChar reportOf n tf bytes

theorem heard_reported {tf : TinyFrame} {p : Phase} (n : Nat) (running : Running tf p)
    (bytes : List UInt8) : heard n tf bytes = reported n p bytes := by
  have keeps : ∀ (tf : TinyFrame) (p : Phase) (c : UInt8), Running tf p →
      Running (tf.acceptChar c).1 (p.next c).1 ∧
        reportOf (tf.acceptChar c).1 (tf.acceptChar c).2 = (p.next c).2 :=
    fun tf p c running => running.acceptChar c
  exact marks_congr acceptChar reportOf Phase.next (fun _ r => r) keeps n running bytes

theorem after_running {tf : TinyFrame} {p : Phase} (running : Running tf p) (bytes : List UInt8) :
    Running (after acceptChar tf bytes) (after Phase.next p bytes) := by
  induction bytes generalizing tf p with
  | nil => exact running
  | cons c cs ih =>
    apply ih
    exact (running.acceptChar c).1

/-- Parsers that wait for a SOF byte report alike, whatever they held before. -/
theorem heard_idle {tf tf' : TinyFrame} (n : Nat) (state : tf.state = .SOF)
    (state' : tf'.state = .SOF)
    (bytes : List UInt8) : heard n tf bytes = heard n tf' bytes := by
  rw [heard_reported n (running_idle state), heard_reported n (running_idle state')]

end TinyFrame
