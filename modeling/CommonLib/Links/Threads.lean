import Mathlib.Data.List.Chain
import Mathlib.Data.List.Nodup

/- Nodes in a circle, each with a pointer to the next and one to the previous node. The two
   pointers are read apart: a thread is a list along one pointer, and a change of the circle is
   a splice of a thread in each direction. -/
namespace Links
variable {α : Type} {f : α → Option α} {p q r x : α} {l A B X Y Z : List α}

def Threads (f : α → Option α) (l : List α) : Prop := l.IsChain fun p q => f p = some q

theorem threads_cons : Threads f (p :: q :: l) ↔ f p = some q ∧ Threads f (q :: l) :=
  List.isChain_cons_cons

theorem threads_one : Threads f [p] := List.isChain_singleton p

theorem threads_split : Threads f (A ++ p :: B) ↔ Threads f (A ++ [p]) ∧ Threads f (p :: B) :=
  List.isChain_split

theorem Threads.tail (thread : Threads f (A ++ B)) : Threads f B :=
  List.IsChain.right_of_append thread

theorem Threads.entry (thread : Threads f (p :: (Y ++ [q]))) : f p = some (Y.headD q) := by
  cases Y with
  | nil => exact (threads_cons.mp thread).1
  | cons y Y => exact (threads_cons.mp thread).1

theorem threads_entry (first : f p = some (Y.headD q)) (thread : Threads f (Y ++ [q])) :
    Threads f (p :: (Y ++ [q])) := by
  cases Y with
  | nil => exact threads_cons.mpr ⟨first, thread⟩
  | cons y Y => exact threads_cons.mpr ⟨first, thread⟩

theorem headD_reverse (l : List α) : l.reverse.headD p = l.getLastD p := by simp

theorem getLastD_reverse (l : List α) : l.reverse.getLastD p = l.headD p := by simp

section Update
variable [DecidableEq α] {v : Option α}

theorem Threads.update (thread : Threads f (Y ++ [q])) (away : p ∉ Y) :
    Threads (Function.update f p v) (Y ++ [q]) := by
  induction Y with
  | nil => exact threads_one
  | cons y Y ih =>
    rw [List.mem_cons, not_or] at away
    have next := Function.update_of_ne (Ne.symm away.1) v f
    exact threads_entry (next.trans thread.entry) (ih (Threads.tail (A := [y]) thread) away.2)

theorem Threads.lead (thread : Threads f (Y ++ [q])) (away : p ∉ Y) :
    Threads (Function.update f p (some (Y.headD q))) (p :: (Y ++ [q])) :=
  threads_entry (Function.update_self ..) (thread.update away)

/-- The thread is left behind `X` and goes on along `Y`. -/
theorem Threads.splice (front : Threads f (p :: (X ++ Z))) (back : Threads f (Y ++ [q]))
    (apart : (p :: X).Nodup) (away : ∀ y ∈ p :: X, y ∉ Y) :
    Threads (Function.update f (X.getLastD p) (some (Y.headD q))) (p :: (X ++ (Y ++ [q]))) := by
  induction X generalizing p with
  | nil => exact back.lead (away p List.mem_cons_self)
  | cons x X ih =>
    rw [List.getLastD_cons]
    obtain ⟨first, rest⟩ := threads_cons.mp front
    obtain ⟨outside, apart⟩ := List.nodup_cons.mp apart
    have inside : X.getLastD x ∈ x :: X := List.getLastD_mem_cons
    have other : p ≠ X.getLastD x := by
      intro same
      rw [← same] at inside
      exact outside inside
    have spliced := ih rest apart fun y member => away y (List.mem_cons_of_mem _ member)
    exact threads_cons.mpr ⟨(Function.update_of_ne other _ f).trans first, spliced⟩

theorem Threads.insert (thread : Threads f (p :: (X ++ (Y ++ [p])))) (apart : (p :: (X ++ Y)).Nodup)
    (fresh : x ∉ p :: (X ++ Y)) :
    Threads (Function.update (Function.update f x (some (Y.headD p))) (X.getLastD p) (some x))
      (p :: (X ++ (x :: Y ++ [p]))) := by
  have whole : Threads f ((p :: (X ++ Y)) ++ [p]) := by simpa using thread
  have front : Threads (Function.update f x (some (Y.headD p))) (p :: (X ++ (Y ++ [p]))) := by
    simpa using whole.update (v := some (Y.headD p)) fresh
  have suffix : Threads f (Y ++ [p]) := Threads.tail (A := p :: X) thread
  have back := suffix.lead (p := x) (by grind)
  exact front.splice (Y := x :: Y) back (by grind) (by grind)

theorem Threads.remove (thread : Threads f (p :: (X ++ (x :: Y ++ [p]))))
    (apart : (p :: (X ++ x :: Y)).Nodup) :
    Threads (Function.update f (X.getLastD p) (some (Y.headD p))) (p :: (X ++ (Y ++ [p]))) := by
  have suffix : Threads f (x :: Y ++ [p]) := Threads.tail (A := p :: X) thread
  exact thread.splice (Threads.tail (A := [x]) suffix) (by grind) (by grind)

theorem Threads.close (front : Threads f (p :: (X ++ Z))) (apart : (p :: X).Nodup) (q : α) :
    Threads (Function.update f (X.getLastD p) (some q)) (p :: (X ++ [q])) :=
  front.splice (Y := []) threads_one apart (by simp)

theorem Threads.append {n y : α} (front : Threads f (p :: (X ++ [p])))
    (back : Threads f (n :: (y :: Y ++ [n]))) (apart : (p :: X ++ n :: y :: Y).Nodup) :
    Threads (Function.update (Function.update f (X.getLastD p) (some y)) (Y.getLastD y) (some p))
      (p :: (X ++ (y :: Y ++ [p]))) := by
  have lastX : X.getLastD p ∈ p :: X := List.getLastD_mem_cons
  have lastY : Y.getLastD y ∈ y :: Y := List.getLastD_mem_cons
  have closed := (Threads.tail (A := [n]) back).close (by grind) p
  have whole : Threads f ((p :: X) ++ [p]) := front
  have first := whole.update (p := Y.getLastD y) (v := some p) (by grind)
  have spliced := Threads.splice (Y := y :: Y) first closed (by grind) (by grind)
  rwa [Function.update_comm (by grind)] at spliced

theorem Threads.prepend {n y : α} (front : Threads f (p :: (X ++ [p])))
    (back : Threads f (n :: (y :: Y ++ [n]))) (apart : (p :: X ++ n :: y :: Y).Nodup) :
    Threads (Function.update (Function.update f (Y.getLastD y) (some (X.headD p))) p (some y))
      (p :: (y :: Y ++ (X ++ [p]))) := by
  have rest : Threads f (X ++ [p]) := Threads.tail (A := [p]) front
  have spliced := (Threads.tail (A := [n]) back).splice rest (by grind) (by grind)
  rw [← List.append_assoc] at spliced
  have whole : Threads _ ((y :: Y ++ X) ++ [p]) := spliced
  have led := whole.lead (p := p) (by grind)
  rwa [List.append_assoc] at led

theorem Threads.keepFront {n : α} (thread : Threads f (p :: (X ++ (q :: Y ++ [p]))))
    (apart : (p :: (X ++ q :: Y)).Nodup) (fresh : n ∉ p :: (X ++ q :: Y)) :
    Threads (Function.update (Function.update (Function.update f (Y.getLastD q) (some n)) n (some q))
      (X.getLastD p) (some p)) (p :: (X ++ [p])) := by
  have lastY : Y.getLastD q ∈ q :: Y := List.getLastD_mem_cons
  have start : Threads f ((p :: X) ++ [q]) :=
    (threads_split (A := p :: X) (B := Y ++ [p]).mp thread).1
  have first := start.update (p := Y.getLastD q) (v := some n) (by grind)
  have second := first.update (p := n) (v := some q) (by grind)
  exact Threads.close (X := X) second (by grind) p

theorem Threads.moveBack {n : α} (thread : Threads f (p :: (X ++ (q :: Y ++ [p]))))
    (apart : (p :: (X ++ q :: Y)).Nodup) (fresh : n ∉ p :: (X ++ q :: Y)) :
    Threads (Function.update (Function.update (Function.update f (Y.getLastD q) (some n)) n (some q))
      (X.getLastD p) (some p)) (n :: (q :: Y ++ [n])) := by
  have lastX : X.getLastD p ∈ p :: X := List.getLastD_mem_cons
  have suffix : Threads f (q :: (Y ++ [p])) := Threads.tail (A := p :: X) thread
  have closed : Threads _ ((q :: Y) ++ [n]) := suffix.close (by grind) n
  have led := closed.lead (p := n) (by grind)
  have whole : Threads _ ((n :: q :: Y) ++ [n]) := led
  exact whole.update (by grind)

theorem Threads.keepBack {n : α} (thread : Threads f (p :: (Y ++ (q :: X ++ [p]))))
    (apart : (p :: (Y ++ q :: X)).Nodup) (fresh : n ∉ p :: (Y ++ q :: X)) :
    Threads (Function.update (Function.update (Function.update f n (some (Y.headD q))) p
      (some (X.headD p))) q (some n)) (p :: (X ++ [p])) := by
  have suffix : Threads f (q :: X ++ [p]) := Threads.tail (A := p :: Y) thread
  have rest : Threads f (X ++ [p]) := Threads.tail (A := [q]) suffix
  have led := (rest.update (p := n) (v := some (Y.headD q)) (by grind)).lead (p := p) (by grind)
  have whole : Threads _ ((p :: X) ++ [p]) := led
  exact whole.update (by grind)

theorem Threads.moveFront {n : α} (thread : Threads f (p :: (Y ++ (q :: X ++ [p]))))
    (apart : (p :: (Y ++ q :: X)).Nodup) (fresh : n ∉ p :: (Y ++ q :: X)) :
    Threads (Function.update (Function.update (Function.update f n (some (Y.headD q))) p
      (some (X.headD p))) q (some n)) (n :: (Y ++ [q] ++ [n])) := by
  have start : Threads f ((p :: Y) ++ [q]) :=
    (threads_split (A := p :: Y) (B := X ++ [p]).mp thread).1
  have rest : Threads f (Y ++ [q]) := Threads.tail (A := [p]) start
  have whole : Threads _ ((n :: Y) ++ [q]) := rest.lead (p := n) (by grind)
  have framed := whole.update (p := p) (v := some (X.headD p)) (by grind)
  rw [← List.append_nil (n :: Y ++ [q])] at framed
  have closed := Threads.close (X := Y ++ [q]) framed (by grind) n
  rwa [List.getLastD_concat] at closed

end Update

/-! ### Both directions -/

structure Circle (next prev : α → Option α) (h : α) (xs : List α) : Prop where
  forth : Threads next (h :: (xs ++ [h]))
  back : Threads prev (h :: (xs.reverse ++ [h]))
  apart : (h :: xs).Nodup

section Circle
variable {next prev : α → Option α} {h : α} {xs : List α}

theorem Circle.flip (circle : Circle next prev h xs) : Circle prev next h xs.reverse where
  forth := circle.back
  back := by simpa using circle.forth
  apart := by simpa using circle.apart

theorem Circle.head (circle : Circle next prev h xs) : next h = some (xs.headD h) :=
  circle.forth.entry

theorem Circle.last (circle : Circle next prev h xs) : prev h = some (xs.getLastD h) := by
  rw [← headD_reverse]
  exact circle.flip.head

theorem Circle.after (circle : Circle next prev h (X ++ x :: Y)) : next x = some (Y.headD h) := by
  have thread := circle.forth
  rw [List.append_assoc] at thread
  exact Threads.entry (Threads.tail (A := h :: X) thread)

theorem Circle.before (circle : Circle next prev h (X ++ x :: Y)) :
    prev x = some (X.getLastD h) := by
  have flipped := circle.flip
  rw [List.reverse_append, List.reverse_cons, List.append_assoc] at flipped
  rw [← headD_reverse]
  exact flipped.after

theorem Circle.link (circle : Circle next prev h (X ++ Y)) :
    next (X.getLastD h) = some (Y.headD h) := by
  obtain rfl | ⟨Z, z, rfl⟩ := X.eq_nil_or_concat
  · exact circle.head
  · rw [List.concat_eq_append, List.append_assoc] at circle
    rw [List.concat_eq_append, List.getLastD_concat]
    exact circle.after

theorem Circle.linkBack (circle : Circle next prev h (X ++ Y)) :
    prev (Y.headD h) = some (X.getLastD h) := by
  have flipped := circle.flip
  rw [List.reverse_append] at flipped
  rw [← headD_reverse, ← getLastD_reverse]
  exact flipped.link

variable [DecidableEq α]

theorem Circle.insert (circle : Circle next prev h (X ++ Y)) (fresh : x ∉ h :: (X ++ Y)) :
    Circle (Function.update (Function.update next x (some (Y.headD h))) (X.getLastD h) (some x))
      (Function.update (Function.update prev x (some (X.getLastD h))) (Y.headD h) (some x))
      h (X ++ x :: Y) where
  forth := by
    have thread := circle.forth
    rw [List.append_assoc] at thread
    simpa only [List.append_assoc] using thread.insert circle.apart fresh
  back := by
    have thread := circle.back
    rw [List.reverse_append, List.append_assoc] at thread
    have added := thread.insert (x := x) (by simpa using circle.flip.apart) (by grind)
    rw [headD_reverse, getLastD_reverse] at added
    simpa using added
  apart := by
    have around : (h :: X ++ x :: Y).Nodup :=
      List.nodup_middle.mpr (List.nodup_cons.mpr ⟨fresh, circle.apart⟩)
    exact around

theorem Circle.remove (circle : Circle next prev h (X ++ x :: Y)) :
    Circle (Function.update next (X.getLastD h) (some (Y.headD h)))
      (Function.update prev (Y.headD h) (some (X.getLastD h))) h (X ++ Y) where
  forth := by
    have thread := circle.forth
    rw [List.append_assoc] at thread
    simpa only [List.append_assoc] using thread.remove circle.apart
  back := by
    have thread := circle.back
    rw [List.reverse_append, List.reverse_cons, List.append_assoc, List.append_assoc] at thread
    have less := Threads.remove (X := Y.reverse) (x := x) (Y := X.reverse) thread
      (by simpa using circle.flip.apart)
    rw [headD_reverse, getLastD_reverse] at less
    simpa using less
  apart := by
    have around : (h :: X ++ x :: Y).Nodup := circle.apart
    exact (List.nodup_cons.mp (List.nodup_middle.mp around)).2

section Two
variable {n y : α}

/-- The circle cut in two, in front of `q`. -/
theorem Circle.split (circle : Circle next prev h (X ++ q :: Y)) (fresh : n ∉ h :: (X ++ q :: Y)) :
    let forth := Function.update (Function.update (Function.update next (Y.getLastD q) (some n)) n
      (some q)) (X.getLastD h) (some h)
    let back := Function.update (Function.update (Function.update prev n (some (Y.getLastD q))) h
      (some (X.getLastD h))) q (some n)
    Circle forth back h X ∧ Circle forth back n (q :: Y) := by
  intro forth back
  have thread := circle.forth
  rw [List.append_assoc] at thread
  have thread' := circle.back
  rw [List.reverse_append, List.reverse_cons, List.append_assoc, List.append_assoc] at thread'
  have apart := circle.apart
  have apart' : (h :: (Y.reverse ++ q :: X.reverse)).Nodup := by simpa using circle.flip.apart
  have fresh' : n ∉ h :: (Y.reverse ++ q :: X.reverse) := by grind
  have kept := Threads.keepBack (X := X.reverse) (Y := Y.reverse) thread' apart' fresh'
  have moved := Threads.moveFront (X := X.reverse) (Y := Y.reverse) thread' apart' fresh'
  rw [headD_reverse, headD_reverse] at kept moved
  rw [← List.reverse_cons] at moved
  exact ⟨⟨thread.keepFront apart fresh, kept, by grind⟩,
    ⟨thread.moveBack apart fresh, moved, by grind⟩⟩

theorem Circle.append (circle : Circle next prev h X) (other : Circle next prev n (y :: Y))
    (apart : (h :: X ++ n :: y :: Y).Nodup) :
    Circle (Function.update (Function.update next (X.getLastD h) (some y)) (Y.getLastD y) (some h))
      (Function.update (Function.update prev y (some (X.getLastD h))) h (some (Y.getLastD y)))
      h (X ++ y :: Y) where
  forth := by
    have thread := circle.forth.append other.forth apart
    rwa [← List.append_assoc] at thread
  back := by
    have whole := other.back
    obtain ⟨z, Z, same⟩ : ∃ z Z, (y :: Y).reverse = z :: Z :=
      List.exists_cons_of_ne_nil (by simp)
    have head : z = Y.getLastD y := by
      have first := congrArg (fun l => l.headD y) same
      rw [headD_reverse, List.getLastD_cons] at first
      exact first.symm
    have final : Z.getLastD z = y := by
      have last := congrArg (fun l => l.getLastD y) same
      rw [getLastD_reverse, List.getLastD_cons] at last
      exact last.symm
    have apart' : (h :: X.reverse ++ n :: z :: Z).Nodup := by
      rw [← same]
      have turned := (List.reverse_perm X).append ((List.reverse_perm (y :: Y)).cons n)
      exact (turned.cons h).nodup_iff.mpr apart
    rw [same] at whole
    have thread := circle.back.prepend whole apart'
    rw [final, headD_reverse, ← List.append_assoc, ← same, head] at thread
    rwa [List.reverse_append]
  apart := by grind

end Two

end Circle
end Links
