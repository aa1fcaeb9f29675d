import Mathlib.Order.WithBot
import Mathlib.Data.List.Basic
import Mathlib.Data.List.Pairwise
import Mathlib.Data.List.Forall2

/- The levels of a multiway search tree whose nodes keep decreasing keys, each key a
   lower bound of the child beside it. A node of a level covers the keys of a span,
   and its entries divide that span among its children. -/
namespace OrderedTree
variable {κ α : Type}

structure Span (κ α : Type) where
  low : κ
  node : α
  high : WithTop κ

abbrev Page (κ α : Type) := Span κ α × List (κ × α)

abbrev Row (κ α : Type) := List (Page κ α)

def cut : WithTop κ → List (κ × α) → WithTop κ
  | high, [] => high
  | _, e :: es => cut e.1 es

def spans : WithTop κ → List (κ × α) → List (Span κ α)
  | _, [] => []
  | high, e :: es => ⟨e.1, e.2, high⟩ :: spans e.1 es

def below (r : Row κ α) : List (Span κ α) := r.flatMap fun p => spans p.1.high p.2

def rowEntries (r : Row κ α) : List (κ × α) := r.flatMap Prod.snd

@[simp] theorem below_nil : below ([] : Row κ α) = [] := rfl
@[simp] theorem below_cons (p : Page κ α) (r : Row κ α) :
    below (p :: r) = spans p.1.high p.2 ++ below r := rfl
@[simp] theorem below_append (r t : Row κ α) : below (r ++ t) = below r ++ below t := by
  unfold below
  exact List.flatMap_append

@[simp] theorem rowEntries_cons (p : Page κ α) (r : Row κ α) :
    rowEntries (p :: r) = p.2 ++ rowEntries r := rfl
@[simp] theorem rowEntries_append (r t : Row κ α) :
    rowEntries (r ++ t) = rowEntries r ++ rowEntries t := by
  unfold rowEntries
  exact List.flatMap_append

theorem spans_append (high : WithTop κ) (es fs : List (κ × α)) :
    spans high (es ++ fs) = spans high es ++ spans (cut high es) fs := by
  induction es generalizing high with
  | nil => rfl
  | cons e es ih => simp only [List.cons_append, spans, cut, ih]

theorem cut_append (high : WithTop κ) (es fs : List (κ × α)) :
    cut high (es ++ fs) = cut (cut high es) fs := by
  induction es generalizing high with
  | nil => rfl
  | cons e es ih => simp only [List.cons_append, cut, ih]

theorem cut_last (high : WithTop κ) (es : List (κ × α)) (e : κ × α) :
    cut high (es ++ [e]) = e.1 := by
  rw [cut_append]
  rfl

theorem spans_divided (high : WithTop κ) (es : List (κ × α)) (m : κ × α) (fs : List (κ × α)) :
    spans high (es ++ m :: fs) = spans high (es ++ [m]) ++ spans m.1 fs := by
  rw [List.append_cons, spans_append, cut_last]

theorem spans_entries (high : WithTop κ) (es : List (κ × α)) :
    (spans high es).map (fun s => (s.low, s.node)) = es := by
  induction es generalizing high with
  | nil => rfl
  | cons e es ih => simp only [spans, List.map_cons, ih]

theorem below_entries (r : Row κ α) : (below r).map (fun s => (s.low, s.node)) = rowEntries r := by
  induction r with
  | nil => rfl
  | cons p r ih => rw [below_cons, List.map_append, spans_entries, ih, rowEntries_cons]

theorem below_focus (A B : Row κ α) (t : Span κ α) (E F : List (κ × α)) (e : κ × α) :
    below (A ++ (t, E ++ e :: F) :: B) =
      (below A ++ spans t.high E) ++ ⟨e.1, e.2, cut t.high E⟩ :: (spans e.1 F ++ below B) := by
  rw [below_append, below_cons, spans_append, spans]
  simp only [List.append_assoc, List.cons_append]

section Order
variable [LinearOrder κ]

structure PageOk (p : Page κ α) : Prop where
  sorted : p.2.Pairwise fun e f => f.1 < e.1
  low : ∀ e ∈ p.2, p.1.low ≤ e.1
  high : ∀ e ∈ p.2, (e.1 : WithTop κ) < p.1.high

def Apart (S : List (Span κ α)) : Prop := S.Pairwise fun s t => t.high ≤ s.low

def Looser : List (Span κ α) → List (Span κ α) → Prop :=
  List.Forall₂ fun s t => t.node = s.node ∧ t.low ≤ s.low ∧ s.high ≤ t.high

theorem Looser.refl (S : List (Span κ α)) : Looser S S := by
  induction S with
  | nil => exact .nil
  | cons s S ih => exact .cons ⟨rfl, le_rfl, le_rfl⟩ ih

theorem Looser.trans {S T U : List (Span κ α)} (first : Looser S T) (second : Looser T U) :
    Looser S U := by
  induction first generalizing U with
  | nil => exact second
  | cons here rest ih =>
    cases second with
    | cons here' rest' =>
      exact .cons ⟨here'.1.trans here.1, here'.2.1.trans here.2.1,
        here.2.2.trans here'.2.2⟩ (ih rest')

theorem Looser.append {S S' T T' : List (Span κ α)} (left : Looser S S') (right : Looser T T') :
    Looser (S ++ T) (S' ++ T') := by
  induction left with
  | nil => exact right
  | cons here rest ih => exact .cons here ih

theorem Looser.split {S T U : List (Span κ α)} (looser : Looser (S ++ T) U) :
    ∃ S' T', U = S' ++ T' ∧ Looser S S' ∧ Looser T T' := by
  induction S generalizing U with
  | nil => exact ⟨[], U, rfl, .nil, looser⟩
  | cons s S ih =>
    cases looser with
    | cons here rest =>
      obtain ⟨S', T', rfl, left, right⟩ := ih rest
      exact ⟨_ :: S', T', rfl, .cons here left, right⟩

theorem cut_le (high : WithTop κ) {es : List (κ × α)} (sorted : es.Pairwise fun e f => f.1 < e.1)
    (bound : ∀ e ∈ es, (e.1 : WithTop κ) < high) : cut high es ≤ high := by
  induction es generalizing high with
  | nil => exact le_rfl
  | cons e es ih =>
    have rest := List.pairwise_cons.mp sorted
    have step := ih e.1 rest.2 fun f hf => WithTop.coe_lt_coe.mpr (rest.1 f hf)
    exact step.trans (bound e List.mem_cons_self).le

theorem lt_cut {high : WithTop κ} {es : List (κ × α)} {k : κ} (under : (k : WithTop κ) < high)
    (above : ∀ e ∈ es, k < e.1) : (k : WithTop κ) < cut high es := by
  induction es generalizing high with
  | nil => exact under
  | cons e es ih =>
    have here := WithTop.coe_lt_coe.mpr (above e List.mem_cons_self)
    exact ih here fun f hf => above f (List.mem_cons_of_mem _ hf)

theorem lt_of_cut {high : WithTop κ} {es : List (κ × α)} {k : κ}
    (sorted : es.Pairwise fun e f => f.1 < e.1)
    (under : (k : WithTop κ) < cut high es) : ∀ e ∈ es, k < e.1 := by
  induction es generalizing high with
  | nil => exact fun e he => absurd he List.not_mem_nil
  | cons e es ih =>
    have rest := List.pairwise_cons.mp sorted
    intro x hx
    rcases List.mem_cons.mp hx with rfl | hx
    · have le := cut_le (x.1 : WithTop κ) rest.2 fun f hf => WithTop.coe_lt_coe.mpr (rest.1 f hf)
      exact WithTop.coe_lt_coe.mp (under.trans_le le)
    · exact ih rest.2 under x hx

theorem le_cut {high low : WithTop κ} {es : List (κ × α)} (under : low ≤ high)
    (above : ∀ e ∈ es, low ≤ (e.1 : WithTop κ)) : low ≤ cut high es := by
  induction es generalizing high with
  | nil => exact under
  | cons e es ih =>
    exact ih (above e List.mem_cons_self) fun f hf => above f (List.mem_cons_of_mem _ hf)

theorem spans_looser {high high' : WithTop κ} (le : high ≤ high') (es : List (κ × α)) :
    Looser (spans high es) (spans high' es) := by
  cases es with
  | nil => exact .nil
  | cons e es => exact .cons ⟨rfl, le_rfl, le⟩ (Looser.refl _)

/-- Two nodes side by side leave no more room than one node with both their entries. -/
theorem spans_seam {high mid : WithTop κ} {es : List (κ × α)} (le : mid ≤ cut high es)
    (fs : List (κ × α)) : Looser (spans high es ++ spans mid fs) (spans high (es ++ fs)) := by
  rw [spans_append]
  exact .append (.refl _) (spans_looser le fs)

theorem spans_bounds (high : WithTop κ) {low : κ} {es : List (κ × α)}
    (sorted : es.Pairwise fun e f => f.1 < e.1) (bound : ∀ e ∈ es, (e.1 : WithTop κ) < high)
    (lower : ∀ e ∈ es, low ≤ e.1) :
    Apart (spans high es) ∧ ∀ s ∈ spans high es, low ≤ s.low ∧ (s.low : WithTop κ) < s.high ∧
        s.high ≤ high := by
  induction es generalizing high with
  | nil => exact ⟨.nil, by simp [spans]⟩
  | cons e es ih =>
    have rest := List.pairwise_cons.mp sorted
    have here := bound e List.mem_cons_self
    obtain ⟨apart, inside⟩ := ih e.1 rest.2
      (fun f hf => WithTop.coe_lt_coe.mpr (rest.1 f hf)) fun f hf => lower f
      (List.mem_cons_of_mem _ hf)
    constructor
    · exact List.pairwise_cons.mpr ⟨fun s hs => (inside s hs).2.2, apart⟩
    · intro s hs
      rcases List.mem_cons.mp hs with rfl | hs
      · exact ⟨lower e List.mem_cons_self, here, le_rfl⟩
      · obtain ⟨low, proper, high⟩ := inside s hs
        exact ⟨low, proper, high.trans here.le⟩

theorem PageOk.spans {p : Page κ α} (ok : PageOk p) :
    Apart (OrderedTree.spans p.1.high p.2) ∧ ∀ s ∈ OrderedTree.spans p.1.high p.2,
      p.1.low ≤ s.low ∧ (s.low : WithTop κ) < s.high ∧ s.high ≤ p.1.high :=
  spans_bounds _ ok.sorted ok.high ok.low

theorem apart_below {r : Row κ α} (apart : Apart (r.map Prod.fst)) (ok : ∀ p ∈ r, PageOk p) :
    Apart (below r) := by
  induction r with
  | nil => exact .nil
  | cons p r ih =>
    obtain ⟨here, rest⟩ := List.pairwise_cons.mp apart
    have okp := (ok p List.mem_cons_self).spans
    have okr := fun q hq => ok q (List.mem_cons_of_mem p hq)
    rw [below_cons]
    refine List.pairwise_append.mpr ⟨okp.1, ih rest okr, fun s hs t ht => ?_⟩
    obtain ⟨q, hq, ht⟩ := List.mem_flatMap.mp ht
    have inside := ((okr q hq).spans.2 t ht).2.2
    have between := here q.1 (List.mem_map_of_mem hq)
    have low := (okp.2 s hs).1
    exact (inside.trans between).trans (WithTop.coe_le_coe.mpr low)

theorem rowEntries_sorted {r : Row κ α} (apart : Apart (r.map Prod.fst)) (ok : ∀ p ∈ r, PageOk p) :
    (rowEntries r).Pairwise fun e f => f.1 < e.1 := by
  induction r with
  | nil => exact .nil
  | cons p r ih =>
    obtain ⟨here, rest⟩ := List.pairwise_cons.mp apart
    have okp := ok p List.mem_cons_self
    have okr := fun q hq => ok q (List.mem_cons_of_mem p hq)
    rw [rowEntries_cons]
    refine List.pairwise_append.mpr ⟨okp.sorted, ih rest okr, fun e he f hf => ?_⟩
    obtain ⟨q, hq, hf⟩ := List.mem_flatMap.mp hf
    have between := here q.1 (List.mem_map_of_mem hq)
    have low := WithTop.coe_le_coe.mpr (okp.low e he)
    exact WithTop.coe_lt_coe.mp (((okr q hq).high f hf).trans_le (between.trans low))

theorem exists_cut {es : List (κ × α)} (sorted : es.Pairwise fun e f => f.1 < e.1) (k : κ) :
    ∃ E F, es = E ++ F ∧ (∀ e ∈ E, k < e.1) ∧ ∀ e ∈ F, e.1 ≤ k := by
  induction es with
  | nil => exact ⟨[], [], rfl, by simp, by simp⟩
  | cons e es ih =>
    have rest := List.pairwise_cons.mp sorted
    by_cases above : k < e.1
    · obtain ⟨E, F, rfl, hE, hF⟩ := ih rest.2
      refine ⟨e :: E, F, rfl, ?_, hF⟩
      intro x hx
      rcases List.mem_cons.mp hx with rfl | hx
      · exact above
      · exact hE x hx
    · refine ⟨[], e :: es, rfl, by simp, ?_⟩
      intro x hx
      rcases List.mem_cons.mp hx with rfl | hx
      · exact not_lt.mp above
      · exact (rest.1 x hx).le.trans (not_lt.mp above)

theorem apart_cover {S T S' T' : List (Span κ α)} {s t : Span κ α} {k : κ}
    (apart : Apart (S ++ s :: T)) (same : S ++ s :: T = S' ++ t :: T') (lowS : s.low ≤ k)
    (highS : (k : WithTop κ) < s.high) (lowT : t.low ≤ k) (highT : (k : WithTop κ) < t.high) :
    S = S' ∧ s = t ∧ T = T' := by
  have apart_of_cover {x y : Span κ α} (low : x.low ≤ k) (high : (k : WithTop κ) < y.high) :
      ¬ y.high ≤ x.low := fun le =>
    absurd (high.trans_le (le.trans (WithTop.coe_le_coe.mpr low))) (lt_irrefl _)
  induction S generalizing S' with
  | nil =>
    cases S' with
    | nil =>
      obtain ⟨rfl, rfl⟩ := List.cons.inj same
      exact ⟨rfl, rfl, rfl⟩
    | cons x S' =>
      obtain ⟨rfl, rfl⟩ := List.cons.inj same
      have here := (List.pairwise_cons.mp apart).1 t (by simp)
      exact absurd here (apart_of_cover lowS highT)
  | cons x S ih =>
    obtain ⟨here, rest⟩ := List.pairwise_cons.mp apart
    cases S' with
    | nil =>
      obtain ⟨rfl, rfl⟩ := List.cons.inj same
      exact absurd (here s (by simp)) (apart_of_cover lowT highS)
    | cons y S' =>
      obtain ⟨rfl, tail⟩ := List.cons.inj same
      obtain ⟨rfl, rfl, rfl⟩ := ih rest tail
      exact ⟨rfl, rfl, rfl⟩

theorem apart_lowered {S T S' T' : List (Span κ α)} {s t : Span κ α} {k : κ}
    (apart : Apart (S ++ ⟨min s.low k, s.node, s.high⟩ :: T)) (same : S ++ s :: T = S' ++ t :: T')
    (highS : (k : WithTop κ) < s.high) (lowT : t.low ≤ k ∨ T' = [])
    (highT : (k : WithTop κ) < t.high) :
    S = S' ∧ s = t ∧ T = T' := by
  obtain ⟨_, right, across⟩ := List.pairwise_append.mp apart
  have after := (List.pairwise_cons.mp right).1
  rcases List.append_eq_append_iff.mp same with ⟨M, left, rest⟩ | ⟨M, left, rest⟩
  · cases M with
    | nil =>
      obtain ⟨rfl, rfl⟩ := List.cons.inj rest
      exact ⟨by rw [left, List.append_nil], rfl, rfl⟩
    | cons x M =>
      obtain ⟨rfl, rfl⟩ := List.cons.inj rest
      have le := after t (by simp)
      have low : ((min s.low k : κ) : WithTop κ) ≤ k := WithTop.coe_le_coe.mpr (min_le_right _ _)
      exact absurd (highT.trans_le (le.trans low)) (lt_irrefl _)
  · cases M with
    | nil =>
      obtain ⟨rfl, rfl⟩ := List.cons.inj rest
      exact ⟨by rw [left, List.append_nil], rfl, rfl⟩
    | cons x M =>
      obtain ⟨rfl, rfl⟩ := List.cons.inj rest
      have lowT := lowT.resolve_right (by simp)
      have le := across t (by simp [left]) _ List.mem_cons_self
      exact absurd (highS.trans_le (le.trans (WithTop.coe_le_coe.mpr lowT))) (lt_irrefl _)

theorem cut_unique {E F E' F' : List (κ × α)} {k : κ} (same : E ++ F = E' ++ F')
    (aboveE : ∀ e ∈ E, k < e.1)
    (aboveE' : ∀ e ∈ E', k < e.1) (restF : ∀ e ∈ F, e.1 ≤ k) (restF' : ∀ e ∈ F', e.1 ≤ k) :
    E = E' ∧ F = F' := by
  rcases List.append_eq_append_iff.mp same with ⟨M, left, right⟩ | ⟨M, left, right⟩
  · cases M with
    | nil => exact ⟨by rw [left, List.append_nil], right⟩
    | cons x M => exact absurd (restF x (by simp [right])) (aboveE' x (by simp [left])).not_ge
  · cases M with
    | nil => exact ⟨by rw [left, List.append_nil], right.symm⟩
    | cons x M => exact absurd (restF' x (by simp [right])) (aboveE x (by simp [left])).not_ge

theorem parent_focus {u : Row κ α} {S T : List (Span κ α)} {s : Span κ α} {key : κ}
    (below_ : below u = S ++ s :: T) (apart : Apart (below u)) (ok : ∀ p ∈ u, PageOk p)
    (low : s.low ≤ key) (high : (key : WithTop κ) < s.high) :
    ∃ Au sp E F Bu, u = Au ++ (sp, E ++ (s.low, s.node) :: F) :: Bu ∧ s.high = cut sp.high E ∧
      S = below Au ++ spans sp.high E ∧ T = spans s.low F ++ below Bu ∧
      sp.low ≤ key ∧ (key : WithTop κ) < sp.high ∧ ∀ x ∈ E, key < x.1 := by
  obtain ⟨p, hp, hs⟩ := List.mem_flatMap.mp (below_ ▸ List.mem_append_right S List.mem_cons_self)
  obtain ⟨Au, Bu, rfl⟩ := List.append_of_mem hp
  obtain ⟨sp, es⟩ := p
  have okp := ok _ hp
  obtain ⟨E, F, rfl, above, rest⟩ := exists_cut okp.sorted key
  have inside := okp.spans.2 s hs
  have under : (key : WithTop κ) < sp.high := high.trans_le inside.2.2
  -- the parent has an entry at or below the key, since the child's own entry is one
  have some : F ≠ [] := by
    rintro rfl
    have entry : (s.low, s.node) ∈ E ++ [] := by
      have mem := List.mem_map_of_mem (f := fun t : Span κ α => (t.low, t.node)) hs
      rwa [spans_entries] at mem
    rw [List.append_nil] at entry
    exact absurd low (above _ entry).not_ge
  obtain ⟨e, F, rfl⟩ := List.exists_cons_of_ne_nil some
  rw [below_focus] at below_ apart
  obtain ⟨left, here, right⟩ := apart_cover apart below_ (rest e List.mem_cons_self)
    (lt_cut under above) low high
  refine ⟨Au, sp, E, F, Bu, ?_, ?_, left.symm, ?_, inside.1.trans low, under, above⟩
  · rw [← here]
  · rw [← here]
  · rw [← right, ← here]

/-- The span that covers `k` is parted there, and `v` takes the upper part. -/
def Parted (k : κ) (v : α) (S S' : List (Span κ α)) : Prop :=
  ∀ S1 s T, S = S1 ++ s :: T → s.low < k → (k : WithTop κ) < s.high →
    ∃ S1' high low T', S' = S1' ++ ⟨k, v, high⟩ :: ⟨low, s.node, k⟩ :: T' ∧ Looser S1 S1' ∧
      s.high ≤ high ∧ low ≤ s.low ∧ Looser T T'

theorem Parted.of_looser {k : κ} {v : α} {S S1 S' : List (Span κ α)} (looser : Looser S S1)
    (parted : Parted k v S1 S') : Parted k v S S' := by
  intro P s T eq low high
  rw [eq] at looser
  obtain ⟨P1, Q, rfl, left, rest⟩ := looser.split
  cases rest with
  | @cons _ s1 _ T1 here rest =>
    obtain ⟨node, low1, high1⟩ := here
    obtain ⟨P', high', low', T', eq', left', le_high, le_low, right'⟩ :=
      parted P1 s1 T1 rfl (low1.trans_lt low) (high.trans_le high1)
    rw [node] at eq'
    exact ⟨P', high', low', T', eq', left.trans left', high1.trans le_high, le_low.trans low1,
      Looser.trans rest right'⟩

/-- An entry put into the page that covers its key parts the span below. -/
theorem Parted.insert {A B : Row κ α} {s : Span κ α} {E F : List (κ × α)} {k : κ} (v : α)
    (apart : Apart ((A ++ (s, E ++ F) :: B).map Prod.fst))
    (ok : ∀ p ∈ A ++ (s, E ++ F) :: B, PageOk p)
    (low : s.low ≤ k) (high : (k : WithTop κ) < s.high) (above : ∀ e ∈ E, k < e.1)
    (next : ∀ e ∈ F, e.1 < k) :
    Parted k v (below (A ++ (s, E ++ F) :: B)) (below (A ++ (s, E ++ (k, v) :: F) :: B)) := by
  intro S x T eq lowx highx
  obtain ⟨A', s', E', F', B', row, bound, rfl, rfl, low', high', above'⟩ :=
    parent_focus eq (apart_below apart ok) ok lowx.le highx
  have spans_ := congrArg (List.map Prod.fst) row
  simp only [List.map_append, List.map_cons] at spans_ apart
  obtain ⟨left, rfl, _⟩ := apart_cover apart spans_ low high low' high'
  have lengths := congrArg List.length left
  rw [List.length_map, List.length_map] at lengths
  obtain ⟨rfl, rest⟩ := List.append_inj row lengths
  obtain ⟨page, rfl⟩ := List.cons.inj rest
  have sorted := (ok (s, E ++ F) (by simp)).sorted
  rw [(Prod.mk.inj page).2] at sorted
  obtain ⟨after, _⟩ := List.pairwise_cons.mp (List.pairwise_append.mp sorted).2.1
  have rest' : ∀ e ∈ (x.low, x.node) :: F', e.1 ≤ k := by
    intro e he
    rcases List.mem_cons.mp he with rfl | he
    · exact lowx.le
    · exact ((after e he).trans lowx).le
  obtain ⟨rfl, rfl⟩ := cut_unique (Prod.mk.inj page).2 above above'
    (fun e he => (next e he).le) rest'
  refine ⟨_, cut s.high E, x.low, _, ?_, .refl _, bound.le, le_rfl, .refl _⟩
  rw [below_focus]
  rfl

theorem PageOk.sublist {s : Span κ α} {es fs : List (κ × α)} (ok : PageOk (s, es))
    (sub : fs.Sublist es) :
    PageOk (s, fs) where
  sorted := ok.sorted.sublist sub
  low e he := ok.low e (sub.subset he)
  high e he := ok.high e (sub.subset he)

theorem PageOk.keys {s : Span κ α} {es fs : List (κ × α)} (ok : PageOk (s, es))
    (same : fs.map Prod.fst = es.map Prod.fst) : PageOk (s, fs) := by
  have entry : ∀ e ∈ fs, ∃ x ∈ es, x.1 = e.1 := by
    intro e he
    have mem := List.mem_map_of_mem (f := Prod.fst) he
    rw [same] at mem
    exact List.mem_map.mp mem
  refine ⟨?_, ?_, ?_⟩
  · have sorted : (es.map Prod.fst).Pairwise fun a b => b < a := List.pairwise_map.mpr ok.sorted
    rw [← same] at sorted
    exact List.pairwise_map.mp sorted
  · intro e he
    obtain ⟨x, hx, eq⟩ := entry e he
    exact eq ▸ ok.low x hx
  · intro e he
    obtain ⟨x, hx, eq⟩ := entry e he
    exact eq ▸ ok.high x hx

theorem PageOk.insert {s : Span κ α} {E F : List (κ × α)} {k : κ} (ok : PageOk (s, E ++ F)) (v : α)
    (above : ∀ e ∈ E, k < e.1) (high : (k : WithTop κ) < s.high) (low : s.low ≤ k)
    (next : ∀ f ∈ F, f.1 < k) : PageOk (s, E ++ (k, v) :: F) := by
  obtain ⟨sorted, lower, upper⟩ := ok
  obtain ⟨sortedE, sortedF, across⟩ := List.pairwise_append.mp sorted
  refine ⟨?_, ?_, ?_⟩
  · refine List.pairwise_append.mpr ⟨sortedE, List.pairwise_cons.mpr ⟨next, sortedF⟩, ?_⟩
    intro x hx y hy
    rcases List.mem_cons.mp hy with rfl | hy
    · exact above x hx
    · exact across x hx y hy
  · intro x hx
    rcases List.mem_append.mp hx with hx | hx
    · exact lower x (List.mem_append_left _ hx)
    · rcases List.mem_cons.mp hx with rfl | hx
      · exact low
      · exact lower x (List.mem_append_right _ hx)
  · intro x hx
    rcases List.mem_append.mp hx with hx | hx
    · exact upper x (List.mem_append_left _ hx)
    · rcases List.mem_cons.mp hx with rfl | hx
      · exact high
      · exact upper x (List.mem_append_right _ hx)

theorem PageOk.join {low mid : κ} {high : WithTop κ} {a b : α} {L R : List (κ × α)}
    (left : PageOk (⟨mid, a, high⟩, L)) (right : PageOk (⟨low, b, mid⟩, R))
    (le : (mid : WithTop κ) ≤ high)
    (lower : low ≤ mid) (c : α) : PageOk (⟨low, c, high⟩, L ++ R) where
  sorted := by
    refine List.pairwise_append.mpr ⟨left.sorted, right.sorted, fun e he f hf => ?_⟩
    exact WithTop.coe_lt_coe.mp ((right.high f hf).trans_le
      (WithTop.coe_le_coe.mpr (left.low e he)))
  low e he := by
    rcases List.mem_append.mp he with he | he
    · exact lower.trans (left.low e he)
    · exact right.low e he
  high e he := by
    rcases List.mem_append.mp he with he | he
    · exact left.high e he
    · exact (right.high e he).trans_le le

theorem PageOk.split {low : κ} {high : WithTop κ} {a : α} {L R : List (κ × α)} {m : κ × α}
    (ok : PageOk (⟨low, a, high⟩, L ++ m :: R)) (b c : α) :
    PageOk (⟨m.1, b, high⟩, L ++ [m]) ∧ PageOk (⟨low, c, m.1⟩, R) := by
  obtain ⟨sorted, lower, upper⟩ := ok
  obtain ⟨sortedL, sortedR, across⟩ := List.pairwise_append.mp sorted
  obtain ⟨after, sortedR⟩ := List.pairwise_cons.mp sortedR
  constructor
  · refine ⟨?_, ?_, ?_⟩
    · refine List.pairwise_append.mpr ⟨sortedL, List.pairwise_singleton _ _, fun e he f hf => ?_⟩
      rw [List.mem_singleton.mp hf]
      exact across e he m List.mem_cons_self
    · intro e he
      rcases List.mem_append.mp he with he | he
      · exact (across e he m List.mem_cons_self).le
      · rw [List.mem_singleton.mp he]
    · intro e he
      rcases List.mem_append.mp he with he | he
      · exact upper e (by simp [he])
      · rw [List.mem_singleton.mp he]
        exact upper m (by simp)
  · refine ⟨sortedR, fun e he => lower e (by simp [he]), fun e he => ?_⟩
    exact WithTop.coe_lt_coe.mpr (after e he)

theorem PageOk.rekey {s : Span κ α} {E F : List (κ × α)} {e : κ × α} {k : κ}
    (ok : PageOk (s, E ++ e :: F))
    (v : α) (above : ∀ e ∈ E, k < e.1) (high : (k : WithTop κ) < s.high) (low : s.low ≤ k)
    (next : ∀ f ∈ F, f.1 < k) : PageOk (s, E ++ (k, v) :: F) :=
  (ok.sublist ((List.sublist_cons_self e F).append_left E)).insert v above high low next

theorem PageOk.lower {s : Span κ α} {E F : List (κ × α)} {e : κ × α} {k : κ}
    (ok : PageOk (s, E ++ e :: F))
    (le : k ≤ e.1) (low : s.low ≤ k) (next : ∀ f ∈ F, f.1 < k) :
        PageOk (s, E ++ (k, e.2) :: F) := by
  obtain ⟨_, _, across⟩ := List.pairwise_append.mp ok.sorted
  apply ok.rekey e.2 (fun x hx => le.trans_lt (across x hx e (by simp))) _ low next
  exact (WithTop.coe_le_coe.mpr le).trans_lt (ok.high e (by simp))

def Rehung : Row κ α → Row κ α → Prop :=
  List.Forall₂ fun p q => q.2 = p.2 ∧ q.1.node = p.1.node ∧ q.1.low ≤ p.1.low ∧ p.1.high ≤ q.1.high

/-- A level fits looser spans with the entries it has. -/
theorem rehang {r : Row κ α} {S : List (Span κ α)} (looser : Looser (r.map Prod.fst) S) :
    ∃ r', Rehung r r' ∧ r'.map Prod.fst = S := by
  induction r generalizing S with
  | nil =>
    cases looser
    exact ⟨[], .nil, rfl⟩
  | cons p r ih =>
    cases looser with
    | @cons _ t _ S here rest =>
      obtain ⟨r', hung, spans⟩ := ih rest
      refine ⟨(t, p.2) :: r', .cons ⟨rfl, here⟩ hung, ?_⟩
      rw [List.map_cons, spans]

theorem Rehung.below {r r' : Row κ α} (hung : Rehung r r') : Looser (below r) (below r') := by
  induction hung with
  | nil => exact .nil
  | cons here rest ih =>
    rw [below_cons, below_cons, here.1]
    exact .append (spans_looser here.2.2.2 _) ih

theorem Rehung.entries {r r' : Row κ α} (hung : Rehung r r') : rowEntries r' = rowEntries r := by
  induction hung with
  | nil => rfl
  | cons here rest ih => rw [rowEntries_cons, rowEntries_cons, here.1, ih]

theorem Rehung.page {r r' : Row κ α} (hung : Rehung r r') {q : Page κ α} (mem : q ∈ r') :
    ∃ p ∈ r, q.2 = p.2 ∧ q.1.node = p.1.node ∧ q.1.low ≤ p.1.low ∧ p.1.high ≤ q.1.high := by
  induction hung with
  | nil => exact absurd mem List.not_mem_nil
  | cons here rest ih =>
    rcases List.mem_cons.mp mem with rfl | mem
    · exact ⟨_, List.mem_cons_self, here⟩
    · obtain ⟨p, hp, same⟩ := ih mem
      exact ⟨p, List.mem_cons_of_mem _ hp, same⟩

end Order
end OrderedTree
