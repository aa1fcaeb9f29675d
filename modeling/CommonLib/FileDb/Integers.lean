import CommonLib.FileDb.Contract
import CommonLib.OrderedTree.Circle
import Mathlib.Data.List.Find

/- Integer keys. The comparators subtract and keep 32 bits of the difference, so they
   order the keys of a run just when these lie on half of the circle modulo 2^32. -/
namespace FileDb
open OrderedTree

def Integral (t : KeyType) : Prop := t = .int32Key ∨ t = .int64Key

def intAt (t : KeyType) (key : Bytes) : Int :=
  match t with
  | .int32Key => int32At key
  | _ => int64At key

/-! ### The comparators -/

theorem keyCmp_circle {t : KeyType} (integral : Integral t) (a b : Bytes) (n : Nat) :
    keyCmp t a b n = circleCmp (2 ^ 31) (intAt t) a b := by
  have circle : (2 : Nat) * 2 ^ 31 = 2 ^ 32 := by decide
  rw [circleCmp, circle]
  rcases integral with int32 | int64
  · subst int32
    rfl
  · subst int64
    have narrow : (2 : Nat) ^ 32 ∣ 2 ^ 64 := Nat.pow_dvd_pow 2 (by decide)
    unfold keyCmp cmpInt64 intAt
    simp only [Int.bmod_bmod_of_dvd narrow]

theorem leNat_take (n : Nat) (a rest : Bytes) (long : n ≤ a.length) :
    leNat n (a.take n ++ rest) = leNat n a := by
  induction n generalizing a with
  | zero => rfl
  | succ n ih =>
    cases a with
    | nil => simp at long
    | cons c a => simp only [List.take_succ_cons, List.cons_append, leNat,
      ih a (by simpa using long)]

theorem intAt_write {t : KeyType} {n : Nat} (integral : Integral t) (size : keySizeOk t n = true)
    (old : Bytes) {key : Bytes} (long : n ≤ key.length) :
        intAt t (keyWrite t n old key) = intAt t key := by
  rcases integral with int32 | int64
  · subst int32
    have width : n = 4 := by simpa [keySizeOk] using size
    have first : leNat 4 (key.take n ++ old.drop n) = leNat 4 key := width ▸ leNat_take n key _ long
    unfold keyWrite intAt int32At
    simp only [first]
  · subst int64
    have width : n = 8 := by simpa [keySizeOk] using size
    have first : leNat 8 (key.take n ++ old.drop n) = leNat 8 key := width ▸ leNat_take n key _ long
    unfold keyWrite intAt int64At
    simp only [first]

def intOrder {t : KeyType} {n : Nat} (integral : Integral t) (size : keySizeOk t n = true)
    (S : List Bytes)
    (base : Int) (half : HalfCircle (2 ^ 31) (intAt t) S base) : KeyOrder Int t n where
  rank a := (intAt t a - base) % (2 * 2 ^ 31 : Nat)
  arg a := n ≤ a.length ∧ ∃ b ∈ S, intAt t a = intAt t b
  img a := n ≤ a.length ∧ ∃ b ∈ S, intAt t a = intAt t b
  zero_iff := by
    rintro a b ⟨_, x, hx, ha⟩ ⟨_, y, hy, hb⟩
    have nearA := half.near x hx
    have nearB := half.near y hy
    rw [← ha] at nearA
    rw [← hb] at nearB
    rw [keyCmp_circle integral, circleCmp_eq nearA nearB (by decide)]
    omega
  pos_iff := by
    rintro a b ⟨_, x, hx, ha⟩ ⟨_, y, hy, hb⟩
    have nearA := half.near x hx
    have nearB := half.near y hy
    rw [← ha] at nearA
    rw [← hb] at nearB
    rw [keyCmp_circle integral, circleCmp_eq nearA nearB (by decide)]
    omega
  write_img := by
    rintro a old ⟨long, same⟩
    refine ⟨?_, ?_⟩
    · rcases integral with int32 | int64
      · subst int32
        simp only [keyWrite, List.length_append, List.length_take]
        omega
      · subst int64
        simp only [keyWrite, List.length_append, List.length_take]
        omega
    · rw [intAt_write integral size old long]
      exact same
  write_rank := by
    rintro a old ⟨long, _⟩
    rw [intAt_write integral size old long]
  short := by
    rintro a _ rfl
    exact absurd integral (by simp [Integral])

/-! ### Renaming the keys of the map -/

def Call.key : Call → Bytes
  | .insert _ key _ => key
  | .delete key => key
  | .search key _ => key

section Rename
variable {κ ν : Type} [DecidableEq κ] [DecidableEq ν] {f : Bytes → κ} {g : Bytes → ν}
    {S : List Bytes}

def Agree (f : Bytes → κ) (g : Bytes → ν) (S : List Bytes) (m : Store κ) (m' : Store ν) : Prop :=
  ∀ a ∈ S, m (f a) = m' (g a)

theorem Agree.update {m : Store κ} {m' : Store ν} (agree : Agree f g S m m')
    (same : ∀ a ∈ S, ∀ b ∈ S, f a = f b ↔ g a = g b) {key : Bytes} (hk : key ∈ S)
    (v : Option Bytes) :
    Agree f g S (Function.update m (f key) v) (Function.update m' (g key) v) := by
  intro a ha
  by_cases here : f a = f key
  · rw [here, (same a ha key hk).mp here, Function.update_self, Function.update_self]
  · rw [Function.update_of_ne here, Function.update_of_ne
      (fun e => here ((same a ha key hk).mpr e)),
      agree a ha]

theorem Agree.step {m : Store κ} {m' : Store ν} (agree : Agree f g S m m')
    (same : ∀ a ∈ S, ∀ b ∈ S, f a = f b ↔ g a = g b) (c : Call) (hc : c.key ∈ S) :
    Agree f g S (m.step f c).1 (m'.step g c).1 ∧ (m.step f c).2 = (m'.step g c).2 := by
  cases c with
  | insert grow key value =>
    have here := agree key hc
    simp only [Store.step, ← here]
    cases m (f key) with
    | none => exact ⟨agree.update same hc _, rfl⟩
    | some v => exact ⟨agree, rfl⟩
  | delete key =>
    have here := agree key hc
    simp only [Store.step, ← here]
    cases m (f key) with
    | none => exact ⟨agree, rfl⟩
    | some v => exact ⟨agree.update same hc _, rfl⟩
  | search key valueSize =>
    have here := agree key hc
    simp only [Store.step, ← here]
    cases m (f key) with
    | none => exact ⟨agree, rfl⟩
    | some v => exact ⟨agree, rfl⟩

end Rename

/-! ### The entries by their integers -/

section Named
variable {p : Shape} {integral : Integral p.keyType} {S T : List Bytes} {base from' : Int}
  {disk : Nat → BtreeNode} {es : List Entry}

def named (t : KeyType) (disk : Nat → BtreeNode) (es : List Entry) : Store Int :=
  fun k => (lookup (fun e => intAt t e.1) es k).map fun e => valueAt disk e.2

theorem intOrder_rank (half : HalfCircle (2 ^ 31) (intAt p.keyType) S base) {a b : Bytes}
    (ha : ∃ x ∈ S, intAt p.keyType a = intAt p.keyType x)
    (hb : ∃ y ∈ S, intAt p.keyType b = intAt p.keyType y) :
    (intOrder integral p.valid S base half).rank a = (intOrder integral p.valid S base half).rank b ↔
      intAt p.keyType a = intAt p.keyType b := by
  obtain ⟨x, hx, nameA⟩ := ha
  obtain ⟨y, hy, nameB⟩ := hb
  constructor
  · intro same
    simp only [intOrder, nameA, nameB] at same
    rw [nameA, nameB]
    exact half.apart x hx y hy same
  · intro same
    simp only [intOrder, same]

theorem Sorted.turn {half : HalfCircle (2 ^ 31) (intAt p.keyType) S base}
    (sorted : Sorted (intOrder integral p.valid S base half) es)
    (half' : HalfCircle (2 ^ 31) (intAt p.keyType) T from')
    (among : ∀ e ∈ es, ∃ b ∈ T, intAt p.keyType e.1 = intAt p.keyType b) :
    Sorted (intOrder integral p.valid T from' half') es := by
  have image : ∀ e ∈ es, (intOrder integral p.valid T from' half').img e.1 := fun e he =>
    ⟨(sorted.image e he).1, among e he⟩
  refine ⟨image, sorted.ordered.imp_of_mem ?_⟩
  intro a b ha hb less
  -- both orders are the sign of the comparator
  have below : keyCmp p.keyType a.1 b.1 p.keySize < 0 :=
    (KeyOrder.neg_iff _ (sorted.image a ha) (sorted.image b hb)).mpr less
  exact (KeyOrder.neg_iff _ (image a ha) (image b hb)).mp below

theorem contents_named {half : HalfCircle (2 ^ 31) (intAt p.keyType) S base}
    (sorted : Sorted (intOrder integral p.valid S base half) es) {a : Bytes}
    (ha : ∃ x ∈ S, intAt p.keyType a = intAt p.keyType x) :
    contents (intOrder integral p.valid S base half) disk es
        ((intOrder integral p.valid S base half).rank a) =
      named p.keyType disk es (intAt p.keyType a) := by
  rw [contents, named, lookup, lookup]
  congr 1
  refine List.find?_congr fun e he => ?_
  rw [decide_eq_decide]
  exact intOrder_rank half (sorted.image e he).2 ha

end Named
/-! ### Runs -/

/-- The keys stored and not deleted since. -/
def Call.stored (t : KeyType) (live : List Bytes) : Call → List Bytes
  | .insert _ key _ => key :: live
  | .delete key => live.filter fun a => intAt t a ≠ intAt t key
  | .search _ _ => live

/-- `P` holds at each call of the key passed and the keys then stored. -/
def AtEachCall (P : List Bytes → Prop) (t : KeyType) : List Call → List Bytes → Prop
  | [], _ => True
  | c :: cs, live => P (c.key :: live) ∧ AtEachCall P t cs (c.stored t live)

theorem AtEachCall.congr {P Q : List Bytes → Prop} (same : ∀ S, P S ↔ Q S) {t : KeyType}
    (cs : List Call) (live : List Bytes) : AtEachCall P t cs live ↔ AtEachCall Q t cs live := by
  induction cs generalizing live with
  | nil => exact Iff.rfl
  | cons c cs ih => rw [AtEachCall, AtEachCall, same, ih]

/-- The keys of a call lie on half of the circle modulo 2^32, and no two meet. -/
def Near (t : KeyType) (S : List Bytes) : Prop := ∃ base, HalfCircle (2 ^ 31) (intAt t) S base

def Compares (t : KeyType) (n : Nat) (S : List Bytes) : Prop :=
  TotalOn (intAt t) (fun a b => keyCmp t a b n) S

theorem compares_iff {t : KeyType} (integral : Integral t) (n : Nat) (S : List Bytes) :
    Compares t n S ↔ Near t S := by
  have circle : (fun a b => keyCmp t a b n) = circleCmp (2 ^ 31) (intAt t) := by
    funext a b
    exact keyCmp_circle integral a b n
  rw [Compares, circle]
  exact totalOn_circle_iff (by decide)

theorem stored_held {t : KeyType} {m : Store Int} {live : List Bytes}
    (held : ∀ k, m k = none ↔ ∀ a ∈ live, intAt t a ≠ k) (c : Call) (k : Int) :
    (m.step (intAt t) c).1 k = none ↔ ∀ a ∈ c.stored t live, intAt t a ≠ k := by
  cases c with
  | insert grow key value =>
    simp only [Store.step, Call.stored, List.forall_mem_cons]
    cases here : m (intAt t key) with
    | none =>
      by_cases same : intAt t key = k
      · simp [same]
      · simp [same, Function.update_of_ne (Ne.symm same), held]
    | some v =>
      by_cases same : intAt t key = k
      · subst same
        simp [here]
      · simp [same, held]
  | delete key =>
    simp only [Store.step, Call.stored, List.forall_mem_filter]
    cases here : m (intAt t key) with
    | none =>
      have absent := (held _).mp here
      rw [held]
      exact ⟨fun none a ha _ => none a ha, fun none a ha => none a ha (by simpa using absent a ha)⟩
    | some v =>
      by_cases same : intAt t key = k
      · subst same
        simp
      · simp only [Function.update_of_ne (Ne.symm same), held]
        refine ⟨fun none a ha _ => none a ha, fun none a ha eq => none a ha ?_ eq⟩
        simpa [eq] using Ne.symm same
  | search key valueSize =>
    simp only [Store.step, Call.stored]
    cases m (intAt t key) with
    | none => exact held k
    | some v => exact held k

theorem stored_subset {t : KeyType} {live : List Bytes} (c : Call) :
    c.stored t live ⊆ c.key :: live := by
  cases c with
  | insert grow key value => exact List.Subset.refl _
  | delete key => exact fun a ha => List.mem_cons_of_mem _ (List.mem_filter.mp ha).1
  | search key valueSize => exact fun a ha => List.mem_cons_of_mem _ ha

section Run
variable {p : Shape} {integral : Integral p.keyType} {s : Db} {h : Nat} {V F : List Nat}
  {live : List Bytes} {m : Store Int}

/-- The entries are in order on a half circle and hold `m`, whose keys are `live`. -/
structure Mirrors (integral : Integral p.keyType) (s : Db) (h : Nat) (V F : List Nat)
    (live : List Bytes) (m : Store Int) : Prop where
  stands : ∃ S base half, Stands (intOrder integral p.valid S base half) s h [] V F
  map : named p.keyType s.file.disk (flat s.file.disk h headSize) = m
  held : ∀ k, m k = none ↔ ∀ a ∈ live, intAt p.keyType a ≠ k

theorem named_none {t : KeyType} {disk : Nat → BtreeNode} {es : List Entry} {k : Int} :
    named t disk es k = none ↔ ∀ e ∈ es, intAt t e.1 ≠ k := by
  rw [named, Option.map_eq_none_iff, lookup_none_iff]

theorem Mirrors.among (mirrors : Mirrors integral s h V F live m) :
    ∀ e ∈ flat s.file.disk h headSize, ∃ a ∈ live, intAt p.keyType e.1 = intAt p.keyType a := by
  intro e he
  by_contra none
  simp only [not_exists, not_and] at none
  have absent := (mirrors.held (intAt p.keyType e.1)).mpr fun a ha eq => none a ha eq.symm
  rw [← mirrors.map, named_none] at absent
  exact absent e he rfl

theorem Call.near_ok {c : Call} (valid : c.Valid p.keyType p.keySize) {S : List Bytes} {base : Int}
    (half : HalfCircle (2 ^ 31) (intAt p.keyType) S base) (hc : c.key ∈ S) :
    c.Ok (intOrder integral p.valid S base half) := by
  have long : ∀ key, ValidKey p.keyType p.keySize key → p.keySize ≤ key.length := by
    intro key valid
    rcases integral with int32 | int64
    · rw [int32] at valid
      exact valid
    · rw [int64] at valid
      exact valid
  cases c with
  | insert grow key value => exact ⟨⟨long key valid.1, key, hc, rfl⟩, valid.2⟩
  | delete key => exact ⟨long key valid, key, hc, rfl⟩
  | search key valueSize => exact ⟨long key valid, key, hc, rfl⟩

theorem Mirrors.step (mirrors : Mirrors integral s h V F live m) {c : Call}
    (valid : c.Valid p.keyType p.keySize ∧ c.Grows) (near : Near p.keyType (c.key :: live)) :
    ∃ s' h' V' F', step s c = .ok (s', (m.step (intAt p.keyType) c).2) ∧
      Mirrors integral s' h' V' F' (c.stored p.keyType live) (m.step (intAt p.keyType) c).1 := by
  obtain ⟨base, half⟩ := near
  obtain ⟨_, _, _, stands⟩ := mirrors.stands
  -- from now on the order is that of the keys of this call
  have st : Stands (intOrder integral p.valid (c.key :: live) base half) s h [] V F := by
    refine ⟨stands.tree, stands.sorted.turn half fun e he => ?_, stands.total⟩
    obtain ⟨a, ha, same⟩ := mirrors.among e he
    exact ⟨a, List.mem_cons_of_mem _ ha, same⟩
  obtain ⟨s', r, h', R', V', F', run, st', lost, ended⟩ :=
    step_spec st c (Call.near_ok valid.1 half List.mem_cons_self)
  obtain rfl := lost (valid.2.not_leaks s)
  have agree : Agree (intOrder integral p.valid (c.key :: live) base half).rank (intAt p.keyType)
      (c.key :: live) (contents _ s.file.disk (flat s.file.disk h headSize)) m := fun a ha =>
    mirrors.map ▸ contents_named st.sorted ⟨a, ha, rfl⟩
  obtain ⟨agree', reply⟩ := agree.step
    (fun a ha b hb => intOrder_rank half ⟨a, ha, rfl⟩ ⟨b, hb, rfl⟩) c List.mem_cons_self
  rw [ended.grown valid.2] at agree' reply
  refine ⟨s', h', V', F', reply ▸ run, ⟨_, _, _, st'⟩, funext fun k => ?_,
    stored_held mirrors.held c⟩
  by_cases here : ∃ a ∈ c.key :: live, intAt p.keyType a = k
  · obtain ⟨a, ha, rfl⟩ := here
    exact (contents_named st'.sorted ⟨a, ha, rfl⟩).symm.trans (agree' a ha)
  · -- an integer that is neither passed nor stored
    have gone : named p.keyType s'.file.disk (flat s'.file.disk h' headSize) k = none := by
      refine named_none.mpr fun e he eq => here ?_
      obtain ⟨_, b, hb, same⟩ := st'.sorted.image e he
      exact ⟨b, hb, same.symm.trans eq⟩
    rw [gone]
    exact ((stored_held mirrors.held c k).mpr fun a ha eq => here ⟨a, stored_subset c ha, eq⟩).symm

theorem Mirrors.run (mirrors : Mirrors integral s h V F live m) (cs : List Call)
    (valid : ∀ c ∈ cs, c.Valid p.keyType p.keySize ∧ c.Grows)
    (near : AtEachCall (Near p.keyType) p.keyType cs live) :
    ∃ s', run cs s = .ok (s', (Store.run (intAt p.keyType) cs m).2) := by
  induction cs generalizing s h V F live m with
  | nil => exact ⟨s, rfl⟩
  | cons c cs ih =>
    obtain ⟨now, later⟩ := near
    obtain ⟨s1, h1, V1, F1, step1, mirrors1⟩ := mirrors.step (valid c List.mem_cons_self) now
    obtain ⟨s', run'⟩ := ih mirrors1 (fun d hd => valid d (List.mem_cons_of_mem _ hd)) later
    refine ⟨s', ?_⟩
    simp only [FileDb.run, step1, run', bind, Except.bind]
    rfl

end Run

theorem Fresh.mirrors {p : Shape} {file : File} (fresh : Fresh p file)
    (integral : Integral p.keyType) :
    Mirrors integral { db := file.head, file := file } 0 [] [] [] .empty := by
  have half : HalfCircle (2 ^ 31) (intAt p.keyType) [] 0 := ⟨by simp, by simp⟩
  refine ⟨⟨[], 0, half, fresh.stands _⟩, ?_, fun k => ?_⟩
  · rw [fresh.empty]
    rfl
  · simp [Store.empty]

/-- In a run from `db_create` on, the comparator orders at each call the key passed and the keys
    then stored, and the replies are those of a map from integers, if and only if at each call
    these keys lie on half of the circle modulo 2^32. -/
theorem integer_calls {t : KeyType} {n : Nat} {file : File} (integral : Integral t)
    (made : dbCreate t n = .ok file) (cs : List Call) (valid : ∀ c ∈ cs, c.Valid t n ∧ c.Grows) :
    (AtEachCall (Compares t n) t cs [] ∧
        ∃ s s', dbOpen file = some s ∧ run cs s = .ok (s', (Store.run (intAt t) cs .empty).2)) ↔
      AtEachCall (Near t) t cs [] := by
  rw [AtEachCall.congr (compares_iff integral n)]
  refine ⟨And.left, fun near => ⟨near, ?_⟩⟩
  have fresh := dbCreate_fresh made ⟨t, n, dbCreate_ok made⟩ rfl rfl
  obtain ⟨s', hrun⟩ := (fresh.mirrors integral).run cs valid near
  exact ⟨_, s', fresh.tree.reopen fresh.counted, hrun⟩

def nearCalls : List Call :=
  [.insert (fun _ => true) [0, 0, 0, 0, 0, 0, 0, 0] [7],
    .insert (fun _ => true) [255, 255, 255, 255, 255, 255, 255, 255] [8],
    .delete [0, 0, 0, 0, 0, 0, 0, 0], .insert (fun _ => true) [0, 0, 0, 0, 1, 0, 0, 0] [9],
    .search [0, 0, 0, 0, 1, 0, 0, 0] 8, .search [255, 255, 255, 255, 255, 255, 255, 255] 8]

theorem integer_calls_sample : ∃ file s s', dbCreate .int64Key 8 = .ok file ∧ dbOpen file = some s ∧
    run nearCalls s = .ok (s', [.status (.ok 1), .status (.ok 1), .status (.ok 1),
      .status (.ok 1), .value (.ok [9]), .value (.ok [8])]) := by
  have accepted (b : UInt8) : Accepted [b] :=
    accepted_of_length (by simp [nodeHead, valueHead, blockSize])
  have valid : ∀ c ∈ nearCalls, c.Valid .int64Key 8 ∧ c.Grows := by
    intro c hc
    simp only [nearCalls, List.mem_cons, List.not_mem_nil, or_false] at hc
    rcases hc with rfl | rfl | rfl | rfl | rfl | rfl
    · exact ⟨⟨Nat.le_refl 8, accepted 7⟩, fun _ => rfl⟩
    · exact ⟨⟨Nat.le_refl 8, accepted 8⟩, fun _ => rfl⟩
    · exact ⟨Nat.le_refl 8, trivial⟩
    · exact ⟨⟨Nat.le_refl 8, accepted 9⟩, fun _ => rfl⟩
    · exact ⟨Nat.le_refl 8, trivial⟩
    · exact ⟨Nat.le_refl 8, trivial⟩
  have near : AtEachCall (Near .int64Key) .int64Key nearCalls [] :=
    ⟨⟨-1, by decide +kernel, by decide +kernel⟩, ⟨-1, by decide +kernel, by decide +kernel⟩,
      ⟨-1, by decide +kernel, by decide +kernel⟩, ⟨-1, by decide +kernel, by decide +kernel⟩,
      ⟨-1, by decide +kernel, by decide +kernel⟩, ⟨-1, by decide +kernel, by decide +kernel⟩,
      trivial⟩
  obtain ⟨_, s, s', opened, hrun⟩ := (integer_calls (.inr rfl) rfl nearCalls valid).mpr near
  exact ⟨_, s, s', rfl, opened, hrun⟩

def farCalls : List Call :=
  [.insert (fun _ => true) [0, 0, 0, 0, 0, 0, 0, 0] [7],
  .insert (fun _ => true) [0, 0, 0, 0, 1, 0, 0, 0] [9],
    .search [0, 0, 0, 0, 1, 0, 0, 0] 8]

def repliesOf (t : KeyType) (n : Nat) (cs : List Call) : Option (List Reply) :=
  match dbCreate t n with
  | .error _ => none
  | .ok file => (dbOpen file).bind fun s => (run cs s).toOption.map Prod.snd

theorem repliesOf_some {t : KeyType} {n : Nat} {cs : List Call} {rs : List Reply}
    (eval : repliesOf t n cs = some rs) :
    ∃ file s s', dbCreate t n = .ok file ∧ dbOpen file = some s ∧ run cs s = .ok (s', rs) := by
  simp only [repliesOf] at eval
  split at eval
  · exact nomatch eval
  · next file made =>
    obtain ⟨s, opened, eval⟩ := Option.bind_eq_some_iff.mp eval
    obtain ⟨⟨s', rs'⟩, ran, rfl⟩ := Option.map_eq_some_iff.mp eval
    refine ⟨file, s, s', made, opened, ?_⟩
    cases done : run cs s with
    | error fault => simp [done, Except.toOption] at ran
    | ok result =>
      rw [done] at ran
      exact congrArg Except.ok (Option.some.inj ran)

/-- The second key is refused as a duplicate and found with the first one's value; and of
    the 32-bit keys 0 and -2^31 each compares below the other. -/
theorem collapsed_keys :
    (keyCmp .int32Key [0, 0, 0, 0] [0, 0, 0, 128] 4 < 0 ∧
    keyCmp .int32Key [0, 0, 0, 128] [0, 0, 0, 0] 4 < 0) ∧
    intAt .int64Key [0, 0, 0, 0, 1, 0, 0, 0] ≠ intAt .int64Key [0, 0, 0, 0, 0, 0, 0, 0] ∧
    ∃ file s s', dbCreate .int64Key 8 = .ok file ∧ dbOpen file = some s ∧
      run farCalls s = .ok (s', [.status (.ok 1), .status (.ok 0), .value (.ok [7])]) := by
  refine ⟨by decide +kernel, by decide +kernel, ?_⟩
  exact repliesOf_some (by decide +kernel)

/-- The replies alone do not need the condition: a search may compare keys that are too far apart
    and still miss rightly. -/
theorem far_search : ¬ AtEachCall (Near .int32Key) .int32Key
      [.insert (fun _ => true) [0, 0, 0, 0] [7], .search [0, 0, 0, 128] 8] [] ∧
    ∃ file s s', dbCreate .int32Key 4 = .ok file ∧ dbOpen file = some s ∧
      run [.insert (fun _ => true) [0, 0, 0, 0] [7], .search [0, 0, 0, 128] 8] s =
        .ok (s', [.status (.ok 1), .value (.error .ENOMSG)]) := by
  refine ⟨?_, repliesOf_some (by decide +kernel)⟩
  rintro ⟨_, near, _⟩
  have total : Compares .int32Key 4 [[0, 0, 0, 128], [0, 0, 0, 0]] :=
    (compares_iff (.inl rfl) 4 _).mpr near
  have above : 0 < keyCmp .int32Key [0, 0, 0, 0] [0, 0, 0, 128] 4 :=
    (total.swap _ (by simp) _ (by simp)).mpr (by decide +kernel)
  exact absurd above (by decide +kernel)

end FileDb
