import CommonLib.Mbuf.Insert

/- Every run of calls on any number of buffers, as lists of bytes. -/
namespace Mbuf

abbrev Contents := Nat → Option (List Byte)

def contentsOf (store : Store) : Contents := fun i => (store i).map contents

def SoundStore (store : Store) : Prop := ∀ i a, store i = some a → Sound a

def Refused (old : List Byte) (len : Nat) (first second : Answer) : Prop :=
  first = none ∧ (second = none ∨ old.length + len = 1)

/-- What a call does to the lists of bytes, and what it returns. -/
def Call.Evolves (before after : Contents) (ret : Nat) : Call → Prop
  | .init i _ _ => after = Function.update before i (some [])
  | .free i => after = Function.update before i (some [])
  | .insert i off src first second =>
    ∃ old new, before i = some old ∧ after = Function.update before i (some new) ∧
      Inserted old off src (Refused old src.len first second) new ret
  | .append i src first second =>
    ∃ old new, before i = some old ∧ after = Function.update before i (some new) ∧
      Inserted old old.length src (Refused old src.len first second) new ret
  | .appendAndFree i data len first second =>
    ∃ old new, before i = some old ∧ after = Function.update before i (some new) ∧
      Inserted old old.length (.bytes ((bytesOf data).take len))
        (Refused old len first second) new ret
  | .remove i n =>
    ∃ old, before i = some old ∧
      after = Function.update before i (some (if n ≤ old.length then old.drop n else old))
  | .resize _ _ _ => after = before
  | .trim _ _ => after = before
  | .clear i => after = Function.update before i (some [])
  | .move i j => after = Function.update (Function.update before j (before i)) i (some [])

/-- The structures are set up, no size wraps, and a block that is taken over has its bytes. -/
def Call.Allowed (store : Store) : Call → Prop
  | .init _ _ _ => True
  | .free i => (store i).isSome
  | .insert i _ src _ _ => ∃ a, store i = some a ∧ NoWrap a src.len
  | .append i src _ _ => ∃ a, store i = some a ∧ NoWrap a src.len
  | .appendAndFree i data len _ _ => ∃ a, store i = some a ∧ NoWrap a len ∧
    len ≤ (bytesOf data).length
  | .remove i _ => (store i).isSome
  | .resize i _ _ => (store i).isSome
  | .trim i _ => (store i).isSome
  | .clear i => (store i).isSome
  | .move i _ => (store i).isSome

def AllowedRun : Store → List Call → Prop
  | _, [] => True
  | store, call :: calls =>
    call.Allowed store ∧ ∀ store' ret, call.run store = some (store', ret) → AllowedRun store' calls

def Follows : Store → List Call → Prop
  | _, [] => True
  | store, call :: calls =>
    ∃ store' ret, call.run store = some (store', ret) ∧ SoundStore store' ∧
      call.Evolves (contentsOf store) (contentsOf store') ret ∧ Follows store' calls

section Steps
variable {store : Store}

theorem contentsOf_update (i : Nat) (a : Mbuf) :
    contentsOf (Function.update store i (some a)) =
      Function.update (contentsOf store) i (some (contents a)) := by
  funext j
  by_cases same : j = i
  · subst same
    simp [contentsOf]
  · simp [contentsOf, same]

theorem SoundStore.update (sound : SoundStore store) (i : Nat) {a : Mbuf} (here : Sound a) :
    SoundStore (Function.update store i (some a)) := by
  intro j b held
  by_cases same : j = i
  · subst same
    rw [Function.update_self] at held
    cases held
    exact here
  · rw [Function.update_of_ne same] at held
    exact sound j b held

theorem change_follows {i ret : Nat} {a a' : Mbuf} (f : Mbuf → Option (Mbuf × Nat))
    (sound : SoundStore store) (held : store i = some a) (run : f a = some (a', ret))
    (after : Sound a') :
    change store i f = some (Function.update store i (some a'), ret) ∧
      SoundStore (Function.update store i (some a')) ∧ contentsOf store i = some (contents a) ∧
      contentsOf (Function.update store i (some a')) =
        Function.update (contentsOf store) i (some (contents a')) := by
  refine ⟨?_, sound.update i after, ?_, contentsOf_update i a'⟩
  · simp only [change, held, run, Option.bind_eq_bind, Option.bind_some]
    rfl
  · simp [contentsOf, held]

theorem Inserted.refused {a : Mbuf} {off len ret : Nat} {src : Source} {first second : Answer}
    {new : List Byte} (sound : Sound a)
    (inserted : Inserted (contents a) off src (Denied a len first second) new ret) :
    Inserted (contents a) off src (Refused (contents a) len first second) new ret := by
  rcases inserted with spliced | ⟨zero, same, outside | ⟨_, first', second'⟩⟩
  · exact Or.inl spliced
  · exact Or.inr ⟨zero, same, Or.inl outside⟩
  · refine Or.inr ⟨zero, same, Or.inr ⟨first', ?_⟩⟩
    rwa [sound.contents_length]

/-- The take-over path gives the same list as an insertion at the end. -/
theorem appendAndFree_contents {a : Mbuf} {data : Option Buffer} {len : Nat} (sound : Sound a)
    (first second : Answer) (noWrap : NoWrap a len) (whole : len ≤ (bytesOf data).length) :
    ∃ a' ret, mbufAppendAndFree a data len first second = some (a', ret) ∧ Sound a' ∧
      Inserted (contents a) (contents a).length (.bytes ((bytesOf data).take len))
        (Denied a len first second) (contents a') ret := by
  have count : ((bytesOf data).take len).length = len := by simp; omega
  have lengths := sound.contents_length
  unfold mbufAppendAndFree
  by_cases empty : a.len = 0
  · rw [if_pos empty]
    have nothing : contents a = [] := List.eq_nil_of_length_eq_zero (by omega)
    refine ⟨⟨data, len, len⟩, len, rfl, ⟨Nat.le_refl _, whole⟩,
      Or.inl ⟨Nat.le_refl _, ?_, _, rfl, ?_⟩⟩
    · exact count.symm
    · rw [nothing]
      simp [contents]
  · rw [if_neg empty, lengths]
    cases data with
    | some block =>
      have run := insert_contents sound a.len (.bytes (block.bytes.take len)) first second
      rw [Source.len, show (block.bytes.take len).length = len from count] at run
      exact run noWrap
    | none =>
      have zero : len = 0 := by simpa [bytesOf] using whole
      subst zero
      obtain ⟨a', ret, run, after, inserted⟩ :=
        insert_contents sound a.len (.null 0) first second noWrap
      refine ⟨a', ret, run, after, ?_⟩
      rcases inserted with ⟨inside, result, bytes, gives, spliced⟩ | failed
      · have none_ : bytes = [] := List.eq_nil_of_length_eq_zero gives
        exact Or.inl ⟨inside, result, [], by simp [bytesOf, Source.Gives], by rw [spliced, none_]⟩
      · exact Or.inr failed

theorem call_follows {call : Call} (sound : SoundStore store) (allowed : call.Allowed store) :
    ∃ store' ret, call.run store = some (store', ret) ∧ SoundStore store' ∧
      call.Evolves (contentsOf store) (contentsOf store') ret := by
  cases call with
  | init i initialSize answer =>
    obtain ⟨after, empty⟩ := init_contents initialSize answer
    refine ⟨_, 0, rfl, sound.update i after, ?_⟩
    rw [contentsOf_update, empty]
    rfl
  | free i =>
    obtain ⟨a, held⟩ := Option.isSome_iff_exists.mp allowed
    obtain ⟨after, empty⟩ := free_contents (sound i a held)
    obtain ⟨run, sound', _, evolved⟩ :=
      change_follows (fun a => some (mbufFree a, 0)) sound held rfl after
    exact ⟨_, 0, run, sound', by rw [evolved, empty]; rfl⟩
  | insert i off src first second =>
    obtain ⟨a, held, noWrap⟩ := allowed
    obtain ⟨a', ret, done, after, inserted⟩ :=
      insert_contents (sound i a held) off src first second noWrap
    obtain ⟨run, sound', before, evolved⟩ := change_follows
      (fun a => mbufInsert a off src first second) sound held done after
    exact ⟨_, ret, run, sound', _, _, before, evolved, inserted.refused (sound i a held)⟩
  | append i src first second =>
    obtain ⟨a, held, noWrap⟩ := allowed
    obtain ⟨a', ret, done, after, inserted⟩ :=
      insert_contents (sound i a held) a.len src first second noWrap
    obtain ⟨run, sound', before, evolved⟩ :=
      change_follows (fun a => mbufAppend a src first second) sound held done after
    refine ⟨_, ret, run, sound', _, _, before, evolved, ?_⟩
    rw [(sound i a held).contents_length]
    exact inserted.refused (sound i a held)
  | appendAndFree i data len first second =>
    obtain ⟨a, held, noWrap, whole⟩ := allowed
    obtain ⟨a', ret, done, after, inserted⟩ :=
      appendAndFree_contents (sound i a held) first second noWrap whole
    obtain ⟨run, sound', before, evolved⟩ :=
      change_follows (fun a => mbufAppendAndFree a data len first second) sound held done after
    exact ⟨_, ret, run, sound', _, _, before, evolved, inserted.refused (sound i a held)⟩
  | remove i n =>
    obtain ⟨a, held⟩ := Option.isSome_iff_exists.mp allowed
    obtain ⟨a', done, after, removed⟩ := remove_contents (sound i a held) n
    obtain ⟨run, sound', before, evolved⟩ := change_follows
      (fun a => (mbufRemove a n).map fun a => (a, 0)) sound held (by simp only [done]; rfl) after
    refine ⟨_, 0, run, sound', _, before, ?_⟩
    rw [evolved, removed]
  | resize i newSize answer =>
    obtain ⟨a, held⟩ := Option.isSome_iff_exists.mp allowed
    obtain ⟨after, same⟩ := resize_contents (sound i a held) newSize answer
    obtain ⟨run, sound', before, evolved⟩ :=
      change_follows (fun a => some (mbufResize a newSize answer, 0)) sound held rfl after
    refine ⟨_, 0, run, sound', ?_⟩
    rw [evolved, same, ← before]
    exact Function.update_eq_self i _
  | trim i answer =>
    obtain ⟨a, held⟩ := Option.isSome_iff_exists.mp allowed
    obtain ⟨after, same⟩ := resize_contents (sound i a held) a.len answer
    obtain ⟨run, sound', before, evolved⟩ :=
      change_follows (fun a => some (mbufTrim a answer, 0)) sound held rfl after
    refine ⟨_, 0, run, sound', ?_⟩
    rw [evolved, mbufTrim, same, ← before]
    exact Function.update_eq_self i _
  | clear i =>
    obtain ⟨a, held⟩ := Option.isSome_iff_exists.mp allowed
    obtain ⟨after, empty⟩ := clear_contents (sound i a held)
    obtain ⟨run, sound', _, evolved⟩ :=
      change_follows (fun a => some (mbufClear a, 0)) sound held rfl after
    exact ⟨_, 0, run, sound', by rw [evolved, empty]; rfl⟩
  | move i j =>
    obtain ⟨a, held⟩ := Option.isSome_iff_exists.mp allowed
    have empty : Sound ⟨none, 0, 0⟩ := ⟨Nat.le_refl 0, Nat.zero_le _⟩
    refine ⟨Function.update (Function.update store j (some a)) i (some ⟨none, 0, 0⟩), 0,
      by simp only [Call.run, held, Option.bind_eq_bind, Option.bind_some]; rfl,
      (sound.update j (sound i a held)).update i empty, ?_⟩
    have before : contentsOf store i = some (contents a) := by simp [contentsOf, held]
    simp only [Call.Evolves]
    rw [contentsOf_update, contentsOf_update, before]
    rfl

theorem run_follows {calls : List Call} (sound : SoundStore store)
    (allowed : AllowedRun store calls) :
    Follows store calls := by
  induction calls generalizing store with
  | nil => trivial
  | cons call calls ih =>
    obtain ⟨here, later⟩ := allowed
    obtain ⟨store', ret, run, sound', evolves⟩ := call_follows sound here
    exact ⟨store', ret, run, sound', evolves, ih sound' (later store' ret run)⟩

end Steps

/-- Every run of allowed calls, from structures that are not set up. -/
theorem mbuf_follows (calls : List Call) (allowed : AllowedRun (fun _ => none) calls) :
    Follows (fun _ => none) calls :=
  run_follows (by intro i a held; cases held) allowed

theorem retried_insert_follows :
    Follows (fun _ => none)
      [.init 0 0 none, .append 0 (.bytes [1, 2, 3]) none (some (64, fun _ => 7)), .remove 0 1] := by
  apply mbuf_follows
  refine ⟨trivial, ?_⟩
  rintro store ret ⟨rfl, rfl⟩
  refine ⟨⟨_, rfl, by simp [NoWrap, mbufInit, mbufResize, addrOf, scaled, maxHeadroom, Source.len]⟩, ?_⟩
  intro store ret run
  have held : (store 0).isSome := by
    simp only [Call.run, change, Option.bind_eq_bind, Option.bind_eq_some_iff, Option.pure_def,
      Option.some.injEq, Prod.mk.injEq] at run
    obtain ⟨_, _, _, _, rfl, _⟩ := run
    simp
  exact ⟨held, fun _ _ _ => trivial⟩

end Mbuf
