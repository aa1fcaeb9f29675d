import CommonLib.Base64.Coding
import Mathlib.Data.BitVec
import Mathlib.Data.List.TakeWhile
import Mathlib.Tactic.IntervalCases

/- What the coders promise: decoding gives back what was encoded, and what a decoder accepts. -/
namespace Base64

/-! ### Three bytes as four values -/

section Groups
variable (a b c : Byte)

def index0 : Byte := a >>> 2 &&& 0x3f

def index1 : Byte := (a &&& 3) <<< 4 ||| b >>> 4

def index2 : Byte := (b &&& 0x0f) <<< 2 ||| c >>> 6

def index3 : Byte := c &&& 0x3f

theorem group0 : index0 a <<< 2 ||| index1 a b >>> 4 = a := by
  refine BitVec.eq_of_getLsbD_eq fun i inside => ?_
  simp only [index0, index1, BitVec.getLsbD_or, BitVec.getLsbD_and, BitVec.getLsbD_shiftLeft,
    BitVec.getLsbD_ushiftRight]
  interval_cases i <;> simp

theorem group1 : index1 a b <<< 4 ||| index2 b c >>> 2 = b := by
  refine BitVec.eq_of_getLsbD_eq fun i inside => ?_
  simp only [index1, index2, BitVec.getLsbD_or, BitVec.getLsbD_and, BitVec.getLsbD_shiftLeft,
    BitVec.getLsbD_ushiftRight]
  interval_cases i <;> simp

theorem group2 : index2 b c <<< 6 ||| index3 c = c := by
  refine BitVec.eq_of_getLsbD_eq fun i inside => ?_
  simp only [index2, index3, BitVec.getLsbD_or, BitVec.getLsbD_and, BitVec.getLsbD_shiftLeft,
    BitVec.getLsbD_ushiftRight]
  interval_cases i <;> simp

def Six (x : Byte) : Prop := x.toNat < 64

theorem six_of_bits {x : Byte} (six : x[6] = false) (seven : x[7] = false) : Six x := by
  have high : x >>> 6 = 0 := by
    refine BitVec.eq_of_getLsbD_eq fun i inside => ?_
    rw [BitVec.getLsbD_ushiftRight]
    interval_cases i <;> simp [six, seven]
  have value := congrArg BitVec.toNat high
  rw [BitVec.toNat_ushiftRight, Nat.shiftRight_eq_div_pow] at value
  have zero : x.toNat / 64 = 0 := value
  rw [Six]
  omega

theorem six0 : Six (index0 a) := six_of_bits (by simp [index0]) (by simp [index0])

theorem six1 : Six (index1 a b) := six_of_bits (by simp [index1]) (by simp [index1])

theorem six2 : Six (index2 b c) := six_of_bits (by simp [index2]) (by simp [index2])

theorem six3 : Six (index3 c) := six_of_bits (by simp [index3]) (by simp [index3])

end Groups

def indexes : List Byte → List Byte
  | a :: b :: c :: rest => index0 a :: index1 a b :: index2 b c :: index3 c :: indexes rest
  | [a, b] => [index0 a, index1 a b, index2 b 0]
  | [a] => [index0 a, index1 a 0]
  | [] => []

def padCount (len : Nat) : Nat := (3 - len % 3) % 3

theorem indexes_six (src : List Byte) : ∀ i ∈ indexes src, Six i := by
  fun_induction indexes src with
  | case1 a b c rest ih => simpa [six0, six1, six2, six3] using ih
  | case2 a b => simp [six0, six1, six2]
  | case3 a => simp [six0, six1]
  | case4 => simp

/-! ### A pair of tables -/

/-- The decoder's table reads the encoder's characters. -/
structure Agree (basis : List Byte) (values : Vector Byte 256) : Prop where
  long : 64 ≤ basis.length
  notPad : ∀ i < 64, basis.getD i 0 ≠ pad
  back : ∀ i < 64, value values (basis.getD i 0) = BitVec.ofNat 8 i
  only : ∀ n < 256, value values (BitVec.ofNat 8 n) ≠ invalid ↔ BitVec.ofNat 8 n ∈ basis.take 64

theorem agree64 : Agree basis64 values64 :=
  ⟨by decide +kernel, by decide +kernel, by decide +kernel, by decide +kernel⟩

theorem agree64url : Agree basis64url values64url :=
  ⟨by decide +kernel, by decide +kernel, by decide +kernel, by decide +kernel⟩

section Tables
variable {basis : List Byte} {values : Vector Byte 256} {padding : Bool} {i : Byte}
  {body src : List Byte}

def letter (basis : List Byte) (i : Byte) : Byte := basis.getD i.toNat 0

theorem Agree.lookup (agree : Agree basis values) (six : Six i) :
    basis[i.toNat]? = some (letter basis i) := by
  have inside : i.toNat < basis.length := lt_of_lt_of_le six agree.long
  rw [letter, List.getD_eq_getElem?_getD, List.getElem?_eq_getElem inside, Option.getD_some]

theorem Agree.value_letter (agree : Agree basis values) (six : Six i) :
    value values (letter basis i) = i := by
  rw [letter, agree.back _ six]
  exact BitVec.eq_of_toNat_eq (by simp)

theorem Agree.valid (agree : Agree basis values) (six : Six i) :
    letter basis i ≠ pad ∧ value values (letter basis i) ≠ invalid := by
  refine ⟨agree.notPad _ six, ?_⟩
  rw [agree.value_letter six]
  intro same
  rw [Six, same] at six
  exact absurd six (by decide)

theorem Agree.encode (agree : Agree basis values) (padding : Bool) (src : List Byte) :
    encodeInternal basis padding src = some ((indexes src).map (letter basis) ++
      List.replicate (if padding then padCount src.length else 0) pad) := by
  fun_induction indexes src with
  | case1 a b c rest ih =>
    have first := agree.lookup (six0 a)
    have second := agree.lookup (six1 a b)
    have third := agree.lookup (six2 b c)
    have fourth := agree.lookup (six3 c)
    have count : padCount (rest.length + 1 + 1 + 1) = padCount rest.length := by
      rw [padCount, padCount, Nat.add_assoc, Nat.add_assoc, Nat.add_mod_right]
    rw [index0] at first
    rw [index1] at second
    rw [index2] at third
    rw [index3] at fourth
    rw [encodeInternal, first, second, third, fourth, ih]
    simp only [Option.bind_eq_bind, Option.bind_some, Option.pure_def, List.length_cons, count]
    rfl
  | case2 a b =>
    have first := agree.lookup (six0 a)
    have second := agree.lookup (six1 a b)
    have third := agree.lookup (six2 b 0)
    have none : index2 b 0 = (b &&& 0x0f) <<< 2 := by simp [index2]
    rw [none] at third
    rw [index0] at first
    rw [index1] at second
    rw [encodeInternal, first, second, third, none]
    cases padding <;> simp [index0, index1, padCount]
  | case3 a =>
    have first := agree.lookup (six0 a)
    have second := agree.lookup (six1 a 0)
    have none : index1 a 0 = (a &&& 3) <<< 4 := by simp [index1]
    rw [none] at second
    rw [index0] at first
    rw [encodeInternal, first, second, none]
    cases padding <;> simp [index0, padCount, List.replicate_succ]
  | case4 => cases padding <;> simp [encodeInternal, padCount]

theorem scan_body (good : ∀ c ∈ body, c ≠ pad ∧ value values c ≠ invalid) (k : Nat) :
    scan values (body ++ List.replicate k pad) = some body := by
  induction body with
  | nil => cases k <;> simp [scan, List.replicate_succ]
  | cons c body ih =>
    obtain ⟨notPad, valid⟩ := good c List.mem_cons_self
    have rest := ih fun d member => good d (List.mem_cons_of_mem _ member)
    rw [List.cons_append, scan, if_neg notPad, if_neg valid, rest]
    rfl

theorem Agree.decode_letters (agree : Agree basis values) (src : List Byte) :
    decodeLoop values ((indexes src).map (letter basis)) = src := by
  fun_induction indexes src with
  | case1 a b c rest ih =>
    simp only [List.map_cons, decodeLoop, agree.value_letter (six0 a),
      agree.value_letter (six1 a b), agree.value_letter (six2 b c), agree.value_letter (six3 c),
      group0, group1, group2, ih]
  | case2 a b =>
    simp only [List.map_cons, List.map_nil, decodeLoop, agree.value_letter (six0 a),
      agree.value_letter (six1 a b), agree.value_letter (six2 b 0), group0, group1]
  | case3 a =>
    simp only [List.map_cons, List.map_nil, decodeLoop, agree.value_letter (six0 a),
      agree.value_letter (six1 a 0), group0]
  | case4 => rfl

theorem indexes_length (src : List Byte) :
    (indexes src).length = src.length + (src.length + 2) / 3 := by
  fun_induction indexes src with
  | case1 a b c rest ih =>
    simp only [List.length_cons, ih]
    omega
  | case2 a b => simp
  | case3 a => simp
  | case4 => simp

theorem Agree.roundTrip (agree : Agree basis values) (padding : Bool) (src : List Byte) :
    ∃ out, encodeInternal basis padding src = some out ∧
      decodeInternal values out = some src ∧ out.length ≤ encodedLength src.length ∧
      (padding → out.length = encodedLength src.length) := by
  refine ⟨_, agree.encode padding src, ?_, ?_, fun padded => ?_⟩
  · have good : ∀ c ∈ (indexes src).map (letter basis), c ≠ pad ∧ value values c ≠ invalid := by
      intro c member
      obtain ⟨i, inside, rfl⟩ := List.mem_map.mp member
      exact agree.valid (indexes_six src i inside)
    have count : ((indexes src).map (letter basis)).length % 4 ≠ 1 := by
      rw [List.length_map, indexes_length]
      omega
    rw [decodeInternal, scan_body good]
    simp only [Option.bind_eq_bind, Option.bind_some, count, if_false, agree.decode_letters]
    rfl
  · rw [List.length_append, List.length_map, List.length_replicate, indexes_length, encodedLength,
      padCount]
    split <;> omega
  · rw [List.length_append, List.length_map, List.length_replicate, indexes_length, encodedLength,
      padCount, if_pos padded]
    omega

/-! ### What is accepted -/

def bodyOf (src : List Byte) : List Byte := src.takeWhile (· ≠ pad)

theorem scan_eq (values : Vector Byte 256) (src : List Byte) : scan values src =
    if ∀ c ∈ bodyOf src, value values c ≠ invalid then some (bodyOf src) else none := by
  induction src with
  | nil => simp [scan, bodyOf]
  | cons c src ih =>
    by_cases ends : c = pad
    · simp [scan, bodyOf, ends]
    · have body : bodyOf (c :: src) = c :: bodyOf src := by simp [bodyOf, ends]
      rw [scan, if_neg ends, body]
      by_cases bad : value values c = invalid
      · simp [bad]
      · rw [if_neg bad, ih]
        by_cases rest : ∀ c ∈ bodyOf src, value values c ≠ invalid
        · have all : ∀ d ∈ c :: bodyOf src, value values d ≠ invalid :=
            List.forall_mem_cons.mpr ⟨bad, rest⟩
          rw [if_pos rest, if_pos all]
          rfl
        · have some_ : ¬ ∀ d ∈ c :: bodyOf src, value values d ≠ invalid := by
            intro all
            exact rest fun d member => all d (List.mem_cons_of_mem _ member)
          rw [if_neg rest, if_neg some_]
          rfl

theorem decodeLoop_length (values : Vector Byte 256) (body : List Byte) :
    (decodeLoop values body).length = body.length / 4 * 3 + (body.length % 4 - 1) := by
  fun_induction decodeLoop values body with
  | case1 a b c d rest ih =>
    simp only [List.length_cons, ih]
    omega
  | case2 a b c => simp
  | case3 a b => simp
  | case4 body notFour notThree notTwo =>
    cases body with
    | nil => simp
    | cons a body =>
      cases body with
      | nil => simp
      | cons b body =>
        cases body with
        | nil => exact (notTwo a b rfl).elim
        | cons c body =>
          cases body with
          | nil => exact (notThree a b c rfl).elim
          | cons d body => exact (notFour a b c d body rfl).elim

theorem Agree.valid_iff (agree : Agree basis values) (c : Byte) :
    value values c ≠ invalid ↔ c ∈ basis.take 64 := by
  have all := agree.only c.toNat c.isLt
  rwa [BitVec.ofNat_toNat, BitVec.setWidth_eq] at all

theorem Agree.accepts (agree : Agree basis values) (src : List Byte) :
    (decodeInternal values src).isSome ↔
      (∀ c ∈ bodyOf src, c ∈ basis.take 64) ∧ (bodyOf src).length % 4 ≠ 1 := by
  have same : (∀ c ∈ bodyOf src, value values c ≠ invalid) ↔
      ∀ c ∈ bodyOf src, c ∈ basis.take 64 :=
    forall₂_congr fun c _ => agree.valid_iff c
  rw [decodeInternal, scan_eq, ← same]
  by_cases valid : ∀ c ∈ bodyOf src, value values c ≠ invalid
  · rw [if_pos valid]
    by_cases count : (bodyOf src).length % 4 = 1
    · simp [count]
    · simpa [count] using valid
  · rw [if_neg valid]
    simp [valid]

theorem decode_room {out : List Byte} (accepted : decodeInternal values src = some out) :
    out.length ≤ decodedLength src.length := by
  rw [decodeInternal, scan_eq] at accepted
  have shorter : (bodyOf src).length ≤ src.length := (List.takeWhile_sublist _).length_le
  by_cases valid : ∀ c ∈ bodyOf src, value values c ≠ invalid
  · rw [if_pos valid] at accepted
    by_cases count : (bodyOf src).length % 4 = 1
    · simp [count] at accepted
    · simp only [Option.bind_eq_bind, Option.bind_some, count, if_false, Option.pure_def,
        Option.some.injEq] at accepted
      rw [← accepted, decodeLoop_length, decodedLength]
      omega
  · rw [if_neg valid] at accepted
    simp at accepted

end Tables

/-- Whatever is encoded comes back, in both alphabets, and the text has the length that callers
    reserve for it: all of it with padding, no more than that without. -/
theorem decode_encode (src : List Byte) :
    (∃ out, encodeBase64 src = some out ∧ decodeBase64 out = some src ∧
      out.length = encodedLength src.length) ∧
    ∃ out, encodeBase64url src = some out ∧ decodeBase64url out = some src ∧
      out.length ≤ encodedLength src.length := by
  obtain ⟨out, encoded, decoded, _, length⟩ := agree64.roundTrip true src
  obtain ⟨out', encoded', decoded', length', _⟩ := agree64url.roundTrip false src
  exact ⟨⟨out, encoded, decoded, length rfl⟩, ⟨out', encoded', decoded', length'⟩⟩

/-- A decoder accepts a text just when the characters before the first `=` are in the alphabet of
    its encoder and are not one more than a multiple of four, and what it writes fits in the room
    that callers reserve for it. -/
theorem decode_accepts (src : List Byte) :
    ((decodeBase64 src).isSome ↔
      (∀ c ∈ bodyOf src, c ∈ basis64.take 64) ∧ (bodyOf src).length % 4 ≠ 1) ∧
    ((decodeBase64url src).isSome ↔
      (∀ c ∈ bodyOf src, c ∈ basis64url.take 64) ∧ (bodyOf src).length % 4 ≠ 1) ∧
    ∀ out, decodeBase64 src = some out ∨ decodeBase64url src = some out →
      out.length ≤ decodedLength src.length := by
  refine ⟨agree64.accepts src, agree64url.accepts src, fun out either => ?_⟩
  rcases either with accepted | accepted
  · exact decode_room accepted
  · exact decode_room accepted

end Base64
