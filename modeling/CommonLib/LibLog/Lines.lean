import CommonLib.LibLog.Log

/- How long a decorated line is, and when it fits. -/
namespace LibLog
open Overwrite
open FileDb (Bytes strlen)

/-! ### Strings in buffers -/

section Strings
variable {buffer string : Bytes}

theorem copyTo_room (room : string.length + 1 ≤ buffer.length) :
    copyTo buffer string = some (string ++ [0] ++ buffer.drop (string.length + 1)) := by
  rw [copyTo, if_pos room, overwrite, List.take_zero, List.nil_append, Nat.zero_add,
    List.length_append, List.length_singleton]

theorem copyTo_over (long : ¬ string.length + 1 ≤ buffer.length) : copyTo buffer string = none :=
  if_neg long

theorem takeWhile_terminated (noNul : 0 ∉ string) (rest : Bytes) :
    (string ++ [0] ++ rest).takeWhile (· ≠ 0) = string := by
  rw [List.append_assoc, List.takeWhile_append_of_pos]
  · simp
  · intro c member
    have other : c ≠ 0 := fun same => noNul (same ▸ member)
    simpa using other

end Strings

/-! ### The parts of a line -/

theorem decimal_noNul (n : Nat) : 0 ∉ decimal n := by
  intro member
  obtain ⟨c, inside, zero⟩ := List.mem_map.mp member
  have digit := Char.isDigit_iff_toNat.mp (Nat.isDigit_of_mem_toDigits (by decide) (by decide) inside)
  have value := congrArg UInt8.toNat zero
  simp only [UInt8.toNat_ofNat', UInt8.toNat_zero, Char.reduceToNat] at value digit
  omega

theorem decimalInt_noNul (n : Int) : 0 ∉ decimalInt n := by
  have digits := decimal_noNul n.natAbs
  unfold decimalInt
  split
  · rw [List.mem_append]
    exact not_or.mpr ⟨by decide, digits⟩
  · exact digits

theorem padded_noNul (width n : Nat) : 0 ∉ padded width n := by
  have digits := decimal_noNul n
  rw [padded, List.mem_append]
  refine not_or.mpr ⟨fun member => ?_, digits⟩
  exact absurd (List.eq_of_mem_replicate member) (by decide)

theorem padded_length {width n : Nat} (some_ : 0 < width) (small : n < 10 ^ width) :
    (padded width n).length = width := by
  have digits : (decimal n).length ≤ width := by
    rw [decimal, List.length_map]
    exact (Nat.length_toDigits_le_iff (by decide) some_).mpr small
  rw [padded, List.length_append, List.length_replicate]
  omega

theorem getTimestamp_length (time : LocalTime) : (getTimestamp time).length = 26 := by
  have year := padded_length (by decide) (show time.year.val < 10 ^ 4 from time.year.isLt)
  have month : (padded 2 time.month).length = 2 := padded_length (by decide) (by omega)
  have day : (padded 2 time.day).length = 2 := padded_length (by decide) (by omega)
  have hour : (padded 2 time.hour).length = 2 := padded_length (by decide) (by omega)
  have minute : (padded 2 time.minute).length = 2 := padded_length (by decide) (by omega)
  have second : (padded 2 time.second).length = 2 := padded_length (by decide) (by omega)
  have millisecond : (padded 3 time.millisecond).length = 3 := padded_length (by decide) (by omega)
  simp [getTimestamp, text, year, month, day, hour, minute, second, millisecond]

theorem getTimestamp_noNul (time : LocalTime) : 0 ∉ getTimestamp time := by
  simp only [getTimestamp, List.mem_append, padded_noNul, or_false]
  decide

theorem baseName_noNul (filename : CString) : 0 ∉ baseName filename.bytes := by
  intro member
  rw [baseName, List.mem_reverse] at member
  have inside := (List.takeWhile_sublist _).subset member
  exact filename.noNul (List.mem_reverse.mp inside)

section Line
variable (time : LocalTime) (filename : CString) (line : Int) (level : LogLevel) (message : CString)

theorem decorated_length :
    (decorated time filename.bytes line level message.bytes).length =
      45 + level.name.length + (baseName filename.bytes).length + (decimalInt line).length +
        min message.bytes.length 1023 := by
  have colour : level.colour.length = 7 := by cases level <;> rfl
  have stamp := getTimestamp_length time
  have marks : (text "[").length = 1 ∧ (text "] [").length = 3 ∧ (text ":").length = 1 ∧
      (text "] ").length = 2 ∧ (text "\n\x1b[0m").length = 5 := by decide
  simp only [decorated, vsnprintf, List.length_append, List.length_take, colour, stamp]
  omega

theorem decorated_noNul : 0 ∉ decorated time filename.bytes line level message.bytes := by
  have colour : 0 ∉ level.colour := by cases level <;> decide
  have name : 0 ∉ level.name := by cases level <;> decide
  have taken : 0 ∉ vsnprintf message.bytes :=
    fun member => message.noNul (List.mem_of_mem_take member)
  simp only [decorated, List.mem_append, colour, name, taken, getTimestamp_noNul,
    baseName_noNul, decimalInt_noNul, or_false]
  decide

def Fits (found : Vector UInt8 maxText) : Prop :=
  ∃ queued, mylog1 found time filename line level message =
      some (some (decorated time filename.bytes line level message.bytes, queued)) ∧
    queued.len = (decorated time filename.bytes line level message.bytes).length ∧
    queued.text.length = maxText ∧
    queued.text.take (queued.len + 1) =
      decorated time filename.bytes line level message.bytes ++ [0]

theorem fits_iff_length (found : Vector UInt8 maxText) :
    Fits time filename line level message found ↔
      (decorated time filename.bytes line level message.bytes).length + 1 ≤ maxText := by
  have shown : ¬ level.number > logLevel.number := by cases level <;> decide
  have noNul := decorated_noNul time filename line level message
  have zeros : (List.replicate maxText (0 : UInt8)).length = maxText := List.length_replicate
  have size : found.toList.length = maxText := by simp
  unfold Fits mylog1
  rw [if_neg shown]
  generalize decorated time filename.bytes line level message.bytes = written at noNul
  constructor
  · rintro ⟨queued, run, _⟩
    apply Classical.byContradiction
    intro long
    rw [copyTo_over (by rw [zeros]; exact long)] at run
    cases run
  · intro room
    have stored := copyTo_room (zeros.symm ▸ room)
    have sent := copyTo_room (size.symm ▸ room)
    have back := takeWhile_terminated noNul ((List.replicate maxText 0).drop (written.length + 1))
    refine ⟨⟨written ++ [0] ++ found.toList.drop (written.length + 1), written.length⟩, ?_, rfl,
      ?_, ?_⟩
    · simp only [stored, sendMsg, strlen, back, sent, Option.bind_eq_bind, Option.bind_some,
        Option.pure_def]
    · simp
      omega
    · rw [List.take_left' (by simp)]

end Line

/-- A line fits if and only if its level, its file, its number and its message leave room for 45 bytes of
    decoration and the terminator. -/
theorem fits_iff (time : LocalTime) (filename : CString) (line : Int) (level : LogLevel)
    (message : CString) (found : Vector UInt8 maxText) :
    Fits time filename line level message found ↔
      level.name.length + (baseName filename.bytes).length + (decimalInt line).length +
        min message.bytes.length 1023 ≤ 978 := by
  have length := decorated_length time filename line level message
  rw [fits_iff_length, length]
  unfold maxText
  omega

def sampleTime : LocalTime := ⟨2011, 11, 15, 12, 47, 34, 888⟩

def longMessage : CString where
  bytes := List.replicate 1000 97
  noNul := fun member => absurd (List.eq_of_mem_replicate member) (by decide)

/-- A thousand characters, which `buf` has room for. -/
theorem long_message_overruns :
    ¬ Fits sampleTime ⟨text "src/main.c", by decide⟩ 5 .debug longMessage
      (Vector.replicate maxText 0) := by
  rw [fits_iff_length, decorated_length]
  have message : longMessage.bytes.length = 1000 := List.length_replicate
  rw [message]
  unfold maxText
  omega

end LibLog
